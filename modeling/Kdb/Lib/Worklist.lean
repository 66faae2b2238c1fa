/-
Walks with a work list: the loops that keep a queue or a stack of nodes and a set of visited ones.
- `Searched`: what a walk visits, in its order, whichever queued node it takes next; `Searched.visit`, `Searched.skip` are its
  steps. `Searched.all` and `Searched.mem_iff`: it visits exactly what lies below the queued nodes.
- `explore`: visit what is queued and queue its parents; `mem_explore`: it visits exactly what lies below, each node
  once.
- `finds`: the same walk, ended as soon as it meets a goal; `finds_iff`.
- `settle`: number the nodes below one, parents first, with a stack and a memo; `settle_spec`: the numbers are those of
  the recursion `number`.
The loops carry fuel; the number of paths out of the queued nodes is always enough.
-/
import Kdb.Lib.RankedGraph

namespace Kdb

open List

/-! ## Searches -/

/-- `out` is what a walk visits, in its order, with the nodes of `seen` behind it and those of `queue` before it -/
structure Searched {ν : Type*} (next : ν → List ν) (seen queue out : List ν) : Prop where
  nodup : out.Nodup
  fresh : ∀ x ∈ out, x ∉ seen
  queued : ∀ x ∈ queue, x ∈ seen ∨ x ∈ out
  closed : ∀ v ∈ out, ∀ p ∈ next v, p ∈ seen ∨ p ∈ out
  reached : ∀ l x r, out = l ++ x :: r → x ∈ queue ∨ ∃ v ∈ l, x ∈ next v

namespace Searched

variable {ν : Type*} {next : ν → List ν} {seen seen' queue rest after out : List ν} {x : ν}

theorem done (next : ν → List ν) (seen : List ν) : Searched next seen [] [] := ⟨.nil, nofun, nofun, nofun, by simp⟩

theorem skip (h : Searched next seen rest out) (hx : x ∈ seen) (hq : ∀ y, y ∈ queue ↔ y = x ∨ y ∈ rest) :
    Searched next seen queue out where
  nodup := h.nodup
  fresh := h.fresh
  queued y hy := ((hq y).1 hy).elim (fun he => .inl (he ▸ hx)) (h.queued y)
  closed := h.closed
  reached l y r heq := (h.reached l y r heq).imp_left fun hy => (hq y).2 (.inr hy)

/-- the node taken is visited, and what comes next to it is queued -/
theorem visit (h : Searched next seen' after out) (hx : x ∉ seen) (hq : ∀ y, y ∈ queue ↔ y = x ∨ y ∈ rest)
    (hseen : ∀ y, y ∈ seen' ↔ y = x ∨ y ∈ seen) (hafter : ∀ y, y ∈ after ↔ y ∈ rest ∨ y ∈ next x) :
    Searched next seen queue (x :: out) := by
  have hkept : ∀ y, y ∈ seen' ∨ y ∈ out → y ∈ seen ∨ y ∈ x :: out := by
    intro y
    rw [hseen, mem_cons]
    tauto
  refine ⟨nodup_cons.2 ⟨fun hmem => h.fresh x hmem ((hseen x).2 (.inl rfl)), h.nodup⟩,
    forall_mem_cons.2 ⟨hx, fun y hy hs => h.fresh y hy ((hseen y).2 (.inr hs))⟩, fun y hy => ?_,
    forall_mem_cons.2 ⟨fun p hp => hkept p (h.queued p ((hafter p).2 (.inr hp))),
      fun v hv p hp => hkept p (h.closed v hv p hp)⟩, fun l y r heq => ?_⟩
  · rcases (hq y).1 hy with rfl | hy
    · exact .inr (.head _)
    · exact hkept y (h.queued y ((hafter y).2 (.inl hy)))
  · cases l with
    | nil => exact .inl ((hq y).2 (.inl (cons.inj heq).1.symm))
    | cons z l =>
      obtain ⟨rfl, heq'⟩ := cons.inj heq
      rcases h.reached l y r heq' with hy | ⟨v, hv, hy⟩
      · exact ((hafter y).1 hy).imp (fun hy => (hq y).2 (.inr hy)) fun hy => ⟨x, .head _, hy⟩
      · exact .inr ⟨v, .tail _ hv, hy⟩

/-- what holds of the queued nodes and goes from a node to the next ones holds of everything visited -/
theorem all (h : Searched next seen queue out) {P : ν → Prop} (hq : ∀ x ∈ queue, P x)
    (hnext : ∀ v, P v → ∀ p ∈ next v, P p) : ∀ x ∈ out, P x := by
  intro x hx
  obtain ⟨l, r, heq⟩ := append_of_mem hx
  induction hn : l.length using Nat.strong_induction_on generalizing x l r with
  | _ n ih =>
    rcases h.reached l x r heq with hx | ⟨v, hv, hx⟩
    · exact hq x hx
    · obtain ⟨l₁, l₂, rfl⟩ := append_of_mem hv
      refine hnext v (ih l₁.length ?_ v ?_ l₁ (l₂ ++ x :: r) (by simp [heq]) rfl) x hx
      · simp only [length_append, length_cons] at hn
        omega
      · simp [heq]

theorem mem_iff {G : RankedGraph ν} (h : Searched G.parents [] queue out) (y : ν) :
    y ∈ out ↔ ∃ x ∈ queue, G.Below y x := by
  constructor
  · exact h.all (P := fun y => ∃ x ∈ queue, G.Below y x) (fun x hx => ⟨x, hx, .refl⟩)
      (fun v ⟨x, hx, hv⟩ p hp => ⟨x, hx, .trans (.parent hp) hv⟩) y
  · intro ⟨x, hx, hb⟩
    have hout := (h.queued x hx).resolve_left nofun
    clear hx
    induction hb with
    | refl => exact hout
    | step hp _ ih => exact ih ((h.closed _ hout _ hp).resolve_left nofun)

end Searched

namespace RankedGraph

variable {ν : Type*} [DecidableEq ν] (G : RankedGraph ν)

/-! ## Exploring -/

/-- where newly queued nodes go -/
structure Discipline (ν : Type*) where
  enqueue : List ν → List ν → List ν
  perm : ∀ new queue, (enqueue new queue).Perm (new ++ queue)

/-- first in, first out -/
def fifo : Discipline ν := ⟨fun new queue => queue ++ new, fun _ _ => perm_append_comm⟩

/-- last in, first out: the end of what was pushed is on top -/
def lifo : Discipline ν := ⟨fun new queue => new.reverse ++ queue, fun _ _ => (reverse_perm _).append_right _⟩

/-- the number of paths down from the queued nodes -/
def paths (queue : List ν) : ℕ := (queue.map fun x => (G.closure x).length).sum

def exploreFuel (D : Discipline ν) : ℕ → List ν → List ν → List ν
  | 0, visited, _ => visited
  | _ + 1, visited, [] => visited
  | n + 1, visited, x :: queue =>
    if x ∈ visited then exploreFuel D n visited queue
    else exploreFuel D n (x :: visited) (D.enqueue (G.parents x) queue)

/-- the nodes a walk from `queue` visits, the last one first -/
def explore (D : Discipline ν) (queue : List ν) : List ν := G.exploreFuel D (G.paths queue) [] queue

def findsFuel (D : Discipline ν) (goal : ν) : ℕ → List ν → List ν → Bool
  | 0, _, _ => false
  | _ + 1, _, [] => false
  | n + 1, visited, x :: queue =>
    if x ∈ visited then findsFuel D goal n visited queue
    else if x = goal then true
    else findsFuel D goal n (x :: visited) (D.enqueue (G.parents x) queue)

/-- does a walk from `queue` meet `goal`? -/
def finds (D : Discipline ν) (goal : ν) (queue : List ν) : Bool := G.findsFuel D goal (G.paths queue) [] queue

variable {G} {D : Discipline ν}

omit [DecidableEq ν] in
theorem paths_cons (x : ν) (queue : List ν) : G.paths (x :: queue) = G.paths (G.parents x ++ queue) + 1 := by
  simp only [paths, map_cons, sum_cons, map_append, sum_append, closure_eq x, length_cons, length_flatMap]
  omega

omit [DecidableEq ν] in
theorem paths_pos (x : ν) (queue : List ν) : G.paths queue < G.paths (x :: queue) := by
  have : 0 < (G.closure x).length := by rw [closure_eq]; exact Nat.succ_pos _
  simp only [paths, map_cons, sum_cons]
  omega

omit [DecidableEq ν] in
theorem paths_enqueue (new queue : List ν) : G.paths (D.enqueue new queue) = G.paths (new ++ queue) :=
  ((D.perm new queue).map _).sum_eq

variable {n : ℕ} {visited queue : List ν} {y goal : ν} {G' : RankedGraph ν}

omit [DecidableEq ν] in
theorem mem_enqueue {new : List ν} {x : ν} : x ∈ D.enqueue new queue ↔ x ∈ new ∨ x ∈ queue := by
  rw [(D.perm new queue).mem_iff, mem_append]

/-- with enough fuel the walk visits everything; looking for a goal, it finds what it would visit -/
theorem searched_exploreFuel (visited : List ν) (hn : G.paths queue ≤ n) : ∃ out, Searched G.parents visited queue out ∧
    G.exploreFuel D n visited queue = out.reverse ++ visited ∧
    ∀ goal, G.findsFuel D goal n visited queue = true ↔ goal ∈ out := by
  induction n generalizing visited queue with
  | zero =>
    cases queue with
    | nil => exact ⟨[], .done _ _, rfl, by simp [findsFuel]⟩
    | cons x queue => exact absurd (paths_pos (G := G) x queue) (by omega)
  | succ n ih =>
    cases queue with
    | nil => exact ⟨[], .done _ _, rfl, by simp [findsFuel]⟩
    | cons x queue =>
      have hlt := paths_pos (G := G) x queue
      have hcost := paths_cons (G := G) x queue
      unfold findsFuel exploreFuel
      by_cases hx : x ∈ visited
      · obtain ⟨out, hs, hout, hgoal⟩ := @ih queue visited (by omega)
        simp only [hx]
        exact ⟨out, hs.skip hx (by simp), hout, hgoal⟩
      · obtain ⟨out, hs, hout, hgoal⟩ := @ih (D.enqueue (G.parents x) queue) (x :: visited) (by rw [paths_enqueue]; omega)
        simp only [hx]
        refine ⟨x :: out, hs.visit hx (by simp) (by simp) fun y => mem_enqueue.trans or_comm, by simp [hout], fun goal => ?_⟩
        by_cases hg : x = goal
        · simp [hg]
        · simp [hg, Ne.symm hg, hgoal]

theorem mem_exploreFuel (hn : G.paths queue ≤ n) : y ∈ G.exploreFuel D n [] queue ↔ ∃ x ∈ queue, G.Below y x := by
  obtain ⟨out, hs, hout, -⟩ := searched_exploreFuel (D := D) [] hn
  rw [hout, append_nil, mem_reverse, hs.mem_iff]

/-- **Exploring visits what lies below.** -/
theorem mem_explore : y ∈ G.explore D queue ↔ ∃ x ∈ queue, G.Below y x :=
  mem_exploreFuel le_rfl

theorem explore_nodup (queue : List ν) : (G.explore D queue).Nodup := by
  obtain ⟨out, hs, hout, -⟩ := searched_exploreFuel (D := D) [] (le_refl (G.paths queue))
  rw [explore, hout, append_nil, nodup_reverse]
  exact hs.nodup

/-- **Finding is being below.** -/
theorem finds_iff : G.finds D goal queue = true ↔ ∃ x ∈ queue, G.Below goal x := by
  obtain ⟨out, hs, -, hgoal⟩ := searched_exploreFuel (D := D) [] (le_refl (G.paths queue))
  rw [finds, hgoal, hs.mem_iff]

omit [DecidableEq ν] in
theorem closure_length_le (hsub : ∀ x, (G'.parents x).Sublist (G.parents x)) (x : ν) :
    (G'.closure x).length ≤ (G.closure x).length := by
  induction hr : G.rank x using Nat.strong_induction_on generalizing x with
  | _ n ih =>
    rw [closure_eq (G := G'), closure_eq (G := G), length_cons, length_cons, length_flatMap, length_flatMap]
    have hle : ((G'.parents x).map fun p => (G'.closure p).length).sum ≤
        ((G'.parents x).map fun p => (G.closure p).length).sum := by
      apply sum_le_sum
      intro p hp
      exact ih (G.rank p) (hr ▸ G.rank_lt x p ((hsub x).subset hp)) p rfl
    exact Nat.succ_le_succ (hle.trans (((hsub x).map _).sum_le_sum fun _ _ => Nat.zero_le _))

omit [DecidableEq ν] in
theorem paths_le (hsub : ∀ x, (G'.parents x).Sublist (G.parents x)) (queue : List ν) :
    G'.paths queue ≤ G.paths queue := by
  apply sum_le_sum
  intro x _
  exact closure_length_le hsub x

/-! ## Numbering -/

variable (G)

def number (value : ν → List ℕ → ℕ) : ν → ℕ := G.walk (fun x rest => value x ((G.parents x).map rest)) 0

/-- one stack frame at a time: a numbered node is done, an active one has its parents numbered and is settled, another
becomes active with its parents on top of it -/
def settleFuel (value : ν → List ℕ → ℕ) : ℕ → (AList fun _ : ν => ℕ) → List ν → List ν → AList fun _ : ν => ℕ
  | 0, numbers, _, _ => numbers
  | _ + 1, numbers, _, [] => numbers
  | n + 1, numbers, active, x :: stack =>
    if x ∈ numbers then settleFuel value n numbers active stack
    else if x ∈ active then
      settleFuel value n (numbers.insert x (value x ((G.parents x).map fun p => (numbers.lookup p).getD 0)))
        (active.erase x) stack
    else
      settleFuel value n numbers (x :: active)
        (((G.parents x).filter fun p => p ∉ numbers && p ∉ x :: active).reverse ++ x :: stack)

/-- number `x` and what lies below it, over the numbers there are -/
def settle (value : ν → List ℕ → ℕ) (numbers : AList fun _ : ν => ℕ) (x : ν) : AList fun _ : ν => ℕ :=
  G.settleFuel value (2 * (G.closure x).length) numbers [] [x]

variable {G} {value : ν → List ℕ → ℕ} {active : List ν} {numbers : AList fun _ : ν => ℕ}

omit [DecidableEq ν] in
theorem number_eq (x : ν) : G.number value x = value x ((G.parents x).map (G.number value)) := by
  refine walk_eq (d := 0) ?_ x
  intro y f g h
  have : (G.parents y).map f = (G.parents y).map g := map_congr_left fun p hp => h p (G.rank_lt y p hp)
  simp [this]

/-- every number in the memo is the right one -/
def Numbered (G : RankedGraph ν) (value : ν → List ℕ → ℕ) (numbers : AList fun _ : ν => ℕ) : Prop :=
  ∀ x v, numbers.lookup x = some v → v = G.number value x

omit [DecidableEq ν] in
theorem paths_filter_le (P : ν → Bool) (l : List ν) : G.paths (l.filter P) ≤ G.paths l := by
  induction l with
  | nil => exact le_rfl
  | cons x l ih =>
    have hlt := paths_pos (G := G) x l
    rw [filter_cons]
    split
    · simp only [paths, map_cons, sum_cons] at ih ⊢
      omega
    · omega

/-- what running `k` steps over the nodes of `l` does: they are numbered with what lies below them, and their frames are
gone -/
structure Settles (G : RankedGraph ν) (value : ν → List ℕ → ℕ) (k : ℕ) (numbers : AList fun _ : ν => ℕ) (active l : List ν)
    (numbers' : AList fun _ : ν => ℕ) : Prop where
  numbered : G.Numbered value numbers'
  mono : ∀ y ∈ numbers, y ∈ numbers'
  below : ∀ y ∈ numbers', y ∈ numbers ∨ ∃ x ∈ l, G.Below y x
  mem : ∀ x ∈ l, x ∈ numbers'
  runs : ∀ n stack, G.settleFuel value (n + k) numbers active (l ++ stack) = G.settleFuel value n numbers' active stack

/-- frames one after the other -/
theorem settles_list {l : List ν}
    (hframe : ∀ x ∈ l, ∀ numbers, G.Numbered value numbers → ∃ k ≤ 2 * (G.closure x).length, ∃ numbers', G.Settles value k numbers active [x] numbers')
    (hn : G.Numbered value numbers) : ∃ k ≤ 2 * G.paths l, ∃ numbers', G.Settles value k numbers active l numbers' := by
  induction l generalizing numbers with
  | nil => exact ⟨0, Nat.zero_le _, numbers, hn, fun _ h => h, fun _ h => .inl h, nofun, fun _ _ => rfl⟩
  | cons x l ih =>
    obtain ⟨k₁, hk₁, n₁, h₁⟩ := hframe x (.head _) numbers hn
    obtain ⟨k₂, hk₂, n₂, h₂⟩ := ih (fun y hy => hframe y (.tail _ hy)) h₁.numbered
    refine ⟨k₂ + k₁, ?_, n₂, h₂.numbered, fun y hy => h₂.mono y (h₁.mono y hy), ?_, ?_, ?_⟩
    · simp only [paths, map_cons, sum_cons] at hk₂ ⊢
      omega
    · intro y hy
      rcases h₂.below y hy with hy | ⟨z, hz, hb⟩
      · rcases h₁.below y hy with hy | ⟨z, hz, hb⟩
        · exact .inl hy
        · exact .inr ⟨x, .head _, mem_singleton.1 hz ▸ hb⟩
      · exact .inr ⟨z, .tail _ hz, hb⟩
    · exact forall_mem_cons.2 ⟨h₂.mono _ (h₁.mem _ mem_cons_self), h₂.mem⟩
    · intro n stack
      calc G.settleFuel value (n + (k₂ + k₁)) numbers active (x :: l ++ stack)
          = G.settleFuel value (n + k₂ + k₁) numbers active ([x] ++ (l ++ stack)) := by rw [Nat.add_assoc]; rfl
        _ = G.settleFuel value (n + k₂) n₁ active (l ++ stack) := h₁.runs _ _
        _ = G.settleFuel value n n₂ active stack := h₂.runs _ _

/-- **One frame.** With nothing active at or below it, a node is numbered and its frame is gone. -/
theorem settles_frame (x : ν) (hn : G.Numbered value numbers) (hactive : ∀ a ∈ active, G.rank x < G.rank a) :
    ∃ k ≤ 2 * (G.closure x).length, ∃ numbers', G.Settles value k numbers active [x] numbers' := by
  induction hr : G.rank x using Nat.strong_induction_on generalizing x numbers active with
  | _ r ih =>
    have hlen : (G.closure x).length = G.paths (G.parents x) + 1 := by
      simp [closure_eq x, paths]
    by_cases hx : x ∈ numbers
    · refine ⟨1, by omega, numbers, hn, fun _ h => h, fun _ h => .inl h, ?_, ?_⟩
      · intro y hy
        exact mem_singleton.1 hy ▸ hx
      · simp [settleFuel, hx]
    have hxa : x ∉ active := fun h => lt_irrefl _ (hactive x h)
    -- the parents on top of `x` are settled first, over a stack on which `x` is active
    set pushed := ((G.parents x).filter fun p => p ∉ numbers && p ∉ x :: active).reverse with hpushed
    have hparent : ∀ p ∈ pushed, p ∈ G.parents x := fun p hp =>
      (mem_filter.1 (mem_reverse.1 hp)).1
    obtain ⟨k, hk, n₁, h₁⟩ := @settles_list _ _ G value (x :: active) _ pushed (fun p hp numbers hn => by
      have hlt := G.rank_lt x p (hparent p hp)
      refine ih (G.rank p) (hr ▸ hlt) p hn ?_ rfl
      exact forall_mem_cons.2 ⟨hlt, fun a ha => hlt.trans (hactive a ha)⟩) hn
    have hx₁ : x ∉ n₁ := by
      intro h
      rcases h₁.below x h with h | ⟨p, hp, hb⟩
      · exact hx h
      · exact absurd hb.rank_le (Nat.not_le.2 (G.rank_lt x p (hparent p hp)))
    have hall : ∀ p ∈ G.parents x, p ∈ n₁ := by
      intro p hp
      by_cases hpn : p ∈ numbers
      · exact h₁.mono p hpn
      · have hlt := G.rank_lt x p hp
        have hpa : p ∉ x :: active := by
          intro h
          rcases mem_cons.1 h with rfl | h
          · exact lt_irrefl _ hlt
          · exact lt_asymm hlt (hactive p h)
        exact h₁.mem p (mem_reverse.2 (mem_filter.2 ⟨hp, by simp [hpn, hpa]⟩))
    have hvalue : value x ((G.parents x).map fun p => (n₁.lookup p).getD 0) = G.number value x := by
      rw [number_eq x]
      congr 1
      refine map_congr_left fun p hp => ?_
      obtain ⟨v, hv⟩ := Option.isSome_iff_exists.1 (AList.lookup_isSome.2 (hall p hp))
      rw [hv, h₁.numbered p v hv]
      rfl
    refine ⟨1 + k + 1, ?_, n₁.insert x (G.number value x), ?_, ?_, ?_, ?_, ?_⟩
    · have hle : G.paths pushed ≤ G.paths (G.parents x) := by
        refine le_trans (le_of_eq ?_) (paths_filter_le (fun p => p ∉ numbers && p ∉ x :: active) (G.parents x))
        exact ((reverse_perm _).map _).sum_eq
      omega
    · intro y v hy
      by_cases hyx : y = x
      · subst hyx
        rw [AList.lookup_insert] at hy
        exact (Option.some.inj hy).symm
      · rw [AList.lookup_insert_ne hyx] at hy
        exact h₁.numbered y v hy
    · intro y hy
      exact (AList.mem_insert _).2 (.inr (h₁.mono y hy))
    · intro y hy
      rcases (AList.mem_insert _).1 hy with rfl | hy
      · exact .inr ⟨y, mem_singleton.2 rfl, .refl⟩
      · rcases h₁.below y hy with hy | ⟨p, hp, hb⟩
        · exact .inl hy
        · exact .inr ⟨x, mem_singleton.2 rfl, .step (hparent p hp) hb⟩
    · intro y hy
      exact (AList.mem_insert _).2 (.inl (mem_singleton.1 hy))
    · intro n stack
      calc G.settleFuel value (n + (1 + k + 1)) numbers active ([x] ++ stack)
          = G.settleFuel value (n + 1 + k) numbers (x :: active) (pushed ++ x :: stack) := by
            rw [show n + (1 + k + 1) = (n + 1 + k) + 1 by omega]
            simp only [cons_append, nil_append, settleFuel, if_neg hx, if_neg hxa, hpushed]
        _ = G.settleFuel value (n + 1) n₁ (x :: active) (x :: stack) := h₁.runs _ _
        _ = G.settleFuel value n (n₁.insert x (G.number value x)) active stack := by
            simp only [settleFuel, if_neg hx₁, mem_cons_self, if_true, hvalue, erase_cons_head]

/-- **Settling numbers a node.** -/
theorem settle_spec (hn : G.Numbered value numbers) (x : ν) :
    G.Numbered value (G.settle value numbers x) ∧ (∀ y ∈ numbers, y ∈ G.settle value numbers x) ∧
      (∀ y ∈ G.settle value numbers x, y ∈ numbers ∨ G.Below y x) ∧ x ∈ G.settle value numbers x := by
  obtain ⟨k, hk, numbers', h⟩ := @settles_frame _ _ G value [] numbers x hn nofun
  have heq : G.settle value numbers x = numbers' := by
    have := h.runs (2 * (G.closure x).length - k) []
    rw [Nat.sub_add_cancel hk] at this
    refine this.trans ?_
    cases 2 * (G.closure x).length - k <;> rfl
  rw [heq]
  refine ⟨h.numbered, h.mono, ?_, h.mem x mem_cons_self⟩
  intro y hy
  rcases h.below y hy with hy | ⟨z, hz, hb⟩
  · exact .inl hy
  · exact .inr (mem_singleton.1 hz ▸ hb)

end RankedGraph

end Kdb
