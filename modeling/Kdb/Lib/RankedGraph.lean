/-
Finite-depth directed graphs: every node has a list of parents of lower rank. Walks along the parents end, so questions
about a node's history are computed by recursion on the rank.
- `walk`: recursion on the rank with fuel. `walk_eq` is its equation when the recursive calls go to lower ranks.
- `closure`, `Below`: a node and everything its parents lead to; `mem_closure` says the first computes the second.
- `cut`: the graph without the edges out of some nodes; `Below.cut` says which ancestors stay in reach.
- `level`: the nodes a given number of parent steps away, the order of a breadth-first walk.
- `exists_highest_common`: two nodes with a common ancestor have one of highest rank.
- `Common`, `Nearest`: the common ancestors of two sets of nodes, and those below no other. `nearest_iff_of_between`: any set
  between the two gives the nearest ones when its members below other members are dropped.
- `eq_of_quiet`: a function that does not change along the edges out of the nodes only one side reaches has one value at
  both sides.
-/
import Mathlib

namespace Kdb

open List

/-- a graph whose parents have lower ranks -/
structure RankedGraph (ν : Type*) where
  parents : ν → List ν
  rank : ν → ℕ
  rank_lt : ∀ x, ∀ p ∈ parents x, rank p < rank x

theorem le_foldl_max {l : List ℕ} {v b : ℕ} (hv : v ≤ b ∨ v ∈ l) : v ≤ l.foldl max b := by
  induction l generalizing b with
  | nil => exact hv.resolve_right not_mem_nil
  | cons x l ih =>
    apply ih
    rcases hv with hv | hv
    · exact .inl (le_max_of_le_left hv)
    · rcases mem_cons.1 hv with rfl | hv
      · exact .inl (le_max_right _ _)
      · exact .inr hv

namespace RankedGraph

variable {ν α : Type*} (G : RankedGraph ν)

/-! ## Recursion on the rank -/

/-- recursion with fuel; out of fuel the recursive calls give `d` -/
def walkFuel (F : ν → (ν → α) → α) (d : α) : ℕ → ν → α
  | 0, x => F x fun _ => d
  | n + 1, x => F x (walkFuel F d n)

/-- recursion on the rank -/
def walk (F : ν → (ν → α) → α) (d : α) (x : ν) : α := walkFuel F d (G.rank x) x

/-- the recursive calls of `F` at `x` go to lower ranks -/
def Local (F : ν → (ν → α) → α) : Prop :=
  ∀ x (f g : ν → α), (∀ y, G.rank y < G.rank x → f y = g y) → F x f = F x g

variable {G}

variable {F : ν → (ν → α) → α} {x a b : ν} {stop : ν → Bool} {as bs : List ν} {f : ν → α}

theorem walkFuel_stable {d : α} (hF : G.Local F) {n : ℕ} (hn : G.rank x ≤ n) : walkFuel F d n x = G.walk F d x := by
  induction n using Nat.strong_induction_on generalizing x with
  | _ n ih =>
    rcases hn.eq_or_lt with rfl | hlt
    · rfl
    · obtain ⟨m, rfl⟩ : ∃ m, n = m + 1 := ⟨n - 1, by omega⟩
      unfold walk
      cases hx : G.rank x with
      | zero =>
        refine hF x _ _ ?_
        omega
      | succ k =>
        refine hF x _ _ ?_
        intro y hy
        rw [ih m (by omega) (by omega), ih k (by omega) (by omega)]

/-- **Walk equation.** -/
theorem walk_eq {d : α} (hF : G.Local F) (x : ν) : G.walk F d x = F x (G.walk F d) := by
  rw [← walkFuel_stable hF (Nat.le_succ (G.rank x))]
  refine hF x _ _ ?_
  intro y hy
  exact walkFuel_stable hF hy.le

variable (G)

/-! ## Ancestors -/

/-- `Below a x`: `a` is `x` or reached from `x` by parent steps -/
inductive Below (a : ν) : ν → Prop where
  | refl : Below a a
  | step {x p : ν} (hp : p ∈ G.parents x) (h : Below a p) : Below a x

/-- a node and everything below it, with repetitions -/
def closure : ν → List ν := G.walk (fun x rest => x :: (G.parents x).flatMap rest) []

/-- the nodes `n` parent steps away -/
def level : ℕ → ν → List ν
  | 0, x => [x]
  | n + 1, x => (level n x).flatMap G.parents

variable {G}

theorem closure_eq (x : ν) : G.closure x = x :: (G.parents x).flatMap G.closure := by
  refine walk_eq (d := []) ?_ x
  intro y f g h
  have : (G.parents y).flatMap f = (G.parents y).flatMap g :=
    flatMap_congr fun p hp => h p (G.rank_lt y p hp)
  simp [this]

theorem Below.rank_le (h : G.Below a x) : G.rank a ≤ G.rank x := by
  induction h with
  | refl => exact le_rfl
  | step hp h ih => exact ih.trans (G.rank_lt _ _ hp).le

theorem Below.trans {c : ν} (h₁ : G.Below a b) (h₂ : G.Below b c) : G.Below a c := by
  induction h₂ with
  | refl => exact h₁
  | step hp h ih => exact .step hp ih

theorem Below.parent {p : ν} (hp : p ∈ G.parents x) : G.Below p x := .step hp .refl

theorem Below.eq_or_parent (h : G.Below a x) : a = x ∨ ∃ p ∈ G.parents x, G.Below a p := by
  cases h with
  | refl => exact .inl rfl
  | step hp h => exact .inr ⟨_, hp, h⟩

theorem Below.eq_or_rank_lt (h : G.Below a x) : a = x ∨ G.rank a < G.rank x := by
  rcases h.eq_or_parent with rfl | ⟨p, hp, h⟩
  · exact .inl rfl
  · exact .inr (h.rank_le.trans_lt (G.rank_lt x p hp))

theorem Below.antisymm (h : G.Below a x) (h' : G.Below x a) : a = x := by
  rcases h.eq_or_rank_lt with heq | hlt
  · exact heq
  · exact absurd h'.rank_le (not_le.2 hlt)

theorem below_ne_iff : G.Below a x ∧ a ≠ x ↔ ∃ p ∈ G.parents x, G.Below a p := by
  constructor
  · intro ⟨h, hne⟩
    exact h.eq_or_parent.resolve_left hne
  · intro ⟨p, hp, h⟩
    refine ⟨.step hp h, ?_⟩
    rintro rfl
    exact absurd h.rank_le (Nat.not_le.2 (G.rank_lt _ p hp))

theorem mem_closure : a ∈ G.closure x ↔ G.Below a x := by
  constructor
  · intro h
    induction hr : G.rank x using Nat.strong_induction_on generalizing x with
    | _ n ih =>
      rw [closure_eq, mem_cons, mem_flatMap] at h
      rcases h with rfl | ⟨p, hp, h⟩
      · exact .refl
      · exact .step hp (ih (G.rank p) (hr ▸ G.rank_lt x p hp) h rfl)
  · intro h
    induction h with
    | refl =>
      rw [closure_eq]
      exact .head _
    | step hp h ih =>
      rw [closure_eq, mem_cons, mem_flatMap]
      exact .inr ⟨_, hp, ih⟩

instance decidableBelow [DecidableEq ν] (a x : ν) : Decidable (G.Below a x) :=
  decidable_of_iff (a ∈ G.closure x) mem_closure

/-- the graph without the edges out of the nodes at which a walk stops -/
def cut (G : RankedGraph ν) (stop : ν → Bool) : RankedGraph ν where
  parents := fun x => if stop x then [] else G.parents x
  rank := G.rank
  rank_lt := by
    intro x p hp
    split at hp
    · cases hp
    · exact G.rank_lt x p hp

theorem mem_cut_parents {p : ν} : p ∈ (G.cut stop).parents x ↔ stop x = false ∧ p ∈ G.parents x := by
  cases hx : stop x <;> simp [cut, hx]

theorem below_of_cut (h : (G.cut stop).Below a x) : G.Below a x := by
  induction h with
  | refl => exact .refl
  | step hp _ ih => exact .step (mem_cut_parents.1 hp).2 ih

/-- what is reached without passing through a stop stays in reach -/
theorem Below.cut (h : G.Below a x) (hstop : ∀ y, G.Below a y → a ≠ y → G.Below y x → stop y = false) :
    (G.cut stop).Below a x := by
  induction h with
  | refl => exact .refl
  | step hp h ih =>
    rename_i x p
    have hx : stop x = false := hstop x (.step hp h) (below_ne_iff.2 ⟨p, hp, h⟩).2 .refl
    exact .step (mem_cut_parents.2 ⟨hx, hp⟩) (ih fun y hay hne hyp => hstop y hay hne (hyp.trans (.parent hp)))

theorem exists_level (h : G.Below a x) : ∃ n ≤ G.rank x, a ∈ G.level n x := by
  have key : ∀ {y}, G.Below a y → ∀ m, y ∈ G.level m x → ∃ n, a ∈ G.level n x ∧ n + G.rank a ≤ m + G.rank y := by
    intro y h
    induction h with
    | refl => exact fun m hy => ⟨m, hy, le_rfl⟩
    | step hp h ih =>
      rename_i y p
      intro m hy
      have hlt := G.rank_lt y p hp
      obtain ⟨n, hn, hle⟩ := ih (m + 1) (mem_flatMap.2 ⟨y, hy, hp⟩)
      exact ⟨n, hn, by omega⟩
  obtain ⟨n, hn, hle⟩ := key h 0 (mem_singleton.2 rfl)
  exact ⟨n, by omega, hn⟩

/-! ## Common ancestors -/

/-- two nodes with a common ancestor have one of highest rank -/
theorem exists_highest_common (h : ∃ c, G.Below c a ∧ G.Below c b) :
    ∃ m, G.Below m a ∧ G.Below m b ∧ ∀ c, G.Below c a → G.Below c b → G.rank c ≤ G.rank m := by
  classical
  let P : ℕ → Prop := fun n => ∃ c, G.Below c a ∧ G.Below c b ∧ G.rank c = n
  obtain ⟨c, hca, hcb⟩ := h
  have hP : P (Nat.findGreatest P (G.rank a)) := Nat.findGreatest_spec hca.rank_le ⟨c, hca, hcb, rfl⟩
  obtain ⟨m, hma, hmb, hm⟩ := hP
  refine ⟨m, hma, hmb, ?_⟩
  intro c' hca' hcb'
  rw [hm]
  exact Nat.le_findGreatest hca'.rank_le ⟨c', hca', hcb', rfl⟩

/-- an ancestor or member of both sets -/
def Common (G : RankedGraph ν) (as bs : List ν) (h : ν) : Prop := (∃ a ∈ as, G.Below h a) ∧ ∃ b ∈ bs, G.Below h b

/-- a common ancestor that is not properly below another -/
def Nearest (G : RankedGraph ν) (as bs : List ν) (h : ν) : Prop :=
  G.Common as bs h ∧ ∀ c, G.Common as bs c → G.Below h c → h = c

theorem nearest_comm {h : ν} : G.Nearest as bs h ↔ G.Nearest bs as h := by
  simp only [Nearest, Common, and_comm]

theorem Common.exists_nearest {h : ν} (hc : G.Common as bs h) : ∃ m, G.Nearest as bs m ∧ G.Below h m := by
  have hbound : ∀ c, G.Common as bs c → G.rank c ≤ (as.map G.rank).sum := by
    intro c hc
    obtain ⟨a, ha, hca⟩ := hc.1
    exact hca.rank_le.trans (le_sum_of_mem (mem_map_of_mem ha))
  -- up from `h` as long as there is a common ancestor above; the ranks of common ancestors are bounded
  induction hn : (as.map G.rank).sum - G.rank h using Nat.strong_induction_on generalizing h with
  | _ n ih =>
    by_cases hnear : G.Nearest as bs h
    · exact ⟨h, hnear, .refl⟩
    · obtain ⟨c, hcc, hbc, hne⟩ : ∃ c, G.Common as bs c ∧ G.Below h c ∧ h ≠ c := by
        by_contra hno
        refine hnear ⟨hc, fun c hcc hbc => ?_⟩
        by_contra hne
        exact hno ⟨c, hcc, hbc, hne⟩
      have hlt := hbc.eq_or_rank_lt.resolve_left hne
      have hle := hbound c hcc
      obtain ⟨m, hm, hcm⟩ := ih _ (by omega) hcc rfl
      exact ⟨m, hm, hbc.trans hcm⟩

/-- **Trimming.** Between the nearest common ancestors and all of them, the members below no other member are the nearest. -/
theorem nearest_iff_of_between {cands : List ν} (hsub : ∀ h ∈ cands, G.Common as bs h)
    (hsup : ∀ h, G.Nearest as bs h → h ∈ cands) {h : ν} :
    G.Nearest as bs h ↔ h ∈ cands ∧ ∀ c ∈ cands, G.Below h c → h = c := by
  constructor
  · intro hn
    exact ⟨hsup h hn, fun c hc hb => hn.2 c (hsub c hc) hb⟩
  · intro ⟨hh, hmax⟩
    obtain ⟨m, hm, hb⟩ := (hsub h hh).exists_nearest
    obtain rfl := hmax m (hsup m hm) hb
    exact hm

/-- from one side down to a highest common ancestor, only edges out of that side's own nodes are taken -/
theorem eq_of_quiet_side {m : ν} (hq : ∀ x, G.Below x a → ¬ G.Below x b → ∀ p ∈ G.parents x, f x = f p)
    (hm : ∀ c, G.Below c a → G.Below c b → G.rank c ≤ G.rank m) (hma : G.Below m a) : f a = f m := by
  have key : ∀ {x}, G.Below m x → G.Below x a → f x = f m := by
    intro x h
    induction h with
    | refl => exact fun _ => rfl
    | step hp h ih =>
      rename_i x p
      intro hxa
      have hlt : G.rank m < G.rank x := (h.rank_le).trans_lt (G.rank_lt x p hp)
      have hxb : ¬ G.Below x b := fun hxb => absurd (hm x hxa hxb) (by omega)
      rw [hq x hxa hxb p hp]
      exact ih ((Below.parent hp).trans hxa)
  exact key hma .refl

/-- **Quiet sides agree.** -/
theorem eq_of_quiet (h : ∃ c, G.Below c a ∧ G.Below c b)
    (ha : ∀ x, G.Below x a → ¬ G.Below x b → ∀ p ∈ G.parents x, f x = f p)
    (hb : ∀ x, G.Below x b → ¬ G.Below x a → ∀ p ∈ G.parents x, f x = f p) : f a = f b := by
  obtain ⟨m, hma, hmb, hm⟩ := exists_highest_common h
  calc f a = f m := eq_of_quiet_side ha hm hma
    _ = f b := (eq_of_quiet_side hb (fun c hcb hca => hm c hca hcb) hmb).symm

end RankedGraph

end Kdb
