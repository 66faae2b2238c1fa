/-
The walks of `Engine.Merge` (`dag/ancestry.go` CommonAncestor and CommitsSince, `transaction/default_engine.go`
topoSort), in general and on a branch that is a line above a commit of the primary's history.

- `mem_ancestorClosure`: the closure walk finds exactly the ancestors.
- `commonAncestor_of_line`: walking down the line, the first commit in the primary's history is the one it stands on.
- `commonAncestor_nearest`: it finds a common ancestor whenever there is one; `commonAncestor_not_nearest`: not always
  the nearest.
- `topoSort_of_line`: the commits of the line come out oldest first, whatever order they are given in.
-/
import Kdb.Dag.CommitDag
import Kdb.Lib.Worklist

namespace Kdb.Dag

open List

/-! ## The ancestor closure -/

/-- the parent edges of commits not yet expanded -/
def openEdges (d : Dag) (acc : List Hash) : ℕ :=
  ∑ h ∈ (Finset.range d.commits.length).filter (· ∉ acc), (d.parents h).length

variable {d : Dag} {h c b : Hash} {acc bs : List Hash} {fuel : ℕ}

theorem parents_of_le (hh : d.commits.length ≤ h) : d.parents h = [] := by
  simp [parents, get, List.getElem?_eq_none hh]

theorem parents_length_sum (d : Dag) :
    ∑ h ∈ Finset.range d.commits.length, (d.parents h).length = (d.commits.map fun c => c.parents.length).sum := by
  rw [Finset.sum_range fun h => (d.parents h).length, ← sum_ofFn]
  congr 1
  apply ext_getElem
  · simp
  · simp [parents, get]

theorem openEdges_visit {acc' : List Hash} (hh : h ∉ acc) (hacc : ∀ x, x ∈ acc' ↔ x = h ∨ x ∈ acc) :
    d.openEdges acc' + (d.parents h).length = d.openEdges acc := by
  have hset : (Finset.range d.commits.length).filter (· ∉ acc') =
      ((Finset.range d.commits.length).filter (· ∉ acc)).erase h := by
    ext x
    simp only [Finset.mem_filter, Finset.mem_erase, hacc]
    tauto
  rw [openEdges, hset]
  by_cases hlt : h < d.commits.length
  · exact Finset.sum_erase_add _ _ (by simp [hlt, hh])
  · rw [parents_of_le (not_lt.1 hlt), Finset.erase_eq_of_notMem (by simp [hlt])]
    rfl

theorem openEdges_nil (d : Dag) : d.openEdges [] = (d.commits.map fun c => c.parents.length).sum := by
  rw [← parents_length_sum, openEdges]
  simp

/-- with a turn for every open edge the closure walk visits everything, and `CommonAncestor` finds what it meets first -/
theorem searched_closureFrom (setA : List Hash) {queue seen : List Hash} (hsame : ∀ x, x ∈ seen ↔ x ∈ acc)
    (hfuel : queue.length + d.openEdges acc < fuel) : ∃ out, Searched d.parents acc queue out ∧
    d.closureFrom fuel queue acc = acc ++ out ∧ d.commonAncestorFrom setA fuel queue seen = out.find? (· ∈ setA) := by
  induction fuel generalizing queue acc seen with
  | zero => omega
  | succ n ih =>
    cases queue with
    | nil => exact ⟨[], .done _ _, by simp [closureFrom], rfl⟩
    | cons h queue =>
      rw [length_cons] at hfuel
      by_cases hh : h ∈ acc
      · obtain ⟨out, hs, hc, hf⟩ := @ih acc queue seen hsame (by omega)
        refine ⟨out, hs.skip hh (by simp), ?_, ?_⟩
        · simp [closureFrom, hh, hc]
        · simp [commonAncestorFrom, hsame, hh, hf]
      · have hacc : ∀ x, x ∈ acc ++ [h] ↔ x = h ∨ x ∈ acc := by simp [or_comm]
        have hedges := openEdges_visit (d := d) hh hacc
        obtain ⟨out, hs, hc, hf⟩ := @ih (acc ++ [h]) (queue ++ d.parents h) (h :: seen) (by simp [hsame, or_comm])
          (by rw [length_append]; omega)
        refine ⟨h :: out, hs.visit hh (fun _ => mem_cons) hacc fun _ => mem_append, ?_, ?_⟩
        · simp [closureFrom, hh, hc]
        · by_cases hA : h ∈ setA <;> simp [commonAncestorFrom, hsame, hh, hA, hf]

theorem searched_ancestorClosure (a b : Hash) : Searched d.parents [] [b] (d.ancestorClosure b) ∧
    d.commonAncestor a b = (d.ancestorClosure b).find? (· ∈ d.ancestorClosure a) := by
  obtain ⟨out, hs, hc, hf⟩ := @searched_closureFrom d [] d.walkFuel (d.ancestorClosure a) [b] [] (fun _ => .rfl)
    (by rw [openEdges_nil, walkFuel, length_singleton]; omega)
  have hout : d.ancestorClosure b = out := hc
  exact ⟨hout ▸ hs, hout ▸ hf⟩

theorem ancestor_parent {a p : Hash} (hp : p ∈ d.parents h) (ha : d.Ancestor a p) : d.Ancestor a h := by
  unfold parents at hp
  cases hg : d.get h with
  | none => simp [hg] at hp
  | some c => exact .parent hg (by simpa [hg] using hp) ha

theorem mem_ancestor {a start : Hash} {out : List Hash} (hs : Searched d.parents [] [start] out) :
    a ∈ out ↔ d.Ancestor a start := by
  constructor
  · exact hs.all (P := (d.Ancestor · start)) (forall_mem_singleton.2 .refl)
      (fun _ hv _ hp => (ancestor_parent hp .refl).trans hv) a
  · intro ha
    exact ha.mem_of_closed (fun v hv p hp => (hs.closed v hv p hp).resolve_left nofun)
      ((hs.queued start mem_cons_self).resolve_left nofun)

/-- **The closure walk finds exactly the ancestors.** -/
theorem mem_ancestorClosure {a start : Hash} : a ∈ d.ancestorClosure start ↔ d.Ancestor a start :=
  mem_ancestor (searched_ancestorClosure start start).1

instance (d : Dag) (a h : Hash) : Decidable (d.Ancestor a h) := decidable_of_iff _ mem_ancestorClosure

theorem nodup_ancestorClosure (d : Dag) (start : Hash) : (d.ancestorClosure start).Nodup :=
  (searched_ancestorClosure start start).1.nodup

/-- a common ancestor found is the second commit or a parent of a commit of its history outside the first one's -/
theorem commonAncestor_found {a x : Hash} (hx : d.commonAncestor a b = some x) : d.Ancestor x a ∧ d.Ancestor x b ∧
    (x = b ∨ ∃ v, d.Ancestor v b ∧ ¬ d.Ancestor v a ∧ x ∈ d.parents v) := by
  obtain ⟨hs, hf⟩ := searched_ancestorClosure (d := d) a b
  obtain ⟨hA, l, r, heq, hl⟩ := List.find?_eq_some_iff_append.1 (hf ▸ hx)
  have hmem : ∀ v ∈ l ++ [x], d.Ancestor v b := fun v hv => mem_ancestorClosure.1 (by rw [heq]; simp at hv ⊢; tauto)
  refine ⟨mem_ancestorClosure.1 (of_decide_eq_true hA), hmem x (by simp), ?_⟩
  rcases hs.reached l x r heq with hx | ⟨v, hv, hp⟩
  · exact .inl (mem_singleton.1 hx)
  · exact .inr ⟨v, hmem v (by simp [hv]), by simpa [mem_ancestorClosure] using hl v hv, hp⟩

theorem commonAncestor_eq_none {a : Hash} : d.commonAncestor a b = none ↔ ∀ x, ¬ (d.Ancestor x a ∧ d.Ancestor x b) := by
  simp only [(searched_ancestorClosure a b).2, List.find?_eq_none, decide_eq_true_eq, mem_ancestorClosure]
  exact forall_congr' fun x => ⟨fun h hx => h hx.2 hx.1, fun h hb ha => h ⟨ha, hb⟩⟩

/-! ## Lines -/

/-- `bs` stands on `c` in a line: each commit's one parent is the one before it -/
def Line (d : Dag) : Hash → List Hash → Prop
  | _, [] => True
  | c, b :: bs => d.parents b = [c] ∧ d.Line b bs

instance (d : Dag) : ∀ (bs : List Hash) (c : Hash), Decidable (d.Line c bs)
  | [], _ => .isTrue trivial
  | b :: bs, c => by
    unfold Line
    have := instDecidableLine d bs b
    infer_instance

/-- the last commit of a line -/
def tip (c : Hash) (bs : List Hash) : Hash := bs.getLastD c

theorem Line.ancestor_iff (hl : d.Line c bs) (a : Hash) : d.Ancestor a (tip c bs) ↔ a ∈ bs ∨ d.Ancestor a c := by
  induction bs generalizing c with
  | nil => simp [tip]
  | cons b bs ih =>
    have hb : d.Ancestor a b ↔ a = b ∨ d.Ancestor a c := by
      constructor
      · intro ha
        cases ha with
        | refl => exact .inl rfl
        | parent hg hp hpa =>
          have hpar : _ = [c] := (by simpa [parents, hg] using hl.1)
          rw [hpar] at hp
          obtain rfl := mem_singleton.1 hp
          exact .inr hpa
      · rintro (rfl | ha)
        · exact .refl
        · exact ancestor_parent (by rw [hl.1]; simp) ha
    have htip : tip c (b :: bs) = tip b bs := by cases bs <;> rfl
    rw [htip, ih hl.2, mem_cons]
    tauto

/-- parents are stored before their children -/
def Ordered (d : Dag) : Prop := ∀ h, ∀ p ∈ d.parents h, p < h

instance (d : Dag) : Decidable d.Ordered := by
  refine decidable_of_iff (∀ h < d.commits.length, ∀ p ∈ d.parents h, p < h) ⟨fun hd h p hp => ?_, fun hd h _ => hd h⟩
  by_cases hlt : h < d.commits.length
  · exact hd h hlt p hp
  · rw [parents_of_le (not_lt.1 hlt)] at hp
    cases hp

theorem Line.pairwise (hd : d.Ordered) (hl : d.Line c bs) : (c :: bs).Pairwise (· < ·) := by
  induction bs generalizing c with
  | nil => simp
  | cons b bs ih =>
    have hrest := ih hl.2
    have hcb : c < b := hd b c (by rw [hl.1]; simp)
    refine pairwise_cons.2 ⟨?_, hrest⟩
    exact forall_mem_cons.2 ⟨hcb, fun x hx => hcb.trans ((pairwise_cons.1 hrest).1 x hx)⟩

theorem Line.nodup (hd : d.Ordered) (hl : d.Line c bs) : (c :: bs).Nodup :=
  (hl.pairwise hd).imp fun h => h.ne

theorem Line.mem_parents (hl : d.Line c bs) (hb : b ∈ bs) : ∃ a ∈ c :: bs, d.parents b = [a] := by
  induction bs generalizing c with
  | nil => cases hb
  | cons x bs ih =>
    rcases mem_cons.1 hb with rfl | hb
    · exact ⟨c, by simp, hl.1⟩
    · obtain ⟨a, ha, hp⟩ := ih hl.2 hb
      exact ⟨a, .tail _ ha, hp⟩

/-- **The ancestor found.** A line that leaves the primary's history at `c` has `c` as the common ancestor. -/
theorem commonAncestor_of_line {p : Hash} (hl : d.Line c bs) (hc : d.Ancestor c p) (hb : ∀ b ∈ bs, ¬ d.Ancestor b p) :
    d.commonAncestor p (tip c bs) = some c := by
  cases hx : d.commonAncestor p (tip c bs) with
  | none => exact absurd ⟨hc, (hl.ancestor_iff c).2 (.inr .refl)⟩ (commonAncestor_eq_none.1 hx c)
  | some x =>
    obtain ⟨hxp, -, hxt | ⟨v, hv, hvp, hxv⟩⟩ := commonAncestor_found hx
    · rcases eq_nil_or_concat bs with rfl | ⟨l, b, rfl⟩
      · exact congrArg some hxt
      · exact absurd hxp (hb x (by simp [hxt, tip]))
    · rcases (hl.ancestor_iff v).1 hv with hv | hv
      · obtain ⟨a, ha, hpar⟩ := hl.mem_parents hv
        obtain rfl : x = a := by simpa [hpar] using hxv
        rcases mem_cons.1 ha with rfl | ha
        · rfl
        · exact absurd hxp (hb x ha)
      · exact absurd (hv.trans hc) hvp

/-! ## Nearest common ancestors -/

theorem Ancestor.le (hd : d.Ordered) {a : Hash} (ha : d.Ancestor a h) : a ≤ h := by
  induction ha with
  | refl => exact le_rfl
  | parent hg hp _ ih => exact ih.trans (hd _ _ (by simpa [parents, hg] using hp)).le

variable {hexLe : Hash → Hash → Bool}

theorem sortHex_perm (hs : List Hash) : (sortHex hexLe hs).Perm hs := perm_insertionSort _ hs

theorem commitsSince_of_line (hexLe : Hash → Hash → Bool) (hl : d.Line c bs) (hb : ∀ b ∈ bs, ¬ d.Ancestor b c) :
    (d.commitsSince hexLe (tip c bs) c).Nodup ∧ ∀ x, x ∈ d.commitsSince hexLe (tip c bs) c ↔ x ∈ bs := by
  constructor
  · exact ((sortHex_perm _).nodup_iff).2 ((d.nodup_ancestorClosure _).filter _)
  · intro x
    rw [commitsSince, (sortHex_perm _).mem_iff, mem_filter, mem_ancestorClosure, decide_eq_true_iff,
      mem_ancestorClosure, hl.ancestor_iff]
    constructor
    · rintro ⟨h | h, hn⟩
      · exact h
      · exact absurd h hn
    · exact fun h => ⟨.inl h, hb x h⟩

theorem flatMap_single {α : Type*} [DecidableEq α] {l : List α} (hl : l.Nodup) {f : α → List α} {k : α} (hk : k ∈ l)
    (hf : f k = [k]) (hne : ∀ x ∈ l, x ≠ k → f x = []) : l.flatMap f = [k] := by
  induction l with
  | nil => cases hk
  | cons x l ih =>
    obtain ⟨hx, hl'⟩ := nodup_cons.1 hl
    rw [flatMap_cons]
    by_cases hxk : x = k
    · subst hxk
      have hrest : l.flatMap f = [] := by
        rw [flatMap_eq_nil_iff]
        exact fun y hy => hne y (.tail _ hy) fun he => hx (he ▸ hy)
      rw [hf, hrest]
      rfl
    · rw [hne x (.head _) hxk]
      exact ih hl' (by simpa [Ne.symm hxk] using hk) fun y hy => hne y (.tail _ hy)

theorem sortHex_singleton (h : Hash) : sortHex hexLe [h] = [h] := rfl

/-- the loop of the sort, down a line of which `b` is the next commit -/
theorem topoLoop_line {set : List Hash} (hset : set.Nodup) (rest : List Hash) {indegree : Hash → ℕ} {out : List Hash}
    (hfuel : rest.length < fuel) (hl : d.Line b rest) (hmem : ∀ x ∈ rest, x ∈ set)
    (honly : ∀ x ∈ set, ∀ y ∈ b :: rest, d.parents x = [y] → x ∈ rest) (hone : ∀ x ∈ set, ∃ y, d.parents x = [y])
    (hnodup : (b :: rest).Nodup) (hdeg : ∀ x ∈ rest, indegree x = 1) :
    d.topoLoop hexLe set fuel [b] indegree out = out ++ b :: rest := by
  induction rest generalizing b fuel indegree out with
  | nil =>
    obtain ⟨n, rfl⟩ : ∃ n, fuel = n + 1 := ⟨fuel - 1, by simp at hfuel; omega⟩
    have hkids : d.childrenIn set b = [] := by
      rw [childrenIn, flatMap_eq_nil_iff]
      intro x hx
      obtain ⟨y, hy⟩ := hone x hx
      have hyb : y ≠ b := fun he => by simpa using honly x hx b (by simp) (he ▸ hy)
      simp [hy, hyb]
    cases n with
    | zero => simp [topoLoop]
    | succ n => simp [topoLoop, hkids, sortHex, release]
  | cons x rest ih =>
    rw [length_cons] at hfuel
    obtain ⟨n, rfl⟩ : ∃ n, fuel = n + 1 := ⟨fuel - 1, by omega⟩
    obtain ⟨hb, hnd⟩ := nodup_cons.1 hnodup
    have hkids : d.childrenIn set b = [x] := by
      apply flatMap_single hset (hmem x (by simp))
      · simp [hl.1]
      · intro y hy hyx
        obtain ⟨z, hz⟩ := hone y hy
        have hzb : z ≠ b := by
          rintro rfl
          -- another child of `b` in the set would be on the line twice
          have hyr := honly y hy z (by simp) hz
          rcases mem_cons.1 hyr with rfl | hyr
          · exact hyx rfl
          · obtain ⟨w, hw, hwp⟩ := hl.2.mem_parents hyr
            obtain rfl : w = z := by simpa [hwp] using hz
            exact hb hw
        simp [hz, hzb]
    have hx1 : indegree x = 1 := hdeg x (by simp)
    have hstep : release (sortHex hexLe (d.childrenIn set b)) indegree [] = (Function.update indegree x 0, [x]) := by
      rw [hkids, sortHex_singleton]
      simp [release, hx1]
    simp only [topoLoop, hstep]
    rw [ih (by omega) hl.2 (fun y hy => hmem y (.tail _ hy)) _ hnd _]
    · simp
    · intro y hy z hz hyz
      rcases mem_cons.1 (honly y hy z (.tail _ hz) hyz) with rfl | hyr
      · -- its parent is `b`, which is not further up the line
        have : b = z := by simpa [hl.1] using hyz
        exact absurd (this ▸ hz) hb
      · exact hyr
    · intro y hy
      have hyx : y ≠ x := fun he => (nodup_cons.1 hnd).1 (he ▸ hy)
      rw [Function.update_of_ne hyx]
      exact hdeg y (.tail _ hy)

/-- **The order of a line.** Its commits, given in any order, are sorted oldest first. -/
theorem topoSort_of_line (hd : d.Ordered) {hs : List Hash} (hl : d.Line c bs) (hne : bs ≠ []) (hnodup : hs.Nodup)
    (hmem : ∀ x, x ∈ hs ↔ x ∈ bs) : d.topoSort hexLe hs = bs := by
  have hone : ∀ x ∈ bs, ∃ y ∈ c :: bs, d.parents x = [y] := fun x hx => hl.mem_parents hx
  have hset : (hs.filter fun h => (d.get h).isSome) = hs := by
    rw [filter_eq_self]
    intro x hx
    obtain ⟨y, -, hy⟩ := hone x ((hmem x).1 hx)
    cases hg : d.get x with
    | none => simp [parents, hg] at hy
    | some _ => rfl
  obtain ⟨b, rest, rfl⟩ := exists_cons_of_ne_nil hne
  have hnd := hl.nodup hd
  obtain ⟨hc, hnd'⟩ := nodup_cons.1 hnd
  have hcs : c ∉ hs := fun h => hc ((hmem c).1 h)
  have hlen : hs.length = (b :: rest).length :=
    ((perm_ext_iff_of_nodup hnodup hnd').2 hmem).length_eq
  have hdegrest : ∀ x ∈ rest, ((d.parents x).filter (· ∈ hs)).length = 1 := by
    intro x hx
    obtain ⟨y, hy, hp⟩ := hl.2.mem_parents hx
    simp [hp, (hmem y).2 hy]
  have hready : (hs.filter fun h => ((d.parents h).filter (· ∈ hs)).length = 0) = [b] := by
    apply perm_singleton.1
    apply (perm_ext_iff_of_nodup (hnodup.filter _) (nodup_singleton b)).2
    intro x
    simp only [mem_filter, mem_singleton]
    constructor
    · rintro ⟨hx, hzero⟩
      rcases mem_cons.1 ((hmem x).1 hx) with rfl | hxr
      · rfl
      · rw [hdegrest x hxr] at hzero
        cases hzero
    · intro hx
      subst hx
      exact ⟨(hmem x).2 (by simp), by simp [hl.1, hcs]⟩
  unfold topoSort
  simp only [hset, hready, sortHex_singleton]
  rw [topoLoop_line hnodup rest (by rw [hlen]; simp) hl.2 (fun x hx => (hmem x).2 (.tail _ hx)) _
    (fun x hx => (hone x ((hmem x).1 hx)).imp fun y hy => hy.2) hnd' hdegrest]
  · simp [hlen]
  · intro x hx y hy hxy
    rcases mem_cons.1 ((hmem x).1 hx) with rfl | hxr
    · have : c = y := by simpa [hl.1] using hxy
      exact absurd (this ▸ hy) hc
    · exact hxr

end Kdb.Dag
