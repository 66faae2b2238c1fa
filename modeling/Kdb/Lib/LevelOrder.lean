/-
Items registered in a list, each on a level, searched lowest level first and latest first within a level.
- `searchOrder`: that order, as a sort of the positions.
- `searchOrder_unique`: it is the one list that is sorted by level and holds each level's items in reverse.
- `searchOrder_concat`: an item registered last, on no higher a level than any other, is searched first.
- `searchOrder_flatMap`: items replaced in their slots, each by items of its own level, are searched where they were.
- `searchOrder_filter`, `searchOrder_append_of_lt`: some of the items, and items put in front on a higher level.
- `pairwise_searchOrder_of`: a relation along the search, from its two causes.
-/
import Mathlib

namespace Kdb.LevelOrder

open List

variable {α ι : Type*} [LinearOrder ι] (level : α → ι)

/-- the order of positions: level ascending, position descending -/
def Before (a b : α × ℕ) : Prop := level a.1 < level b.1 ∨ level a.1 = level b.1 ∧ b.2 ≤ a.2

instance : DecidableRel (Before level) := fun _ _ => inferInstanceAs (Decidable (_ ∨ _ ∧ _))

/-- lowest level first, latest first within a level -/
def searchOrder (l : List α) : List α := (l.zipIdx.insertionSort (Before level)).map Prod.fst

variable {level}

theorem before_iff {a b : α × ℕ} :
    Before level a b ↔ toLex (level a.1, OrderDual.toDual a.2) ≤ toLex (level b.1, OrderDual.toDual b.2) := by
  rw [Prod.Lex.toLex_le_toLex]
  exact Iff.rfl

instance : Std.Total (Before level) := ⟨fun _ _ => by simpa only [before_iff] using le_total _ _⟩

instance : IsTrans (α × ℕ) (Before level) := ⟨fun _ _ _ => by simpa only [before_iff] using le_trans⟩

variable (level) in
theorem pairwise_sorted (l : List α) : (l.zipIdx.insertionSort (Before level)).Pairwise (Before level) :=
  pairwise_insertionSort _ _

theorem searchOrder_perm (l : List α) : (searchOrder level l).Perm l := by
  have h := (perm_insertionSort (Before level) l.zipIdx).map Prod.fst
  rwa [zipIdx_map_fst] at h

variable {l l' : List α}

theorem mem_searchOrder {a : α} : a ∈ searchOrder level l ↔ a ∈ l := (searchOrder_perm l).mem_iff

theorem pairwise_searchOrder (l : List α) : (searchOrder level l).Pairwise fun a b => level a ≤ level b := by
  refine pairwise_map.2 ((pairwise_sorted level l).imp ?_)
  intro a b h
  rcases h with h | h
  · exact h.le
  · exact h.1.le

theorem zipIdx_pairwise (l : List α) : l.zipIdx.Pairwise fun a b => a.2 < b.2 := by
  have h : (l.zipIdx.map Prod.snd).Pairwise (· < ·) := by
    rw [zipIdx_map_snd]
    exact pairwise_lt_range'
  exact pairwise_map.1 h

theorem filter_searchOrder (l : List α) (i : ι) :
    (searchOrder level l).filter (level · = i) = (l.filter (level · = i)).reverse := by
  let onLevel : α × ℕ → Bool := fun x => decide (level x.1 = i)
  have hsame : (l.zipIdx.insertionSort (Before level)).filter onLevel = (l.zipIdx.filter onLevel).reverse := by
    have hanti : ∀ a b : α × ℕ, a ∈ (l.zipIdx.insertionSort (Before level)).filter onLevel →
        b ∈ (l.zipIdx.filter onLevel).reverse → b.2 ≤ a.2 → a.2 ≤ b.2 → a = b := by
      intro a b ha hb hab hba
      have ha' := (perm_insertionSort (Before level) l.zipIdx).mem_iff.1 (mem_of_mem_filter ha)
      have hb' := mem_of_mem_filter (mem_reverse.1 hb)
      have hpos : a.2 = b.2 := le_antisymm hba hab
      obtain ⟨x, n⟩ := a
      obtain ⟨y, m⟩ := b
      obtain rfl : n = m := hpos
      have hx := mem_zipIdx' ha'
      have hy := mem_zipIdx' hb'
      rw [hx.2, hy.2]
    apply Perm.eq_of_pairwise hanti
    · refine ((pairwise_sorted level l).filter onLevel).imp_of_mem ?_
      intro a b ha hb h
      have hla : level a.1 = i := of_decide_eq_true (mem_filter.1 ha).2
      have hlb : level b.1 = i := of_decide_eq_true (mem_filter.1 hb).2
      rcases h with h | h
      · exact absurd h (by rw [hla, hlb]; exact lt_irrefl i)
      · exact h.2
    · rw [pairwise_reverse]
      exact ((zipIdx_pairwise l).filter onLevel).imp fun h => h.le
    · exact ((perm_insertionSort _ _).filter _).trans (reverse_perm _).symm
  have hleft : (searchOrder level l).filter (level · = i) =
      ((l.zipIdx.insertionSort (Before level)).filter onLevel).map Prod.fst := by
    rw [searchOrder, filter_map]
    rfl
  have hright : (l.zipIdx.filter onLevel).map Prod.fst = l.filter (level · = i) := by
    conv_rhs => rw [← zipIdx_map_fst 0 l, filter_map]
    rfl
  rw [hleft, hsame, map_reverse, hright]

theorem eq_of_levels (hl : l.Pairwise fun a b => level a ≤ level b) (hl' : l'.Pairwise fun a b => level a ≤ level b)
    (h : ∀ i, l.filter (level · = i) = l'.filter (level · = i)) : l = l' := by
  induction l generalizing l' with
  | nil =>
    cases l' with
    | nil => rfl
    | cons b l' =>
      have := h (level b)
      simp at this
  | cons a l ih =>
    cases l' with
    | nil =>
      have := h (level a)
      simp at this
    | cons b l' =>
      have hmem : ∀ x, x ∈ a :: l ↔ x ∈ b :: l' := by
        intro x
        have hx := congrArg (x ∈ ·) (h (level x))
        simpa only [mem_filter, decide_true, and_true, eq_iff_iff] using hx
      -- both heads are on the lowest level there is
      have hlevel : level a = level b := by
        apply le_antisymm
        · rcases mem_cons.1 ((hmem b).2 mem_cons_self) with rfl | hb
          · exact le_rfl
          · exact (pairwise_cons.1 hl).1 b hb
        · rcases mem_cons.1 ((hmem a).1 mem_cons_self) with rfl | ha
          · exact le_rfl
          · exact (pairwise_cons.1 hl').1 a ha
      have hhead := h (level a)
      rw [filter_cons_of_pos (by simp), filter_cons_of_pos (by simp [hlevel])] at hhead
      obtain ⟨rfl, -⟩ := cons.inj hhead
      rw [ih (pairwise_cons.1 hl).2 (pairwise_cons.1 hl').2 fun i => ?_]
      have hi := h i
      by_cases hai : level a = i
      · rw [filter_cons_of_pos (by simpa using hai), filter_cons_of_pos (by simpa using hai)] at hi
        exact (cons.inj hi).2
      · rwa [filter_cons_of_neg (by simpa using hai), filter_cons_of_neg (by simpa using hai)] at hi

/-- **The search order is determined** by being sorted by level and holding each level's items in reverse. -/
theorem searchOrder_unique (hs : l'.Pairwise fun a b => level a ≤ level b)
    (hf : ∀ i, l'.filter (level · = i) = (l.filter (level · = i)).reverse) : searchOrder level l = l' :=
  eq_of_levels (pairwise_searchOrder l) hs fun i => (filter_searchOrder l i).trans (hf i).symm

/-- **Registered last and no higher.** -/
theorem searchOrder_concat {a : α} (h : ∀ b ∈ l, level a ≤ level b) :
    searchOrder level (l ++ [a]) = a :: searchOrder level l := by
  apply searchOrder_unique
  · exact pairwise_cons.2 ⟨fun b hb => h b (mem_searchOrder.1 hb), pairwise_searchOrder l⟩
  · intro i
    rw [filter_append, reverse_append, ← filter_searchOrder l i]
    by_cases ha : level a = i
    · rw [filter_cons_of_pos (by simpa using ha), filter_cons_of_pos (by simpa using ha)]
      rfl
    · rw [filter_cons_of_neg (by simpa using ha), filter_cons_of_neg (by simpa using ha)]
      rfl

/-- **Replaced in place.** -/
theorem searchOrder_flatMap {f : α → List α} (hf : ∀ a ∈ l, ∀ b ∈ f a, level b = level a) :
    searchOrder level (l.flatMap f) = (searchOrder level l).flatMap fun a => (f a).reverse := by
  have hlevel : ∀ a ∈ l, ∀ i, (f a).filter (level · = i) = if level a = i then f a else [] := by
    intro a ha i
    split_ifs with h
    · exact filter_eq_self.2 fun b hb => by simpa using (hf a ha b hb).trans h
    · exact filter_eq_nil_iff.2 fun b hb => by simpa [hf a ha b hb] using h
  apply searchOrder_unique
  · rw [pairwise_flatMap]
    refine ⟨fun a ha => ?_, (pairwise_searchOrder l).imp_of_mem fun {a b} ha hb hab x hx y hy => ?_⟩
    · refine pairwise_of_forall_mem_list fun x hx y hy => ?_
      rw [hf a (mem_searchOrder.1 ha) x (mem_reverse.1 hx), hf a (mem_searchOrder.1 ha) y (mem_reverse.1 hy)]
    · rw [hf a (mem_searchOrder.1 ha) x (mem_reverse.1 hx), hf b (mem_searchOrder.1 hb) y (mem_reverse.1 hy)]
      exact hab
  · intro i
    have hsplit : ∀ m : List α, (∀ a ∈ m, a ∈ l) → (m.flatMap f).filter (level · = i) =
        (m.filter (level · = i)).flatMap f := by
      intro m hm
      induction m with
      | nil => rfl
      | cons a m ih =>
        have ih := ih fun b hb => hm b (.tail _ hb)
        rw [flatMap_cons, filter_append, hlevel a (hm a mem_cons_self) i, ih]
        by_cases ha : level a = i
        · rw [if_pos ha, filter_cons_of_pos (by simpa using ha), flatMap_cons]
        · rw [if_neg ha, filter_cons_of_neg (by simpa using ha), nil_append]
    have hrev : ((searchOrder level l).flatMap fun a => (f a).reverse) = ((searchOrder level l).reverse.flatMap f).reverse := by
      rw [reverse_flatMap, reverse_reverse]
      rfl
    rw [hrev, filter_reverse, hsplit _ fun a ha => mem_searchOrder.1 (mem_reverse.1 ha), hsplit l fun a ha => ha,
      filter_reverse, filter_searchOrder, reverse_reverse]

theorem searchOrder_filter (l : List α) (p : α → Bool) :
    searchOrder level (l.filter p) = (searchOrder level l).filter p := by
  apply searchOrder_unique
  · exact (pairwise_searchOrder l).filter p
  · intro i
    rw [filter_comm, filter_searchOrder, filter_reverse, filter_comm]

theorem searchOrder_append_of_lt {i : ι} (hl : ∀ a ∈ l, level a = i) (hl' : ∀ a ∈ l', level a < i) :
    searchOrder level (l ++ l') = searchOrder level l' ++ l.reverse := by
  apply searchOrder_unique
  · refine pairwise_append.2 ⟨pairwise_searchOrder l', ?_, ?_⟩
    · refine pairwise_reverse.2 (pairwise_of_forall_mem_list fun a ha b hb => ?_)
      rw [hl a ha, hl b hb]
    · intro a ha b hb
      rw [hl b (mem_reverse.1 hb)]
      exact (hl' a (mem_searchOrder.1 ha)).le
  · intro j
    rw [filter_append, filter_append, reverse_append, filter_searchOrder, filter_reverse]

/-- a relation that lower levels have to higher ones, and later items of a level to earlier ones, holds along the search -/
theorem pairwise_searchOrder_of {R : α → α → Prop} (hlt : ∀ a ∈ l, ∀ b ∈ l, level a < level b → R a b)
    (heq : l.Pairwise fun a b => level a = level b → R b a) : (searchOrder level l).Pairwise R := by
  have hperm := perm_insertionSort (Before level) l.zipIdx
  have hnodup : (l.zipIdx.insertionSort (Before level)).Nodup :=
    hperm.nodup_iff.2 ((zipIdx_pairwise l).imp fun h he => h.ne (congrArg Prod.snd he))
  refine pairwise_map.2 (((pairwise_sorted level l).and hnodup).imp_of_mem ?_)
  intro x y hx hy h
  obtain ⟨a, i⟩ := x
  obtain ⟨b, j⟩ := y
  have ha := mem_zipIdx' (hperm.mem_iff.1 hx)
  have hb := mem_zipIdx' (hperm.mem_iff.1 hy)
  rcases h.1 with hl | ⟨hl, hji⟩
  · exact hlt a (ha.2 ▸ getElem_mem _) b (hb.2 ▸ getElem_mem _) hl
  · -- on one level the later item is searched first
    have hne : j ≠ i := by
      rintro rfl
      exact h.2 (by rw [ha.2, hb.2])
    have hpair := pairwise_iff_getElem.1 heq j i hb.1 ha.1 (lt_of_le_of_ne hji hne)
    rw [ha.2, hb.2] at hl ⊢
    exact hpair hl.symm

end Kdb.LevelOrder
