/-
Entry lists with distinct keys, and the merge of several into one.
- `lookup_eq_some_iff`, `lookup_of_perm`: the order of the entries does not matter to a lookup.
- `mergeLoop`: sources in key order are read side by side; the smallest key left is taken from every source that has it,
  and the last of these decides.
- `lookup_mergeLoop`: the merge holds under each key what the last source with that key holds (`latest`).
-/
import Mathlib

namespace Kdb.Entries

open List Option

variable {κ ν : Type*}

/-! ## Lookups -/

variable (cs : List (List (κ × ν)))

section Lookup

variable [BEq κ]

theorem findSome?_lookup (ts : List (List (κ × ν))) (k : κ) : ts.findSome? (·.lookup k) = ts.flatten.lookup k := by
  induction ts with
  | nil => rfl
  | cons t ts ih =>
    rw [flatten_cons, lookup_append, ← ih, List.findSome?_cons]
    cases t.lookup k <;> rfl

/-- what the last source with the key holds under it -/
def latest (k : κ) : Option ν := cs.reverse.findSome? (·.lookup k)

theorem latest_cons (c : List (κ × ν)) (cs : List (List (κ × ν))) (k : κ) :
    latest (c :: cs) k = (latest cs k).or (c.lookup k) := by
  simp [latest]

variable [LawfulBEq κ] {k : κ} {l : List (κ × ν)}

theorem lookup_cons_of_ne {k' : κ} (h : k ≠ k') (v : ν) (l : List (κ × ν)) : ((k', v) :: l).lookup k = l.lookup k := by
  rw [List.lookup_cons, beq_eq_false_iff_ne.2 h]

theorem lookup_eq_none_iff : l.lookup k = none ↔ k ∉ l.map Prod.fst := by
  simp only [List.lookup_eq_none_iff, bne_iff_ne, List.mem_map, not_exists, not_and]
  exact forall₂_congr fun _ _ => not_congr eq_comm

theorem lookup_eq_some_iff (hl : (l.map Prod.fst).Nodup) {v : ν} : l.lookup k = some v ↔ (k, v) ∈ l := by
  induction l with
  | nil => simp
  | cons e l ih =>
    obtain ⟨k', w⟩ := e
    obtain ⟨hnot, hrest⟩ := nodup_cons.1 hl
    by_cases h : k = k'
    · subst h
      have hval : (k, v) ∉ l := fun hv => hnot (mem_map.2 ⟨_, hv, rfl⟩)
      simp [hval, eq_comm]
    · simp [lookup_cons_of_ne h, ih hrest, h]

theorem lookup_of_perm {l' : List (κ × ν)} (hl : (l.map Prod.fst).Nodup) (hp : l.Perm l') (k : κ) :
    l.lookup k = l'.lookup k := by
  have hl' : (l'.map Prod.fst).Nodup := (hp.map Prod.fst).nodup_iff.1 hl
  apply Option.ext
  intro v
  rw [lookup_eq_some_iff hl, lookup_eq_some_iff hl', hp.mem_iff]

theorem lookup_eraseAll {α : Type*} [DecidableEq α] {β : α → Type*} (ks : List α) (m : AList β) (k : α) :
    (ks.foldl (fun m k => m.erase k) m).lookup k = if k ∈ ks then none else m.lookup k := by
  induction ks generalizing m with
  | nil => simp
  | cons a ks ih =>
    rw [foldl_cons, ih]
    by_cases hk : k = a
    · subst hk
      simp
    · simp [hk]

theorem lookup_filter (hl : (l.map Prod.fst).Nodup) (p : κ × ν → Bool) (k : κ) :
    (l.filter p).lookup k = (l.lookup k).filter fun v => p (k, v) := by
  have hl' : ((l.filter p).map Prod.fst).Nodup := hl.sublist (filter_sublist.map _)
  apply Option.ext
  intro v
  rw [lookup_eq_some_iff hl', mem_filter, filter_eq_some_iff, lookup_eq_some_iff hl]

theorem latest_eq_none_iff {cs : List (List (κ × ν))} : latest cs k = none ↔ ∀ c ∈ cs, k ∉ c.map Prod.fst := by
  simp only [latest, List.findSome?_eq_none_iff, mem_reverse, lookup_eq_none_iff]

end Lookup

/-! ## The merge -/

section Merge

variable [LinearOrder κ]

def smallestKey : Option κ := (cs.filterMap fun c => c.head?.map Prod.fst).min?

/-- every source's entry for the key is taken, and the last of them is the owner -/
def takeKey (k : κ) : List (List (κ × ν)) → Option ν × List (List (κ × ν))
  | [] => (none, [])
  | [] :: cs => ((takeKey k cs).1, [] :: (takeKey k cs).2)
  | ((k', v) :: c) :: cs =>
    if k' = k then ((takeKey k cs).1.or (some v), c :: (takeKey k cs).2)
    else ((takeKey k cs).1, ((k', v) :: c) :: (takeKey k cs).2)

/-- keys in increasing order, each with its owner -/
def mergeLoop : ℕ → List (List (κ × ν)) → List (κ × ν)
  | 0, _ => []
  | fuel + 1, cs =>
    match smallestKey cs with
    | none => []
    | some k =>
      match takeKey k cs with
      | (none, _) => []
      | (some v, rest) => (k, v) :: mergeLoop fuel rest

/-- the sources are in key order, each key once -/
def InOrder : Prop := ∀ c ∈ cs, (c.map Prod.fst).Pairwise (· < ·)

/-- no head is below `k` -/
def From (k : κ) (cs : List (List (κ × ν))) : Prop := ∀ c ∈ cs, ∀ e ∈ c.head?, k ≤ e.1

/-- what taking a key leaves: the same sources without it -/
structure Took (k : κ) (cs : List (List (κ × ν))) (r : Option ν × List (List (κ × ν))) : Prop where
  owner : r.1 = latest cs k
  order : InOrder r.2
  left : ∀ k', latest r.2 k' = if k' = k then none else latest cs k'
  shrinks : (r.2.map List.length).sum + (if (latest cs k).isSome then 1 else 0) ≤ (cs.map List.length).sum

variable {cs : List (List (κ × ν))}

theorem takeKey_took {k : κ} (ho : InOrder cs) (hk : From k cs) : Took k cs (takeKey k cs) := by
  induction cs with
  | nil => exact ⟨rfl, by simp [takeKey, InOrder], by simp [takeKey, latest], by simp [takeKey, latest]⟩
  | cons c cs ih =>
    obtain ⟨howner, horder, hleft, hshrinks⟩ := ih (fun x hx => ho x (.tail _ hx)) (fun x hx => hk x (.tail _ hx))
    have hc := ho c (.head _)
    cases c with
    | nil =>
      refine ⟨?_, ?_, ?_, ?_⟩
      · simp [takeKey, latest_cons, howner]
      · exact forall_mem_cons.2 ⟨hc, horder⟩
      · simp [takeKey, latest_cons, hleft]
      · simpa [takeKey, latest_cons] using hshrinks
    | cons e c =>
      obtain ⟨k₀, v⟩ := e
      obtain ⟨hfirst, hrest⟩ := pairwise_cons.1 hc
      by_cases h : k₀ = k
      · subst h
        have hgone : c.lookup k₀ = none := lookup_eq_none_iff.2 fun hm => lt_irrefl _ (hfirst k₀ hm)
        simp only [takeKey, if_true]
        refine ⟨?_, ?_, ?_, ?_⟩
        · simp [latest_cons, howner]
        · exact forall_mem_cons.2 ⟨hrest, horder⟩
        · intro k'
          rw [latest_cons, latest_cons, hleft]
          by_cases hk' : k' = k₀
          · simp [hk', hgone]
          · rw [if_neg hk', if_neg hk', lookup_cons_of_ne hk']
        · have hsome : (latest (((k₀, v) :: c) :: cs) k₀).isSome := by simp [latest_cons]
          rw [if_pos hsome]
          simp only [map_cons, sum_cons, length_cons]
          omega
      · -- the source starts above the key, so it does not have it
        have hlt : k < k₀ := lt_of_le_of_ne (hk _ (.head _) _ rfl) (Ne.symm h)
        have hgone : ((k₀, v) :: c).lookup k = none := by
          rw [lookup_eq_none_iff, map_cons, mem_cons]
          rintro (rfl | hm)
          · exact h rfl
          · exact lt_asymm hlt (hfirst k hm)
        simp only [takeKey, if_neg h]
        refine ⟨?_, ?_, ?_, ?_⟩
        · rw [howner, latest_cons, hgone, or_none]
        · exact forall_mem_cons.2 ⟨hc, horder⟩
        · intro k'
          rw [latest_cons, latest_cons, hleft]
          by_cases hk' : k' = k
          · simp [hk', hgone]
          · rw [if_neg hk', if_neg hk']
        · rw [latest_cons, hgone, or_none]
          simp only [map_cons, sum_cons]
          omega

theorem smallestKey_none (h : smallestKey cs = none) (k : κ) : latest cs k = none := by
  rw [smallestKey, List.min?_eq_none_iff, filterMap_eq_nil_iff] at h
  rw [latest_eq_none_iff]
  intro c hc
  cases c with
  | nil => simp
  | cons e c => simpa using h _ hc

theorem smallestKey_some {k : κ} (h : smallestKey cs = some k) : From k cs ∧ (latest cs k).isSome := by
  obtain ⟨hmem, hle⟩ := List.min?_eq_some_iff.1 h
  constructor
  · intro c hc e he
    exact hle _ (mem_filterMap.2 ⟨c, hc, by rw [mem_def.1 he]; rfl⟩)
  · obtain ⟨c, hc, hck⟩ := mem_filterMap.1 hmem
    rw [isSome_iff_ne_none, ne_eq, latest_eq_none_iff]
    intro hnone
    cases c with
    | nil => simp at hck
    | cons e c =>
      obtain rfl : e.1 = k := by simpa using hck
      exact hnone _ hc (.head _)

/-- **What a merge holds.** -/
theorem lookup_mergeLoop {fuel : ℕ} (ho : InOrder cs) (hfuel : (cs.map List.length).sum ≤ fuel) :
    ((mergeLoop fuel cs).map Prod.fst).Nodup ∧ ∀ k, (mergeLoop fuel cs).lookup k = latest cs k := by
  induction fuel generalizing cs with
  | zero =>
    have hnone : ∀ k, latest cs k = none := by
      intro k
      rw [latest_eq_none_iff]
      intro c hc
      have hlen : c.length = 0 := by
        have := le_sum_of_mem (mem_map_of_mem (f := List.length) hc)
        omega
      simp [length_eq_zero_iff.1 hlen]
    exact ⟨by simp [mergeLoop], fun k => by rw [hnone]; rfl⟩
  | succ fuel ih =>
    cases hs : smallestKey cs with
    | none =>
      simp only [mergeLoop, hs]
      exact ⟨by simp, fun k => (smallestKey_none hs k).symm⟩
    | some k₀ =>
      obtain ⟨hfrom, hsome⟩ := smallestKey_some hs
      have htook := takeKey_took ho hfrom
      obtain ⟨v, hv⟩ := isSome_iff_exists.1 hsome
      generalize htk : takeKey k₀ cs = r at htook
      obtain ⟨owner, rest⟩ := r
      obtain rfl : owner = some v := htook.owner.trans hv
      have hshrinks := htook.shrinks
      rw [if_pos hsome] at hshrinks
      obtain ⟨hnodup, hlook⟩ := ih htook.order (by simp only at hshrinks ⊢; omega)
      simp only [mergeLoop, hs, htk]
      constructor
      · rw [map_cons, nodup_cons]
        refine ⟨?_, hnodup⟩
        rw [← lookup_eq_none_iff, hlook, htook.left, if_pos rfl]
      · intro k
        by_cases hk : k = k₀
        · simp [hk, hv]
        · rw [lookup_cons_of_ne hk, hlook, htook.left, if_neg hk]

end Merge

end Kdb.Entries
