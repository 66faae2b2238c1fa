/-
Lists in dependency order: every entry comes after what it depends on. An append-only log whose entries may only depend
on what is already there is in dependency order, and so is every prefix of it, which is what a crash leaves.
- `DepOrdered.concat`, `DepOrdered.of_append`: growing by one entry, and prefixes.
- `DepOrdered.closed`: what an entry depends on, over any number of steps, is in the list.
- `DepOrdered.after`: what depends on an entry comes after it.
- `DepOrdered.weaken`: entries may come to depend on less.
-/
import Mathlib

namespace Kdb

open List

variable {α : Type*} {deps deps' : α → List α} {l l₁ l₂ : List α} {x y : α}

/-- every entry comes after its dependencies -/
def DepOrdered (deps : α → List α) (l : List α) : Prop :=
  ∀ l₁ x l₂, l = l₁ ++ x :: l₂ → ∀ p ∈ deps x, p ∈ l₁

namespace DepOrdered

theorem nil (deps : α → List α) : DepOrdered deps [] := by
  intro l₁ x l₂ heq
  simp at heq

theorem concat (hl : DepOrdered deps l) (hx : ∀ p ∈ deps x, p ∈ l) : DepOrdered deps (l ++ [x]) := by
  intro l₁ y l₂ heq
  rcases eq_nil_or_concat l₂ with rfl | ⟨l₂', z, rfl⟩
  · obtain ⟨rfl, rfl⟩ : l = l₁ ∧ x = y := by simpa using append_inj' heq rfl
    exact hx
  · rw [concat_eq_append, ← cons_append, ← append_assoc] at heq
    exact hl l₁ y l₂' (append_inj' heq rfl).1

theorem of_append (hl : DepOrdered deps (l₁ ++ l₂)) : DepOrdered deps l₁ := by
  intro a x b heq
  exact hl a x (b ++ l₂) (by rw [heq, append_assoc, cons_append])

theorem take_right (hl : DepOrdered deps (l₁ ++ l₂)) (k : ℕ) : DepOrdered deps (l₁ ++ l₂.take k) := by
  rw [← take_append_drop k l₂, ← append_assoc] at hl
  exact hl.of_append

theorem weaken (hl : DepOrdered deps l) (h : ∀ x ∈ l, deps' x ⊆ deps x) : DepOrdered deps' l := by
  intro l₁ x l₂ heq p hp
  exact hl l₁ x l₂ heq p (h x (by simp [heq]) hp)

theorem dep_mem (hl : DepOrdered deps l) (hx : x ∈ l) (hy : y ∈ deps x) : y ∈ l := by
  obtain ⟨l₁, l₂, heq⟩ := append_of_mem hx
  rw [heq]
  exact mem_append_left _ (hl l₁ x l₂ heq y hy)

/-- **Closed.** A list in dependency order holds everything its entries depend on. -/
theorem closed (hl : DepOrdered deps l) (h : Relation.ReflTransGen (fun x y => y ∈ deps x) x y) (hx : x ∈ l) :
    y ∈ l := by
  induction h with
  | refl => exact hx
  | tail _ hy ih => exact hl.dep_mem ih hy

/-- what depends on an entry, over one or more steps, comes after it -/
theorem after (hl : DepOrdered deps (l₁ ++ x :: l₂)) (hnodup : (l₁ ++ x :: l₂).Nodup)
    (h : Relation.TransGen (fun x y => y ∈ deps x) y x) (hy : y ∈ l₁ ++ x :: l₂) : y ∈ l₂ := by
  have hx : x ∉ l₁ := fun hx => (nodup_append.1 hnodup).2.2 x hx x (.head _) rfl
  rcases mem_append.1 hy with hy | hy
  · exact absurd (hl.of_append.closed h.to_reflTransGen hy) hx
  rcases mem_cons.1 hy with rfl | hy
  · -- an entry below itself would have to come before itself
    obtain ⟨p, hp, hpy⟩ := Relation.TransGen.head'_iff.1 h
    exact absurd (hl.of_append.closed hpy (hl l₁ y l₂ rfl p hp)) hx
  · exact hy

end DepOrdered

end Kdb
