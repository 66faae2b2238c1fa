/-
Processes that work through a script: a list of instructions, of which a suffix is still to be done.
- `Ordered`: no instruction occurs twice, and none stands behind one it has to come before.
- `Ordered.later`: while an instruction is still to be done, so is everything it has to come before.
- `Ordered.done`: once an instruction's turn has come, nothing it has to come behind is left.
- `Ordered.notMem_tail`: an instruction that is done is not to be done again.
So what holds of a process at any point is said by which instructions are left, and follows from the order of the script.
`Ordered.flatten`, `Ordered.map` and `Ordered.pairs` build ordered scripts stage by stage.
-/
import Mathlib

namespace Kdb.Script

open List

variable {ι : Type*} {before : ι → ι → Prop} {script rest tail : List ι} {i j : ι}

/-- the script has no instruction twice, and none behind one it comes before -/
def Ordered (before : ι → ι → Prop) (script : List ι) : Prop := script.Pairwise fun i j => i ≠ j ∧ ¬ before j i

section

variable (ho : Ordered before script)
include ho

/-- **Order.** -/
theorem Ordered.later (hrest : rest <:+ script) (hi : i ∈ rest) (hj : j ∈ script) (hb : before i j) : j ∈ rest := by
  obtain ⟨past, rfl⟩ := hrest
  rcases mem_append.1 hj with hpast | hj
  · -- done before `i`, which it must not come before
    exact absurd hb ((pairwise_append.1 ho).2.2 j hpast i hi).2
  · exact hj

theorem Ordered.behind (hrest : j :: rest <:+ script) (hi : i ∈ rest) : j ≠ i ∧ ¬ before i j := by
  obtain ⟨past, rfl⟩ := hrest
  exact rel_of_pairwise_cons (pairwise_append.1 ho).2.1 hi

theorem Ordered.done (hrest : j :: rest <:+ script) (hb : before i j) : i ∉ rest :=
  fun hi => (ho.behind hrest hi).2 hb

theorem Ordered.notMem_tail (hrest : i :: rest <:+ script) : i ∉ rest :=
  fun hi => (ho.behind hrest hi).1 rfl

end

theorem suffix_of_cons (hrest : i :: rest <:+ script) : rest <:+ script := (suffix_cons i rest).trans hrest

theorem mem_tail (h : rest = j :: tail) (hi : i ∈ rest) (hne : i ≠ j) : i ∈ tail := by
  rw [h] at hi
  exact (mem_cons.1 hi).resolve_left hne

theorem mem_of_tail (h : rest = j :: tail) (hi : i ∈ tail) : i ∈ rest := h ▸ mem_cons_of_mem j hi

theorem tail_or {P Q : Prop} (h : rest = j :: tail) (hi : i ∈ rest ∨ P) (hQ : i = j ∨ P → Q) : i ∈ tail ∨ Q := by
  rcases hi with hi | hP
  · rw [h] at hi
    exact (mem_cons.1 hi).symm.imp_right fun h => hQ (.inl h)
  · exact .inr (hQ (.inr hP))

/-! ## Building scripts -/

variable {stage : ι → ℕ}

/-- blocks of instructions, each of later stages than the ones before it -/
theorem Ordered.flatten (hstage : ∀ i j, before i j → stage i ≤ stage j) {blocks : List (List ι)}
    (hblocks : ∀ b ∈ blocks, Ordered before b) (hlt : blocks.Pairwise fun a b => ∀ i ∈ a, ∀ j ∈ b, stage i < stage j) :
    Ordered before blocks.flatten := by
  refine pairwise_flatten.2 ⟨hblocks, hlt.imp fun {a b} hab i hi j hj => ⟨?_, fun hji => ?_⟩⟩
  · rintro rfl
    exact lt_irrefl _ (hab i hi i hj)
  · exact absurd (hab i hi j hj) (not_lt.2 (hstage j i hji))

/-- one instruction for each of a list -/
theorem Ordered.map {α : Type*} {f : α → ι} (hf : Function.Injective f) (hfree : ∀ x y, ¬ before (f x) (f y)) {l : List α}
    (hl : l.Nodup) : Ordered before (l.map f) :=
  pairwise_map.2 (hl.imp fun {x y} hxy => ⟨fun h => hxy (hf h), hfree y x⟩)

theorem forall_mem_pairs {α : Type*} {f g : α → ι} {l : List α} {P : ι → Prop} :
    (∀ i ∈ l.flatMap fun x => [f x, g x], P i) ↔ ∀ x ∈ l, P (f x) ∧ P (g x) := by
  simp only [mem_flatMap, mem_cons, not_mem_nil, or_false]
  constructor
  · intro h x hx
    exact ⟨h _ ⟨x, hx, .inl rfl⟩, h _ ⟨x, hx, .inr rfl⟩⟩
  · rintro h i ⟨x, hx, rfl | rfl⟩
    · exact (h x hx).1
    · exact (h x hx).2

/-- two instructions for each of a list -/
theorem Ordered.pairs {α : Type*} {f g : α → ι} (hf : Function.Injective f) (hg : Function.Injective g)
    (hfg : ∀ x y, f x ≠ g y) (hbefore : ∀ x y, ¬ before (f x) (f y) ∧ ¬ before (g x) (g y) ∧ ¬ before (g x) (f y) ∧
      (before (f x) (g y) → x = y)) {l : List α} (hl : l.Nodup) : Ordered before (l.flatMap fun x => [f x, g x]) := by
  refine pairwise_flatMap.2 ⟨fun x _ => ?_, hl.imp fun {x y} hxy => ?_⟩
  · simp [hfg x x, (hbefore x x).2.2.1]
  · intro i hi j hj
    simp only [mem_cons, not_mem_nil, or_false] at hi hj
    rcases hi with rfl | rfl <;> rcases hj with rfl | rfl
    · exact ⟨fun h => hxy (hf h), (hbefore y x).1⟩
    · exact ⟨hfg x y, (hbefore y x).2.2.1⟩
    · exact ⟨(hfg y x).symm, fun h => hxy ((hbefore y x).2.2.2 h).symm⟩
    · exact ⟨fun h => hxy (hg h), (hbefore y x).2.1⟩

end Kdb.Script
