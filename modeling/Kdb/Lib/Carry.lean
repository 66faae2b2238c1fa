/-
Carrying edits over: a record is rewritten and removed step by step on one side, and the change each step makes to a
field is applied to another side's copy of the record.

- `replay_same`: a copy that starts equal stays equal.
- `replay_of_drop`: once the record was removed, the copy is what the editing side has.
- `replay_of_puts`: as long as it is only rewritten, a field of the copy is the editing side's if some rewrite gave it a
  value other than the first one, and the copy's own otherwise.

A record is a function from keys to values that may be absent; `none` is no record.
-/
import Mathlib

namespace Kdb.Carry

variable {κ ν : Type*}

/-- a record by its fields, or none -/
abbrev Record (κ ν : Type*) := Option (κ → Option ν)

/-- a field; no record has none -/
def field (r : Record κ ν) (k : κ) : Option ν := r.bind fun f => f k

@[simp] theorem field_some (f : κ → Option ν) (k : κ) : field (some f) k = f k := rfl

@[simp] theorem field_none (k : κ) : field (none : Record κ ν) k = none := rfl

/-- the record is rewritten, or removed -/
inductive Edit (κ ν : Type*) where
  | put (f : κ → Option ν)
  | drop

/-- what an edit leaves on its own side -/
def Edit.result : Edit κ ν → Record κ ν
  | .put f => some f
  | .drop => none

variable [DecidableEq ν]

/-- an edit carried over: a field the rewrite changed is taken, the others stay -/
def Edit.carry (before onto : Record κ ν) : Edit κ ν → Record κ ν
  | .put f => some fun k => if f k = field before k then field onto k else f k
  | .drop => none

/-- the edits of one side, applied there and carried over -/
def replay : Record κ ν → Record κ ν → List (Edit κ ν) → Record κ ν × Record κ ν
  | own, copy, [] => (own, copy)
  | own, copy, e :: es => replay e.result (e.carry own copy) es

variable {own copy : Record κ ν} {es : List (Edit κ ν)}

theorem replay_append (es es' : List (Edit κ ν)) :
    replay own copy (es ++ es') = replay (replay own copy es).1 (replay own copy es).2 es' := by
  induction es generalizing own copy with
  | nil => rfl
  | cons e es ih => exact ih

theorem carry_self (e : Edit κ ν) (r : Record κ ν) : e.carry r r = e.result := by
  cases e with
  | drop => rfl
  | put f =>
    have hf : (fun k => if f k = field r k then field r k else f k) = f := by
      funext k
      split_ifs with h
      · exact h.symm
      · rfl
    exact congrArg some hf

theorem replay_same (r : Record κ ν) (es : List (Edit κ ν)) : (replay r r es).2 = (replay r r es).1 := by
  induction es generalizing r with
  | nil => rfl
  | cons e es ih =>
    rw [replay, carry_self]
    exact ih e.result

/-- **After a removal.** -/
theorem replay_of_drop (h : Edit.drop ∈ es) : (replay own copy es).2 = (replay own copy es).1 := by
  induction es generalizing own copy with
  | nil => cases h
  | cons e es ih =>
    rcases List.mem_cons.1 h with rfl | h
    · exact replay_same none es
    · exact ih h

theorem field_replay_of_const {v : Option ν} {k : κ} (hown : field own k = v)
    (h : ∀ e ∈ es, ∃ f, e = .put f ∧ f k = v) : field (replay own copy es).1 k = v := by
  induction es generalizing own copy with
  | nil => exact hown
  | cons e es ih =>
    obtain ⟨f, rfl, hf⟩ := h e (.head _)
    exact ih hf fun e' he' => h e' (.tail _ he')

/-- **While the record is only rewritten.** -/
theorem replay_of_puts (own copy : Record κ ν) (hne : es ≠ []) (hputs : ∀ e ∈ es, ∃ f, e = .put f) :
    (replay own copy es).2.isSome ∧
      ∀ k, ((∀ f, .put f ∈ es → f k = field own k) → field (replay own copy es).2 k = field copy k) ∧
        ((∃ f, .put f ∈ es ∧ f k ≠ field own k) → field (replay own copy es).2 k = field (replay own copy es).1 k) := by
  induction es generalizing own copy with
  | nil => exact absurd rfl hne
  | cons e es ih =>
    obtain ⟨f, rfl⟩ := hputs e (.head _)
    have hrest : ∀ e ∈ es, ∃ f, e = .put f := fun e he => hputs e (.tail _ he)
    by_cases hes : es = []
    · subst hes
      refine ⟨rfl, fun k => ⟨fun hall => ?_, fun hex => ?_⟩⟩
      · have hf : f k = field own k := hall f (.head _)
        simp [replay, Edit.carry, hf]
      · obtain ⟨g, hg, hgk⟩ := hex
        obtain rfl : g = f := by simpa using hg
        simp [replay, Edit.carry, Edit.result, hgk]
    · obtain ⟨hsome, hk⟩ := ih (Edit.put f).result ((Edit.put f).carry own copy) hes hrest
      refine ⟨hsome, fun k => ⟨fun hall => ?_, fun hex => ?_⟩⟩
      · have hf : f k = field own k := hall f (.head _)
        have hconst : ∀ g, .put g ∈ es → g k = field (Edit.put f).result k := fun g hg =>
          (hall g (.tail _ hg)).trans hf.symm
        calc field (replay own copy (.put f :: es)).2 k = field ((Edit.put f).carry own copy) k := (hk k).1 hconst
          _ = field copy k := by simp [Edit.carry, hf]
      · by_cases hlater : ∃ g, .put g ∈ es ∧ g k ≠ field (Edit.put f).result k
        · exact (hk k).2 hlater
        · -- the later rewrites leave the field where `f` put it, so it is `f` that changed it
          have hconst : ∀ g, .put g ∈ es → g k = f k := fun g hg => by
            by_contra hne
            exact hlater ⟨g, hg, hne⟩
          have hf : f k ≠ field own k := by
            obtain ⟨g, hg, hgk⟩ := hex
            rcases List.mem_cons.1 hg with hg | hg
            · obtain rfl : g = f := by simpa using hg
              exact hgk
            · rwa [hconst g hg] at hgk
          have hputf : ∀ e ∈ es, ∃ g, e = .put g ∧ g k = f k := by
            intro e he
            obtain ⟨g, rfl⟩ := hrest e he
            exact ⟨g, rfl, hconst g he⟩
          have hlast : field (replay own copy (.put f :: es)).1 k = f k := by
            rw [replay]
            exact field_replay_of_const rfl hputf
          calc field (replay own copy (.put f :: es)).2 k = field ((Edit.put f).carry own copy) k := (hk k).1 hconst
            _ = f k := by simp [Edit.carry, hf]
            _ = field (replay own copy (.put f :: es)).1 k := hlast.symm

end Kdb.Carry
