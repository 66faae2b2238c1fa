/-
Chains of a pointer map. A map `ptr` sends a node to nothing (absent), to itself as a root, or to the node it stands on;
`Chain ptr a l` says that following the map from `a` reaches a root through exactly the nodes of `l`.
- `Chain.unique`, `Chain.nodup`: the chain of a node is determined by the map and never returns to a node.
- `Chain.split`: a node on a chain has a chain of its own, the rest of the first one.
- `Chain.congr`, `Chain.redirect`: what happens to a chain when the map changes off the chain, and when one node of it
  is pointed elsewhere. The second is the whole effect of re-basing a node on everything above it.
-/
import Mathlib

namespace Kdb.PointerChain

open List

variable {α : Type*}

inductive Chain (ptr : α → Option (Option α)) : α → List α → Prop
  | root {a : α} : ptr a = some none → Chain ptr a [a]
  | link {a b : α} {l : List α} : ptr a = some (some b) → Chain ptr b l → Chain ptr a (a :: l)

variable {ptr ptr' : α → Option (Option α)} {a b : α} {l l' : List α}

namespace Chain

section

variable (h : Chain ptr a l)
include h

theorem head_mem : a ∈ l := by
  cases h <;> exact .head _

theorem present (hb : b ∈ l) : ptr b ≠ none := by
  induction h with
  | root hr => rw [mem_singleton.1 hb, hr]; simp
  | link hp _ ih =>
    rcases mem_cons.1 hb with rfl | hb
    · rw [hp]; simp
    · exact ih hb

theorem unique (h' : Chain ptr a l') : l = l' := by
  induction h generalizing l' with
  | root hr =>
    cases h' with
    | root => rfl
    | link hp => rw [hr] at hp; simp at hp
  | link hp _ ih =>
    cases h' with
    | root hr => rw [hp] at hr; simp at hr
    | link hp' hc =>
      rw [hp] at hp'
      obtain rfl : _ = _ := by simpa using hp'
      rw [ih hc]

theorem split (hb : b ∈ l) : ∃ l₁ l₂, l = l₁ ++ l₂ ∧ b ∉ l₁ ∧ Chain ptr b l₂ := by
  induction h with
  | root hr => obtain rfl := mem_singleton.1 hb; exact ⟨[], _, rfl, by simp, .root hr⟩
  | @link x y l hp hc ih =>
    by_cases hx : b = x
    · subst hx; exact ⟨[], _, rfl, by simp, .link hp hc⟩
    · obtain ⟨l₁, l₂, rfl, hn, hc'⟩ := ih (by simpa [hx] using hb)
      exact ⟨x :: l₁, l₂, rfl, by simp [hx, hn], hc'⟩

theorem nodup : l.Nodup := by
  induction h with
  | root => simp
  | @link x y l hp hc ih =>
    refine nodup_cons.2 ⟨fun hx => ?_, ih⟩
    -- a second `x` further down would start a shorter chain of `x`
    obtain ⟨l₁, l₂, rfl, -, hc'⟩ := hc.split hx
    have := congrArg List.length (hc'.unique (.link hp hc))
    simp at this
    omega

theorem congr (hp : ∀ x ∈ l, ptr' x = ptr x) : Chain ptr' a l := by
  induction h with
  | root hr => exact .root ((hp _ mem_cons_self).trans hr)
  | link hl _ ih =>
    exact .link ((hp _ mem_cons_self).trans hl) (ih fun x hx => hp x (mem_cons_of_mem _ hx))

end

/-- the nodes above `b` keep their pointers, `b` gets a new chain: everything above `b` follows it -/
theorem redirect {l₁ l₂ : List α} (h : Chain ptr a (l₁ ++ l₂)) (hb : Chain ptr b l₂)
    (hp : ∀ x ∈ l₁, ptr' x = ptr x) (hb' : Chain ptr' b l') : Chain ptr' a (l₁ ++ l') := by
  induction l₁ generalizing a with
  | nil =>
    have hab : a = b := by
      cases h <;> cases hb <;> rfl
    exact hab ▸ hb'
  | cons x l₁ ih =>
    generalize hl : x :: l₁ ++ l₂ = m at h
    cases h with
    | root hr =>
      -- a root is the last node of its chain, but `l₂` is not empty
      have : l₂ ≠ [] := ne_nil_of_mem hb.head_mem
      simp_all
    | link hlk hc =>
      obtain ⟨rfl, rfl⟩ := cons.inj hl
      exact .link ((hp _ mem_cons_self).trans hlk) (ih hc fun y hy => hp y (mem_cons_of_mem _ hy))

end Chain

end Kdb.PointerChain
