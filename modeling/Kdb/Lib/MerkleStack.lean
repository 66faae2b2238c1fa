/-
The tree hash of a list of leaves, computed leaf by leaf with a stack of perfect subtrees.
- `carry`, `push`: a new leaf is a subtree of one; two subtrees of one size side by side become one of twice the size.
- `root`: the subtrees on the stack, combined from the newest to the oldest.
- `root_injective`: as many leaves with the same root are the same leaves, when the node hash has no collisions.
-/
import Mathlib

namespace Kdb.MerkleStack

variable {δ : Type*} (node : δ → δ → δ)

/-- a subtree put on the stack, merged with what stands there as long as the sizes agree; the newest is first -/
def carry (size : ℕ) (h : δ) : List (ℕ × δ) → List (ℕ × δ)
  | [] => [(size, h)]
  | (size', l) :: rest => if size' = size then carry (size + size) (node l h) rest else (size, h) :: (size', l) :: rest

/-- the next leaf -/
def push (stack : List (ℕ × δ)) (leaf : δ) : List (ℕ × δ) := carry node 1 leaf stack

/-- the stack after these leaves -/
def build (leaves : List δ) : List (ℕ × δ) := leaves.foldl (push node) []

/-- the subtrees combined from the newest to the oldest -/
def combine (h : δ) : List (ℕ × δ) → δ
  | [] => h
  | (_, l) :: rest => combine (node l h) rest

/-- the root of a stack; `empty` is the root of no leaves -/
def root (empty : δ) : List (ℕ × δ) → δ
  | [] => empty
  | (_, h) :: rest => combine node h rest

/-- no two pairs have the same node -/
def NodeInjective : Prop := ∀ a b c d, node a b = node c d → a = c ∧ b = d

variable {node} {stack stack' : List (ℕ × δ)} {h h' : δ} {ls ls' : List δ}

/-- stacks of one shape -/
abbrev SameSizes (stack stack' : List (ℕ × δ)) : Prop := List.Forall₂ (fun e e' => e.1 = e'.1) stack stack'

section

variable (hnode : NodeInjective node)
include hnode

/-- stacks of one shape have one after a carry, and agreed before it if they agree then -/
theorem carry_same (size : ℕ) (hs : SameSizes stack stack') : SameSizes (carry node size h stack) (carry node size h' stack') ∧
      (carry node size h stack = carry node size h' stack' → h = h' ∧ stack = stack') := by
  induction hs generalizing size h h' with
  | nil => exact ⟨.cons rfl .nil, fun heq => ⟨(Prod.mk.inj (List.cons.inj heq).1).2, rfl⟩⟩
  | @cons e e' rest rest' hsize hrest ih =>
    obtain ⟨size₁, l⟩ := e
    obtain ⟨size₂, l'⟩ := e'
    obtain rfl : size₁ = size₂ := hsize
    simp only [carry]
    split
    · -- merged: the node hash tells the two halves
      refine ⟨(ih _).1, fun heq => ?_⟩
      obtain ⟨hmerged, hrest'⟩ := (ih _).2 heq
      obtain ⟨hl, hh⟩ := hnode _ _ _ _ hmerged
      exact ⟨hh, by rw [hl, hrest']⟩
    · refine ⟨.cons rfl (.cons rfl hrest), fun heq => ?_⟩
      obtain ⟨htop, hbelow⟩ := List.cons.inj heq
      exact ⟨(Prod.mk.inj htop).2, hbelow⟩

theorem push_same (hlen : ls.length = ls'.length) (hs : SameSizes stack stack') :
    SameSizes (ls.foldl (push node) stack) (ls'.foldl (push node) stack') ∧
      (ls.foldl (push node) stack = ls'.foldl (push node) stack' → stack = stack' ∧ ls = ls') := by
  induction ls generalizing ls' stack stack' with
  | nil =>
    obtain rfl : ls' = [] := List.length_eq_zero_iff.1 hlen.symm
    exact ⟨hs, fun heq => ⟨heq, rfl⟩⟩
  | cons a ls ih =>
    cases ls' with
    | nil => cases hlen
    | cons a' ls' =>
      obtain ⟨hsame, hpush⟩ := @carry_same _ node _ _ a a' hnode 1 hs
      obtain ⟨hsame', hrest⟩ := ih (Nat.succ.inj hlen) hsame
      refine ⟨hsame', fun heq => ?_⟩
      obtain ⟨hcarry, hls⟩ := hrest heq
      obtain ⟨ha, hstack⟩ := hpush hcarry
      exact ⟨hstack, by rw [ha, hls]⟩

theorem combine_injective (hs : SameSizes stack stack')
    (heq : combine node h stack = combine node h' stack') : h = h' ∧ stack = stack' := by
  induction hs generalizing h h' with
  | nil => exact ⟨heq, rfl⟩
  | cons hsize _ ih =>
    obtain ⟨hmerged, hrest⟩ := ih heq
    obtain ⟨hl, hh⟩ := hnode _ _ _ _ hmerged
    exact ⟨hh, by rw [Prod.ext hsize hl, hrest]⟩

/-- **The root names the leaves**, among lists of one length. -/
theorem root_injective (empty : δ) (hlen : ls.length = ls'.length)
    (heq : root node empty (build node ls) = root node empty (build node ls')) : ls = ls' := by
  obtain ⟨hsame, hls⟩ := push_same hnode hlen (List.Forall₂.nil (R := fun (e e' : ℕ × δ) => e.1 = e'.1))
  refine (hls ?_).2
  change root node empty (ls.foldl (push node) []) = root node empty (ls'.foldl (push node) []) at heq
  revert heq
  generalize ls.foldl (push node) [] = s, ls'.foldl (push node) [] = s' at hsame
  intro heq
  cases hsame with
  | nil => rfl
  | cons hsize hrest =>
    obtain ⟨hh, hrest⟩ := combine_injective hnode hrest heq
    rw [hrest, Prod.ext hsize hh]

end

end Kdb.MerkleStack
