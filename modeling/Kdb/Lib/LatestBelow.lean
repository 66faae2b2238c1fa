/-
The latest marked node below a node of a ranked graph: of the nodes at or below it that carry a mark, one whose key no
other exceeds, or none when none is marked.
- `LatestBelow.key_le`: a node that reaches another's latest marked node has one at least as late.
- `LatestBelow.unique`: there is at most one, when different nodes have different keys.
- `of_mark`, `of_parent`, `of_root`: a marked node later than all it stands on is its own latest; an unmarked one has the
  latest of its parents'; an unmarked root has none.
- `LatestBelow.congr`: it depends only on what is below the node.
-/
import Kdb.Lib.RankedGraph

namespace Kdb.RankedGraph

variable {ν κ : Type*} [LinearOrder κ]

/-- `o` is the latest marked node at or below `x` -/
structure LatestBelow (G : RankedGraph ν) (mark : ν → Prop) (key : Option ν → κ) (x : ν) (o : Option ν) : Prop where
  mem : ∀ w, o = some w → G.Below w x ∧ mark w
  top : ∀ w, G.Below w x → mark w → key (some w) ≤ key o

variable {G : RankedGraph ν} {mark : ν → Prop} {key : Option ν → κ} {x y : ν} {o o' : Option ν}

theorem LatestBelow.key_le (hbot : ∀ o, key none ≤ key o) (h : G.LatestBelow mark key x o)
    (h' : G.LatestBelow mark key y o') (hb : ∀ w, o = some w → G.Below w y) : key o ≤ key o' := by
  cases o with
  | none => exact hbot o'
  | some w => exact h'.top w (hb w rfl) (h.mem w rfl).2

theorem LatestBelow.unique (hbot : ∀ o, key none ≤ key o) (hinj : Function.Injective key)
    (h : G.LatestBelow mark key x o) (h' : G.LatestBelow mark key x o') : o = o' := by
  have hle := h.key_le hbot h' fun w hw => (h.mem w hw).1
  have hge := h'.key_le hbot h fun w hw => (h'.mem w hw).1
  exact hinj (le_antisymm hle hge)

theorem LatestBelow.of_same (h : G.LatestBelow mark key x o) (hsame : ∀ w, mark w → (G.Below w x ↔ G.Below w y)) :
    G.LatestBelow mark key y o := by
  refine ⟨?_, ?_⟩
  · intro w hw
    obtain ⟨hb, hm⟩ := h.mem w hw
    exact ⟨(hsame w hm).1 hb, hm⟩
  · intro w hb hm
    exact h.top w ((hsame w hm).2 hb) hm

/-- the latest marked node depends only on what is below -/
theorem LatestBelow.congr {G' : RankedGraph ν} {mark' : ν → Prop} {key' : Option ν → κ}
    (h : G.LatestBelow mark key x o) (hbelow : ∀ w, G'.Below w x ↔ G.Below w x)
    (hmark : ∀ w, G.Below w x → (mark' w ↔ mark w)) (hkey : ∀ w, G.Below w x → key' (some w) = key (some w))
    (hnone : key' none = key none) : G'.LatestBelow mark' key' x o := by
  have ho : key' o = key o := by
    cases o with
    | none => exact hnone
    | some w => exact hkey w (h.mem w rfl).1
  refine ⟨?_, ?_⟩
  · intro w hw
    obtain ⟨hb, hm⟩ := h.mem w hw
    exact ⟨(hbelow w).2 hb, (hmark w hb).2 hm⟩
  · intro w hb hm
    rw [hbelow] at hb
    rw [hkey w hb, ho]
    exact h.top w hb ((hmark w hb).1 hm)

theorem LatestBelow.of_mark (hx : mark x) (hle : ∀ w, G.Below w x → key (some w) ≤ key (some x)) :
    G.LatestBelow mark key x (some x) := by
  refine ⟨?_, fun w hb _ => hle w hb⟩
  intro w hw
  cases hw
  exact ⟨.refl, hx⟩

theorem LatestBelow.of_parent {f : ν → Option ν} {p : ν} (hx : ¬ mark x) (hp : p ∈ G.parents x)
    (h : ∀ q ∈ G.parents x, G.LatestBelow mark key q (f q)) (htop : ∀ q ∈ G.parents x, key (f q) ≤ key (f p)) :
    G.LatestBelow mark key x (f p) := by
  refine ⟨?_, ?_⟩
  · intro w hw
    obtain ⟨hb, hm⟩ := (h p hp).mem w hw
    exact ⟨.step hp hb, hm⟩
  · intro w hb hm
    rcases hb.eq_or_parent with rfl | ⟨q, hq, hb⟩
    · exact absurd hm hx
    · exact ((h q hq).top w hb hm).trans (htop q hq)

theorem LatestBelow.of_root (hx : ¬ mark x) (hps : G.parents x = []) : G.LatestBelow mark key x none := by
  refine ⟨by simp, ?_⟩
  intro w hb hm
  rcases hb.eq_or_parent with rfl | ⟨q, hq, -⟩
  · exact absurd hm hx
  · simp [hps] at hq

end Kdb.RankedGraph
