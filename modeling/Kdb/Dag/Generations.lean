/-
Generation numbers and the ancestry walks they prune (`dag/generations.go`, `dag/ancestry.go`, and every operation of
`dag/in_memory_commit_dag.go`, `unlogged.go`, `checkpoint.go` that adds or takes away a commit, a stub or a shallow root).

A commit gets one more than the highest generation of its parents that are there. `IsAncestor` with pruning on does not
descend below a commit whose generation has fallen to the ancestor's. One flag, `genStale`, records that a commit came
before its parents; the next query then numbers the whole graph again.

- `pruned_ancestry_agrees`: queries answer what the ancestor closure says, in runs that store a commit under resident
  children only while the numbers are stale.
- `late_parent_pruned`: a parent that arrives after its child may get the higher number, and is not found below it.

A hash covers the hashes of its parents: `L` gives the parents a hash names, and no hash is below itself. The resident
tier is modelled, with natural numbers for generations; graph segments, operations and their budget, trees, attachments
and the epoch counters are left out.
-/
import Kdb.Lib.Entries
import Kdb.Lib.Machine
import Kdb.Lib.Worklist

namespace Kdb.Ancestry

open Kdb.Machine RankedGraph List Option

variable {H : Type} [DecidableEq H]

/-! ## The graph -/

/-- `InMemoryCommitDag`: resident commits with their generations, stubs, shallow roots, the staleness flag, and what keeps
commits from being reclaimed -/
structure Graph (H : Type) where
  nodes : AList fun _ : H => ℕ
  stubs : Finset H := ∅
  shallow : Finset H := ∅
  genStale : Bool := false
  main : H
  branches : Finset H := ∅
  tags : Finset H := ∅
  pins : Finset H := ∅

namespace Graph

/-- `NewInMemoryCommitDag` with pruning on: the genesis commit, a root -/
def new (genesis : H) : Graph H := { nodes := AList.singleton genesis 1, main := genesis }

def generation (g : Graph H) (h : H) : ℕ := (g.nodes.lookup h).getD 0

/-- here as a commit or as a stub (`requireCommitPresentLocked`) -/
def present (g : Graph H) (h : H) : Bool := h ∈ g.nodes || h ∈ g.stubs

def heads (g : Graph H) : Finset H := insert g.main g.branches

variable (L : RankedGraph H) (g : Graph H) (h : H)

def expandParents : List H :=
  if h ∈ g.stubs then []
  else if h ∈ g.shallow then []
  else if h ∈ g.nodes then L.parents h
  else []

def parentsResident : Bool := h ∈ g.shallow || (L.parents h).all g.present

def deriveGeneration : ℕ := ((L.parents h).map g.generation).foldl max 0 + 1

/-! ## Adding commits -/

def storeCommit : Graph H :=
  { g with
    nodes := g.nodes.insert h (g.deriveGeneration L h)
    genStale := g.genStale || !g.parentsResident L h }

/-- `putCommitLocked`; a refused commit changes nothing -/
def putCommit (requireParents : Bool) : Graph H :=
  if h ∈ g.nodes then g
  else if requireParents && !(L.parents h).all g.present then g
  else g.storeCommit L h

/-- `PutShallowCommit`, `PutUnloggedShallowCommit` -/
def putShallowCommit : Graph H :=
  if h ∈ g.nodes then g
  else
    let g := g.putCommit L h false
    { g with shallow := insert h g.shallow }

/-- `appendCommitLocked`: the compare-and-swap on main, unless the caller re-points it -/
def appendCommit (expectedHead : Option H) : Graph H :=
  if !(L.parents h).all g.present then g
  else if expectedHead.any fun e => e ≠ g.main then g
  else { g.putCommit L h true with main := h }

/-- the commits of `RestoreCheckpoint`, in the order they come -/
def restoreCommits (hs : List H) : Graph H := hs.foldl (fun g h => g.putCommit L h false) g

def restoreCheckpoint (hs : List H) (main : H) (branches tags : Finset H) : Graph H :=
  { g.restoreCommits L hs with main, branches, tags }

/-! ## Stubs and shallow roots -/

def stubCommit : Graph H :=
  if h ∉ g.nodes then g
  else if h ∈ g.pins then g
  else { g with nodes := g.nodes.erase h, stubs := insert h g.stubs }

/-- `PutStub`: a stub for a commit that is not here -/
def putStub : Graph H :=
  if h ∈ g.nodes then g
  else if h ∈ g.stubs then g
  else { g with stubs := insert h g.stubs }

def dropShallowCommit : Graph H :=
  if h ∉ g.nodes then g
  else if h ∉ g.shallow then g
  else if h ∈ g.pins then g
  else if h ∈ g.heads then g
  else if h ∈ g.tags then g
  else if g.nodes.keys.any fun c => c ≠ h && h ∈ L.parents c then g
  else { g with nodes := g.nodes.erase h, shallow := g.shallow.erase h }

def markShallow : Graph H :=
  if h ∉ g.nodes then g else { g with shallow := insert h g.shallow }

/-- `Unshallow`; its check of the parents sees a commit that is still a shallow root -/
def unshallow : Graph H :=
  if h ∉ g.shallow then g
  else if h ∉ g.nodes then g
  else if !g.parentsResident L h then g
  else { g with shallow := g.shallow.erase h, genStale := true }

def invalidateGenerations : Graph H := { g with genStale := true }

/-- `Squash`: the window goes, a commit without parents comes -/
def squash (window : List H) (boundary synthetic : H) : Graph H :=
  if boundary ∉ g.nodes then g
  else if window.any (· ∉ g.nodes) then g
  else if window.any (· ∈ g.heads) then g
  else if window.any (· ∈ g.pins) then g
  else
    let g := { g with
      tags := g.tags.image fun t => if t ∈ window then synthetic else t
      nodes := window.foldl (fun nodes h => nodes.erase h) g.nodes
      stubs := g.stubs.filter (· ∉ window) }
    g.storeCommit L synthetic

/-! ## Numbering again -/

/-- the edges between resident commits and the parents they name, whatever is a stub or a shallow root -/
def links : RankedGraph H where
  parents := fun h => if h ∈ g.nodes then L.parents h else []
  rank := L.rank
  rank_lt := by
    intro h p hp
    split at hp
    · exact L.rank_lt h p hp
    · cases hp

/-- the number a commit is settled with; what is not resident contributes nothing -/
def settled (parents : List ℕ) : ℕ := if h ∈ g.nodes then parents.foldl max 0 + 1 else 0

/-- the loop of `recomputeGenerationsLocked` over every resident commit -/
def renumber : AList fun _ : H => ℕ :=
  g.nodes.keys.foldl (fun gen h => (g.links L).settle g.settled gen h) ∅

def recomputeGenerations : Graph H :=
  { g with
    nodes := (g.renumber L).entries.foldl
      (fun nodes e => if e.1 ∈ nodes then nodes.insert e.1 e.2 else nodes) g.nodes
    genStale := false }

def ensureGenerations : Graph H := if g.genStale then g.recomputeGenerations L else g

/-! ## Ancestry -/

/-- the edges a walk follows -/
def walks : RankedGraph H where
  parents := g.expandParents L
  rank := L.rank
  rank_lt := by
    intro h p hp
    unfold expandParents at hp
    split_ifs at hp
    · cases hp
    · cases hp
    · exact L.rank_lt h p hp
    · cases hp

/-- the edges the pruned walk follows: none out of a commit at or below the floor -/
def prunedWalks (floor : ℕ) : RankedGraph H :=
  (g.walks L).cut fun h => 0 < floor && g.generation h ≤ floor

def ancestorClosure (start : H) : List H := (g.walks L).explore fifo [start]

def isAncestorPruned (ancestor descendant : H) : Bool :=
  ancestor = descendant || (g.prunedWalks L (g.generation ancestor)).finds lifo ancestor [descendant]

/-- `IsAncestor` with pruning on: the answer, over numbers made fresh first -/
def isAncestor (ancestor descendant : H) : Bool :=
  (g.ensureGenerations L).isAncestorPruned L ancestor descendant

end Graph

/-! ## Runs -/

/-- the operations; `PutUnloggedCommit` is `putCommit` with its parents required, `query` is any pruned walk, and `refs` any
change of branches, tags and pins. `Squash` builds its commit without parents. -/
inductive Op (L : RankedGraph H) where
  | putCommit (h : H) (requireParents : Bool)
  | putShallowCommit (h : H)
  | appendCommit (h : H) (expectedHead : Option H)
  | restoreCheckpoint (hs : List H) (main : H) (branches tags : Finset H)
  | stubCommit (h : H)
  | putStub (h : H)
  | dropShallowCommit (h : H)
  | markShallow (h : H)
  | unshallow (h : H)
  | invalidateGenerations
  | squash (window : List H) (boundary : H) (synthetic : { h : H // L.parents h = [] })
  | refs (main : H) (branches tags pins : Finset H)
  | query

variable (L : RankedGraph H)

def step (g : Graph H) : Op L → Graph H
  | .putCommit h requireParents => g.putCommit L h requireParents
  | .putShallowCommit h => g.putShallowCommit L h
  | .appendCommit h expectedHead => g.appendCommit L h expectedHead
  | .restoreCheckpoint hs main branches tags => g.restoreCheckpoint L hs main branches tags
  | .stubCommit h => g.stubCommit h
  | .putStub h => g.putStub h
  | .dropShallowCommit h => g.dropShallowCommit L h
  | .markShallow h => g.markShallow h
  | .unshallow h => g.unshallow L h
  | .invalidateGenerations => g.invalidateGenerations
  | .squash window boundary synthetic => g.squash L window boundary synthetic
  | .refs main branches tags pins => { g with main, branches, tags, pins }
  | .query => g.ensureGenerations L

/-- storing `h` puts no commit above its child: `h` is here, or the numbers are stale or become so, or no walk leads from a
resident commit to `h` -/
def Admits (g : Graph H) (h : H) : Prop :=
  h ∈ g.nodes ∨ g.genStale = true ∨ g.parentsResident L h = false ∨ ∀ c ∈ g.nodes.keys, h ∉ g.expandParents L c
  deriving Decidable

/-- the guard of a run: every commit it stores is admitted, those of a checkpoint one after the other -/
def Guarded (g : Graph H) : Op L → Prop
  | .putCommit h _ | .putShallowCommit h | .appendCommit h _ => Admits L g h
  | .restoreCheckpoint hs _ _ _ => Along (fun g h => g.putCommit L h false) (Admits L) g hs
  | .squash _ _ synthetic => Admits L g synthetic
  | _ => True

instance (g : Graph H) : ∀ o, Decidable (Guarded L g o)
  | .putCommit h _ | .putShallowCommit h | .appendCommit h _ => inferInstanceAs (Decidable (Admits L g h))
  | .restoreCheckpoint hs _ _ _ =>
    inferInstanceAs (Decidable (Along (fun g h => Graph.putCommit L g h false) (Admits L) g hs))
  | .squash _ _ synthetic => inferInstanceAs (Decidable (Admits L g synthetic))
  | .stubCommit _ | .putStub _ | .dropShallowCommit _ | .markShallow _ | .unshallow _ | .invalidateGenerations
  | .refs _ _ _ _ | .query => inferInstanceAs (Decidable True)

/-! ## The numbers -/

variable {L} {g g' : Graph H} {h p : H}

theorem mem_expandParents : p ∈ g.expandParents L h ↔ h ∉ g.stubs ∧ h ∉ g.shallow ∧ h ∈ g.nodes ∧ p ∈ L.parents h := by
  unfold Graph.expandParents
  split_ifs <;> simp_all

theorem mem_of_generation_pos (hpos : 0 < g.generation h) : h ∈ g.nodes := by
  by_contra hmem
  rw [Graph.generation, AList.lookup_eq_none.2 hmem] at hpos
  exact absurd hpos (lt_irrefl 0)

theorem generation_lt_derive (hp : p ∈ L.parents h) : g.generation p < g.deriveGeneration L h :=
  Nat.lt_succ_of_le (le_foldl_max (.inr (mem_map_of_mem hp)))

variable (L) in
/-- every resident commit has a number, and numbers that are not stale fall along the edges a walk follows -/
structure Sound (g : Graph H) : Prop where
  positive : ∀ h ∈ g.nodes, 0 < g.generation h
  descending : g.genStale = false → ∀ h p, p ∈ g.expandParents L h → p ∈ g.nodes → g.generation p < g.generation h

/-- taking commits and edges away keeps the numbers sound -/
theorem Sound.shrink (hg : Sound L g) (hnodes : ∀ h v, g'.nodes.lookup h = some v → g.nodes.lookup h = some v)
    (hedges : ∀ h p, p ∈ g'.expandParents L h → p ∈ g.expandParents L h)
    (hstale : g'.genStale = false → g.genStale = false) : Sound L g' := by
  have hkeep : ∀ h ∈ g'.nodes, h ∈ g.nodes ∧ g'.generation h = g.generation h := by
    intro h hh
    obtain ⟨v, hv⟩ := isSome_iff_exists.1 (AList.lookup_isSome.2 hh)
    have hv' := hnodes h v hv
    exact ⟨AList.lookup_isSome.1 (by simp [hv']), by simp [Graph.generation, hv, hv']⟩
  constructor
  · intro h hh
    obtain ⟨hmem, heq⟩ := hkeep h hh
    rw [heq]
    exact hg.positive h hmem
  · intro hs h p hp hpn
    obtain ⟨hpm, hpe⟩ := hkeep p hpn
    rw [hpe, (hkeep h (mem_expandParents.1 hp).2.2.1).2]
    exact hg.descending (hstale hs) h p (hedges h p hp) hpm

/-- **Storing.** The new commit is above its parents; its resident children have to be above it already. -/
theorem Sound.store (hg : Sound L g) (hfit : g.genStale = true ∨ g.parentsResident L h = false ∨
    ∀ c, h ∈ g.expandParents L c → g.deriveGeneration L h < g.generation c) : Sound L (g.storeCommit L h) := by
  have hself : (g.storeCommit L h).generation h = g.deriveGeneration L h := by
    simp [Graph.generation, Graph.storeCommit]
  have hother : ∀ c, c ≠ h → (g.storeCommit L h).generation c = g.generation c := by
    intro c hc
    simp [Graph.generation, Graph.storeCommit, AList.lookup_insert_ne hc]
  have hmem : ∀ c, c ≠ h → c ∈ (g.storeCommit L h).nodes → c ∈ g.nodes := by
    intro c hc hcn
    exact ((AList.mem_insert _).1 hcn).resolve_left hc
  constructor
  · intro c hc
    by_cases hch : c = h
    · rw [hch, hself]
      exact Nat.succ_pos _
    · rw [hother c hch]
      exact hg.positive c (hmem c hch hc)
  · intro hs c p hp hpn
    obtain ⟨hstale, hres⟩ : g.genStale = false ∧ g.parentsResident L h = true := by
      simpa [Graph.storeCommit] using hs
    obtain ⟨hstub, hshallow, hcn, hpar⟩ := mem_expandParents.1 hp
    by_cases hch : c = h
    · subst hch
      have hpc : p ≠ c := by
        rintro rfl
        exact lt_irrefl _ (L.rank_lt p p hpar)
      rw [hself, hother p hpc]
      exact generation_lt_derive hpar
    · have hp' : p ∈ g.expandParents L c := mem_expandParents.2 ⟨hstub, hshallow, hmem c hch hcn, hpar⟩
      rw [hother c hch]
      by_cases hph : p = h
      · subst hph
        rw [hself]
        rcases hfit with hfit | hfit | hfit
        · rw [hstale] at hfit
          cases hfit
        · rw [hres] at hfit
          cases hfit
        · exact hfit c hp'
      · rw [hother p hph]
        exact hg.descending hstale c p hp' (hmem p hph hpn)

/-! ## Numbering the whole graph -/

theorem renumber_spec : (g.links L).Numbered g.settled (g.renumber L) ∧ ∀ h ∈ g.nodes, h ∈ g.renumber L := by
  have key : ∀ (hs : List H) (gen : AList fun _ : H => ℕ), (g.links L).Numbered g.settled gen →
      (g.links L).Numbered g.settled (hs.foldl (fun gen h => (g.links L).settle g.settled gen h) gen) ∧
        ∀ h, h ∈ gen ∨ h ∈ hs → h ∈ hs.foldl (fun gen h => (g.links L).settle g.settled gen h) gen := by
    intro hs
    induction hs with
    | nil => exact fun gen hgen => ⟨hgen, fun h hh => hh.resolve_right not_mem_nil⟩
    | cons x hs ih =>
      intro gen hgen
      obtain ⟨hnum, hmono, -, hx⟩ := settle_spec hgen x
      obtain ⟨h1, h2⟩ := ih _ hnum
      refine ⟨h1, fun h hh => h2 h ?_⟩
      rcases hh with hh | hh
      · exact .inl (hmono h hh)
      · rcases mem_cons.1 hh with rfl | hh
        · exact .inl hx
        · exact .inr hh
  obtain ⟨h1, h2⟩ := key g.nodes.keys ∅ (fun x v hv => by simp at hv)
  exact ⟨h1, fun h hh => h2 h (.inr hh)⟩

/-- writing numbers back to the commits that are there -/
theorem lookup_writeBack (es : List (Sigma fun _ : H => ℕ)) {f : H → ℕ} (hf : ∀ e ∈ es, e.2 = f e.1)
    (nodes : AList fun _ : H => ℕ) (h : H) :
    (es.foldl (fun nodes e => if e.1 ∈ nodes then nodes.insert e.1 e.2 else nodes) nodes).lookup h =
      if h ∈ nodes ∧ h ∈ es.map Sigma.fst then some (f h) else nodes.lookup h := by
  induction es generalizing nodes with
  | nil => simp
  | cons e es ih =>
    rw [foldl_cons, ih fun e he => hf e (.tail _ he)]
    have he : e.2 = f e.1 := hf e (.head _)
    by_cases hmem : e.1 ∈ nodes
    · rw [if_pos hmem]
      by_cases hh : h = e.1
      · subst hh
        simp [hmem, he]
      · rw [AList.lookup_insert_ne hh]
        exact if_congr (by simp [hh]) rfl rfl
    · rw [if_neg hmem]
      by_cases hh : h = e.1
      · subst hh
        simp [hmem]
      · exact if_congr (by simp [hh]) rfl rfl

theorem recompute_lookup (h : H) : (g.recomputeGenerations L).nodes.lookup h =
    if h ∈ g.nodes then some ((g.links L).number g.settled h) else none := by
  obtain ⟨hnum, hall⟩ := renumber_spec (L := L) (g := g)
  rw [Graph.recomputeGenerations, lookup_writeBack _ (f := (g.links L).number g.settled)]
  · by_cases hh : h ∈ g.nodes
    · have : h ∈ (g.renumber L).entries.map Sigma.fst := hall h hh
      rw [if_pos ⟨hh, this⟩, if_pos hh]
    · rw [if_neg (fun hc => hh hc.1), if_neg hh, AList.lookup_eq_none.2 hh]
  · intro e he
    exact hnum e.1 e.2 (AList.mem_lookup_iff.2 he)

theorem recompute_mem : h ∈ (g.recomputeGenerations L).nodes ↔ h ∈ g.nodes := by
  rw [← AList.lookup_isSome, recompute_lookup]
  split <;> simp_all

theorem recompute_expandParents : (g.recomputeGenerations L).expandParents L = g.expandParents L := by
  funext h
  have hmem : h ∈ (g.recomputeGenerations L).nodes ↔ h ∈ g.nodes := recompute_mem
  simp only [Graph.expandParents, hmem]
  rfl

theorem recompute_sound : Sound L (g.recomputeGenerations L) := by
  have hgen : ∀ h ∈ g.nodes, (g.recomputeGenerations L).generation h =
      ((L.parents h).map ((g.links L).number g.settled)).foldl max 0 + 1 := by
    intro h hh
    rw [Graph.generation, recompute_lookup, if_pos hh, number_eq]
    simp [Graph.links, Graph.settled, hh]
  constructor
  · intro h hh
    rw [hgen h (recompute_mem.1 hh)]
    exact Nat.succ_pos _
  · intro _ h p hp hpn
    rw [recompute_expandParents] at hp
    obtain ⟨-, -, hh, hpar⟩ := mem_expandParents.1 hp
    rw [hgen h hh, Graph.generation, recompute_lookup, if_pos (recompute_mem.1 hpn)]
    exact Nat.lt_succ_of_le (le_foldl_max (.inr (mem_map_of_mem hpar)))

theorem Sound.ensure (hg : Sound L g) : Sound L (g.ensureGenerations L) ∧ (g.ensureGenerations L).genStale = false := by
  unfold Graph.ensureGenerations
  split
  · exact ⟨recompute_sound, rfl⟩
  · exact ⟨hg, by simp_all⟩

theorem ensure_expandParents : (g.ensureGenerations L).expandParents L = g.expandParents L := by
  unfold Graph.ensureGenerations
  split
  · exact recompute_expandParents
  · rfl

/-! ## The walk -/

/-- below a commit, a resident one has a number no higher -/
theorem Sound.generation_le (hg : Sound L g) (hs : g.genStale = false) {a d : H} (hb : (g.walks L).Below a d)
    (ha : a ∈ g.nodes) : d ∈ g.nodes ∧ g.generation a ≤ g.generation d := by
  induction hb with
  | refl => exact ⟨ha, le_rfl⟩
  | step hp _ ih =>
    obtain ⟨hpn, hle⟩ := ih
    exact ⟨(mem_expandParents.1 hp).2.2.1, hle.trans (hg.descending hs _ _ hp hpn).le⟩

/-- **Pruning loses nothing.** Over sound numbers the pruned walk finds what the plain one does. -/
theorem Sound.isAncestorPruned_iff (hg : Sound L g) (hs : g.genStale = false) (a d : H) :
    g.isAncestorPruned L a d = true ↔ a ∈ g.ancestorClosure L d := by
  have hclosure : a ∈ g.ancestorClosure L d ↔ (g.walks L).Below a d := by
    rw [Graph.ancestorClosure, mem_explore]
    simp
  have hpruned : g.isAncestorPruned L a d = true ↔ (g.prunedWalks L (g.generation a)).Below a d := by
    rw [Graph.isAncestorPruned, Bool.or_eq_true, finds_iff]
    constructor
    · rintro (h | ⟨x, hx, hb⟩)
      · obtain rfl := of_decide_eq_true h
        exact .refl
      · exact mem_singleton.1 hx ▸ hb
    · intro hb
      exact .inr ⟨d, mem_singleton.2 rfl, hb⟩
  rw [hclosure, hpruned]
  refine ⟨below_of_cut, fun hb => hb.cut fun x hax hne _ => ?_⟩
  -- a commit with a resident ancestor below it is above the floor
  obtain ⟨p, hp, hap⟩ := below_ne_iff.1 ⟨hax, hne⟩
  rw [Bool.and_eq_false_iff, decide_eq_false_iff_not, decide_eq_false_iff_not, Nat.not_lt, Nat.not_le]
  rcases Nat.eq_zero_or_pos (g.generation a) with hzero | hpos
  · exact .inl hzero.le
  · obtain ⟨hpn, hle⟩ := hg.generation_le hs hap (mem_of_generation_pos hpos)
    exact .inr (hle.trans_lt (hg.descending hs x p hp hpn))

/-! ## Steps and runs -/

theorem Admits.fits (ha : Admits L g h) (hh : h ∉ g.nodes) : g.genStale = true ∨ g.parentsResident L h = false ∨
    ∀ c, h ∈ g.expandParents L c → g.deriveGeneration L h < g.generation c := by
  rcases ha with ha | ha | ha | ha
  · exact absurd ha hh
  · exact .inl ha
  · exact .inr (.inl ha)
  · exact .inr (.inr fun c hc => absurd hc (ha c (mem_expandParents.1 hc).2.2.1))

theorem Sound.putCommit (hg : Sound L g) (ha : Admits L g h) (requireParents : Bool) :
    Sound L (g.putCommit L h requireParents) := by
  unfold Graph.putCommit
  split_ifs with hh
  · exact hg
  · exact hg
  · exact hg.store (ha.fits hh)

theorem Sound.shallow_insert (hg : Sound L g) (h : H) : Sound L { g with shallow := insert h g.shallow } := by
  refine hg.shrink (fun _ _ hv => hv) ?_ id
  intro c p hp
  obtain ⟨hstub, hshallow, hrest⟩ := mem_expandParents.1 hp
  exact mem_expandParents.2 ⟨hstub, fun hc => hshallow (Finset.mem_insert_of_mem hc), hrest⟩

theorem Sound.stub_insert (hg : Sound L g) (h : H) : Sound L { g with stubs := insert h g.stubs } := by
  refine hg.shrink (fun _ _ hv => hv) ?_ id
  intro c p hp
  obtain ⟨hstub, hrest⟩ := mem_expandParents.1 hp
  exact mem_expandParents.2 ⟨fun hc => hstub (Finset.mem_insert_of_mem hc), hrest⟩

/-- branches, tags, pins and a raised flag do not matter -/
theorem Sound.congr (hg : Sound L g) (hnodes : g'.nodes = g.nodes) (hstubs : g'.stubs = g.stubs)
    (hshallow : g'.shallow = g.shallow) (hstale : g'.genStale = false → g.genStale = false) : Sound L g' := by
  refine hg.shrink (fun _ _ hv => hnodes ▸ hv) ?_ hstale
  intro c p hp
  rw [mem_expandParents, hnodes, hstubs, hshallow] at hp
  exact mem_expandParents.2 hp

/-- what is left of the commits when a window goes -/
theorem lookup_of_eraseAll (window : List H) {nodes : AList fun _ : H => ℕ} {v : ℕ} {c : H}
    (hv : (window.foldl (fun nodes h => nodes.erase h) nodes).lookup c = some v) :
    c ∉ window ∧ nodes.lookup c = some v := by
  rw [Entries.lookup_eraseAll] at hv
  split_ifs at hv with hc
  exact ⟨hc, hv⟩

theorem Sound.stubCommit (hg : Sound L g) (h : H) : Sound L (g.stubCommit h) := by
  unfold Graph.stubCommit
  split
  · exact hg
  split
  · exact hg
  refine (hg.stub_insert h).shrink (fun c v hv => (lookup_of_eraseAll [h] hv).2) ?_ id
  intro c p hp
  obtain ⟨hstub, hshallow, hc, hpar⟩ := mem_expandParents.1 hp
  exact mem_expandParents.2 ⟨hstub, hshallow, (AList.mem_erase.1 hc).2, hpar⟩

theorem Sound.dropShallowCommit (hg : Sound L g) (h : H) : Sound L (g.dropShallowCommit L h) := by
  unfold Graph.dropShallowCommit
  iterate 6
    split
    · exact hg
  refine hg.shrink (fun c v hv => (lookup_of_eraseAll [h] hv).2) ?_ id
  intro c p hp
  obtain ⟨hstub, hshallow, hc, hpar⟩ := mem_expandParents.1 hp
  obtain ⟨hne, hc⟩ := AList.mem_erase.1 hc
  exact mem_expandParents.2 ⟨hstub, fun hs => hshallow (Finset.mem_erase.2 ⟨hne, hs⟩), hc, hpar⟩

theorem Sound.squash (hg : Sound L g) (window : List H) (boundary : H) (synthetic : { h : H // L.parents h = [] })
    (ha : Admits L g synthetic) : Sound L (g.squash L window boundary synthetic) := by
  obtain ⟨synthetic, hroot⟩ := synthetic
  simp only [Graph.squash]
  iterate 4
    split
    · exact hg
  set g₁ : Graph H := { g with
    tags := g.tags.image fun t => if t ∈ window then synthetic else t
    nodes := window.foldl (fun nodes h => nodes.erase h) g.nodes
    stubs := g.stubs.filter (· ∉ window) } with hg₁
  have hlook : ∀ c v, g₁.nodes.lookup c = some v → g.nodes.lookup c = some v :=
    fun c v hv => (lookup_of_eraseAll window hv).2
  have hmem : ∀ c ∈ g₁.nodes, c ∉ window ∧ c ∈ g.nodes ∧ g₁.generation c = g.generation c := by
    intro c hc
    obtain ⟨v, hv⟩ := isSome_iff_exists.1 (AList.lookup_isSome.2 hc)
    obtain ⟨hw, hv'⟩ := lookup_of_eraseAll window hv
    exact ⟨hw, AList.lookup_isSome.1 (by simp [hv']), by simp [Graph.generation, hv, hv']⟩
  have hedges : ∀ c p, p ∈ g₁.expandParents L c → p ∈ g.expandParents L c := by
    intro c p hp
    obtain ⟨hstub, hshallow, hc, hpar⟩ := mem_expandParents.1 hp
    obtain ⟨hw, hc, -⟩ := hmem c hc
    refine mem_expandParents.2 ⟨fun hs => hstub ?_, hshallow, hc, hpar⟩
    exact Finset.mem_filter.2 ⟨hs, by simpa using hw⟩
  apply (hg.shrink hlook hedges id).store
  by_cases hs : g.genStale = true
  · exact .inl hs
  refine .inr (.inr fun c hc => ?_)
  have hderive : g₁.deriveGeneration L synthetic = 1 := by simp [Graph.deriveGeneration, hroot]
  rw [(hmem c (mem_expandParents.1 hc).2.2.1).2.2]
  rcases ha with ha | ha | ha | ha
  · have hpos := hg.positive synthetic ha
    have hlt := hg.descending (by simpa using hs) c synthetic (hedges c synthetic hc) ha
    omega
  · exact absurd ha hs
  · simp [Graph.parentsResident, hroot] at ha
  · exact absurd (hedges c synthetic hc) (ha c (mem_expandParents.1 (hedges c synthetic hc)).2.2.1)

/-- **Step.** Every guarded operation keeps the numbers sound. -/
theorem step_sound (g : Graph H) (o : Op L) (ho : Guarded L g o) (hg : Sound L g) : Sound L (step L g o) := by
  cases o with
  | putCommit h requireParents => exact hg.putCommit ho requireParents
  | putShallowCommit h =>
    simp only [step, Graph.putShallowCommit]
    split
    · exact hg
    · exact (hg.putCommit ho false).shallow_insert h
  | appendCommit h expectedHead =>
    simp only [step, Graph.appendCommit]
    split_ifs
    · exact hg
    · exact hg
    · exact (hg.putCommit ho true).congr rfl rfl rfl id
  | restoreCheckpoint hs main branches tags =>
    have hrun : Sound L (g.restoreCommits L hs) := run_of_step (fun g h ha hg => hg.putCommit ha false) ho hg
    exact hrun.congr rfl rfl rfl id
  | stubCommit h => exact hg.stubCommit h
  | putStub h =>
    simp only [step, Graph.putStub]
    split_ifs
    · exact hg
    · exact hg
    · exact hg.stub_insert h
  | dropShallowCommit h => exact hg.dropShallowCommit h
  | markShallow h =>
    simp only [step, Graph.markShallow]
    split
    · exact hg
    · exact hg.shallow_insert h
  | unshallow h =>
    simp only [step, Graph.unshallow]
    iterate 3
      split
      · exact hg
    exact ⟨hg.positive, nofun⟩
  | invalidateGenerations => exact ⟨hg.positive, nofun⟩
  | squash window boundary synthetic => exact hg.squash window boundary synthetic ho
  | refs main branches tags pins => exact hg.congr rfl rfl rfl id
  | query => exact hg.ensure.1

theorem new_sound (genesis : H) : Sound L (Graph.new genesis) := by
  have hmem : ∀ h, h ∈ (Graph.new genesis).nodes → h = genesis := by
    intro h hh
    exact mem_singleton.1 hh
  constructor
  · intro h hh
    rw [hmem h hh, Graph.generation, Graph.new, AList.singleton, AList.lookup, dlookup_cons_eq]
    exact Nat.one_pos
  · intro _ h p hp hpn
    obtain ⟨-, -, hh, hpar⟩ := mem_expandParents.1 hp
    have heq : p = h := (hmem p hpn).trans (hmem h hh).symm
    subst heq
    exact absurd (L.rank_lt p p hpar) (lt_irrefl _)

/-- **Pruned ancestry is plain ancestry.** In a run that stores a commit under resident children only while the numbers are
stale, every query answers what the ancestor closure says; and numbers that are not stale fall along every edge followed
between resident commits. -/
theorem pruned_ancestry_agrees (L : RankedGraph H) (genesis : H) (ops : List (Op L))
    (hops : Along (step L) (Guarded L) (Graph.new genesis) ops) :
    (∀ a d, (run (step L) (Graph.new genesis) ops).isAncestor L a d = true ↔
      a ∈ (run (step L) (Graph.new genesis) ops).ancestorClosure L d) ∧
    ((run (step L) (Graph.new genesis) ops).genStale = false →
      ∀ h p, h ∈ (run (step L) (Graph.new genesis) ops).nodes →
        p ∈ (run (step L) (Graph.new genesis) ops).expandParents L h →
        p ∈ (run (step L) (Graph.new genesis) ops).nodes →
        (run (step L) (Graph.new genesis) ops).generation p < (run (step L) (Graph.new genesis) ops).generation h) := by
  have hg : Sound L (run (step L) (Graph.new genesis) ops) := run_of_step step_sound hops (new_sound genesis)
  set g := run (step L) (Graph.new genesis) ops
  refine ⟨fun a d => ?_, fun hs h p _ hp hpn => hg.descending hs h p hp hpn⟩
  obtain ⟨hsound, hfresh⟩ := hg.ensure
  have hwalks : (g.ensureGenerations L).walks L = g.walks L := by
    simp only [Graph.walks, ensure_expandParents]
  rw [Graph.isAncestor, hsound.isAncestorPruned_iff hfresh, Graph.ancestorClosure, hwalks, Graph.ancestorClosure]

/-- commits in a line, each with the one before it as parent -/
def line : RankedGraph ℕ where
  parents := fun n => if n = 0 then [] else [n - 1]
  rank := id
  rank_lt := by
    intro n p hp
    split at hp
    · cases hp
    · rw [mem_singleton] at hp
      simp only [id]
      omega

/-- a commit before its parent, a shallow root that gets its history, a stub and a squashed window -/
def guardedRun : List (Op line) :=
  [.appendCommit 1 (some 0), .putCommit 3 false, .putCommit 2 true, .query, .putShallowCommit 5, .putCommit 4 true,
    .unshallow 5, .query, .restoreCheckpoint [7, 6] 7 ∅ {3}, .stubCommit 2, .squash [3] 4 ⟨0, rfl⟩, .markShallow 4]

theorem pruned_ancestry_agrees_guardedRun : Along (step line) (Guarded line) (Graph.new 0) guardedRun ∧
    (run (step line) (Graph.new 0) guardedRun).isAncestor line 5 7 = true := by
  have hops : Along (step line) (Guarded line) (Graph.new 0) guardedRun := by decide +kernel
  refine ⟨hops, ((pruned_ancestry_agrees line 0 guardedRun hops).1 5 7).2 ?_⟩
  decide +kernel

/-- **A late parent is pruned.** A commit stored over a stub of its parent is number one, and the parent that then arrives
whole is number two: the commit's own parent is not found below it. The same after a query that cleared the flag. -/
theorem late_parent_pruned :
    ((run (step line) (Graph.new 0) [.putStub 1, .putCommit 2 true, .putCommit 1 true]).isAncestor line 1 2 = false ∧
      1 ∈ (run (step line) (Graph.new 0) [.putStub 1, .putCommit 2 true, .putCommit 1 true]).ancestorClosure line 2) ∧
    ((run (step line) (Graph.new 0) [.putCommit 2 false, .query, .putCommit 1 true]).isAncestor line 1 2 = false ∧
      1 ∈ (run (step line) (Graph.new 0) [.putCommit 2 false, .query, .putCommit 1 true]).ancestorClosure line 2) := by
  decide +kernel

end Kdb.Ancestry
