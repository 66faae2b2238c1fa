/-
Tree objects of the objects history strategy (`storage/engine/tree_objects.go`: `putTreeObject`, `treeFromObjects`;
`server_engine.go`: `commitTreeLocked`; `snapshot_bulk.go`: `applySnapshotBatchLocked`).

Each published tree is recorded under its hash: in full, or as the changes against a base tree named by its hash. A
reader walks from object to object until it meets a full one, the empty tree or a tree in memory, and applies the
changes forward. How far it may walk is written in the first object; the writer counts the chain behind each tree in
memory and writes a full object once the counted entries reach the size of the tree.

- `published_trees_resolvable`: the objects resolve every tree ever published, in every run whose records are
  `Recordable`.
- `recorded_trees_unresolvable`: what `Recordable` excludes: a base without an object, trees recorded against each
  other, counts forgotten by a restart.

Trees hold document contents in place of content hashes, and are named by a collision free hash. Objects are modelled as
records (their encoding, the memtable and its tables as one map); document bodies, pins and locations are left out. Any
of the published trees may be in the cache: evictions, reads and the replay after a restart are labels that say which.
-/
import Kdb.Lib.Machine
import Kdb.Document.Commit

namespace Kdb.TreeObjects

open Kdb.Machine List

variable {H : Type} [DecidableEq H]

/-! ## Objects and the engine -/

/-- `TreeChange`: a document and its content -/
abbrev TreeChange := DocId × Fields

/-- `treeObject`; a full one is the whole tree over the empty one -/
structure TreeObject (H : Type) where
  full : Bool
  baseHash : H
  chainLen : ℤ
  puts : List TreeChange
  deletes : List DocId

/-- `treeChainState`: the objects behind a tree and the entries they carry -/
structure ChainState where
  objects : ℕ := 0
  entries : ℕ := 0

/-- the engine's object store, its chain counts, the live tree, the trees in memory besides it, and every tree it has
published -/
structure Engine (H : Type) where
  memTable : AList fun _ : H => TreeObject H := ∅
  treeChain : H → ChainState := fun _ => {}
  tree : Tree := ∅
  treesByHash : List Tree := []
  published : List Tree := [∅]

def defaultTreeChainLimit : ℕ := 32

def maxTreeChainWalk : ℕ := 1048576

/-- `treeChainLimit`: the configured chain floor, or the default -/
def treeChainLimit (configured : ℕ) : ℕ := if 0 < configured then configured else defaultTreeChainLimit

def treeChainFullAt (limit size : ℕ) : ℕ := if size < limit then limit else size

/-- a Go `int32` conversion -/
def int32 (n : ℕ) : ℤ := Int.bmod n 4294967296

variable (t : Tree)

def withoutDocs (deletes : List DocId) : Tree := deletes.foldl (fun t d => t.erase d) t

def withPuts (puts : List TreeChange) : Tree := puts.foldl (fun t p => t.insert p.1 p.2) t

def applyObject (o : TreeObject H) : Tree := withPuts (withoutDocs t o.deletes) o.puts

variable (hash : Tree → H)

/-! ## Recording -/

/-- what stands behind a tree recorded against `base` -/
def Engine.chainAfter (e : Engine H) (base : Tree) (puts : List TreeChange) (deletes : List DocId) : ChainState :=
  let prev := e.treeChain (hash base)
  ⟨prev.objects + 1, prev.entries + puts.length + deletes.length⟩

variable (limit : ℕ)

/-- the chain has cost as much as the full object would -/
def Engine.fullDue (e : Engine H) (base result : Tree) (puts : List TreeChange) (deletes : List DocId) : Bool :=
  treeChainFullAt limit result.size ≤ (e.chainAfter hash base puts deletes).entries

def Engine.putTreeObject (e : Engine H) (base result : Tree) (puts : List TreeChange) (deletes : List DocId) : Engine H :=
  let chain := e.chainAfter hash base puts deletes
  if e.fullDue hash limit base result puts deletes then
    { e with
      memTable := e.memTable.insert (hash result) ⟨true, hash ∅, 0, result.toList, []⟩
      treeChain := Function.update e.treeChain (hash result) {} }
  else
    { e with
      memTable := e.memTable.insert (hash result) ⟨false, hash base, int32 chain.objects, puts, deletes⟩
      treeChain := Function.update e.treeChain (hash result) chain }

/-- `publishTreeLocked`; the tree it replaces as the live one stays in the store -/
def Engine.publishTree (e : Engine H) (t : Tree) : Engine H :=
  { e with tree := t, treesByHash := t :: e.treesByHash, published := t :: e.published }

/-- `commitTreeLocked` over the staged puts and deletes: the object's base is the tree after the deletes -/
def Engine.commitTree (e : Engine H) (puts : List TreeChange) (deletes : List DocId) : Engine H :=
  let base := withoutDocs e.tree deletes
  let result := withPuts base puts
  let e := if puts = [] && deletes = [] then e else e.putTreeObject hash limit base result puts deletes
  e.publishTree result

def Engine.applySnapshotBatch (e : Engine H) (docs : List TreeChange) : Engine H :=
  let result := withPuts e.tree docs
  let e := if docs = [] then e else e.putTreeObject hash limit e.tree result docs []
  e.publishTree result

/-! ## Resolving -/

/-- `cachedTreeFor`: the live tree, then the store -/
def Engine.cachedTreeFor (e : Engine H) (h : H) : Option Tree := (e.tree :: e.treesByHash).find? fun t => hash t = h

/-- how many objects behind the first one a resolution may visit -/
def walkLimit (chainLen : ℤ) : ℕ :=
  if (limit : ℤ) ≤ chainLen then min (chainLen + 1).toNat maxTreeChainWalk else limit

/-- the walk behind the first object: where it is grounded, and the objects from there on, oldest first -/
def Engine.ground (e : Engine H) : ℕ → H → Option (Tree × List (TreeObject H))
  | 0, _ => none
  | n + 1, current =>
    if current = hash ∅ then some (∅, [])
    else match e.cachedTreeFor hash current with
      | some t => some (t, [])
      | none =>
        match e.memTable.lookup current with
        | none => none
        | some o => if o.full then some (∅, [o]) else (e.ground n o.baseHash).map fun g => (g.1, g.2 ++ [o])

/-- the forward pass, and the check against the hash asked for -/
def applyChain (h : H) (g : Tree × List (TreeObject H)) : Option Tree :=
  let tree := g.2.foldl applyObject g.1
  if hash tree = h then some tree else none

def Engine.treeFromObjects (e : Engine H) (h : H) : Option Tree :=
  if h = hash ∅ then some ∅
  else match e.memTable.lookup h with
    | none => none
    | some o =>
      if o.full then applyChain hash h (∅, [o])
      else (e.ground hash (walkLimit limit o.chainLen) o.baseHash).bind fun g => applyChain hash h (g.1, g.2 ++ [o])

/-! ## Runs -/

/-- a commit, a snapshot batch, a change of what is in memory, or a restart: the counts are gone, the objects and the live
tree are there again, and the replay has built and published some of the trees -/
inductive Event where
  | commit (puts : List TreeChange) (deletes : List DocId)
  | snapshotBatch (docs : List TreeChange)
  | cache (resident : Tree → Bool)
  | restart (resident : Tree → Bool)

def Engine.step (e : Engine H) : Event → Engine H
  | .commit puts deletes => e.commitTree hash limit puts deletes
  | .snapshotBatch docs => e.applySnapshotBatch hash limit docs
  | .cache resident => { e with treesByHash := e.published.filter resident }
  | .restart resident => { e with treesByHash := e.published.filter resident, treeChain := fun _ => {} }

/-- following the stored objects from `h`, with no tree in memory, meets a full object or the empty tree within `n` steps -/
def grounds (memTable : AList fun _ : H => TreeObject H) : ℕ → H → Bool
  | 0, _ => false
  | n + 1, h =>
    h = hash ∅ ||
      match memTable.lookup h with
      | none => false
      | some o => o.full || grounds memTable n o.baseHash

/-- a record that keeps every tree resolvable: it is full, or the result has no object yet and its base is grounded within
what the new object's chain length allows; the empty tree needs no object -/
def Engine.Recordable (e : Engine H) (base result : Tree) (puts : List TreeChange) (deletes : List DocId) : Prop :=
  e.fullDue hash limit base result puts deletes = true ∨ result = ∅ ∨
    hash result ∉ e.memTable ∧
      grounds hash e.memTable (walkLimit limit (int32 (e.chainAfter hash base puts deletes).objects)) (hash base) = true

/-- the guard of a run: commits and batches that change anything are recordable -/
def Guarded (e : Engine H) : Event → Prop
  | .commit puts deletes =>
    puts = [] ∧ deletes = [] ∨
      e.Recordable hash limit (withoutDocs e.tree deletes) (withPuts (withoutDocs e.tree deletes) puts) puts deletes
  | .snapshotBatch docs => docs = [] ∨ e.Recordable hash limit e.tree (withPuts e.tree docs) docs []
  | _ => True

instance (limit : ℕ) (e : Engine H) (base result : Tree) (puts : List TreeChange) (deletes : List DocId) :
    Decidable (e.Recordable hash limit base result puts deletes) := inferInstanceAs (Decidable (_ ∨ _ ∨ _ ∧ _))

instance (limit : ℕ) (e : Engine H) : ∀ ev, Decidable (Guarded hash limit e ev)
  | .commit _ _ => inferInstanceAs (Decidable (_ ∧ _ ∨ _))
  | .snapshotBatch _ => inferInstanceAs (Decidable (_ ∨ _))
  | .cache _ | .restart _ => inferInstanceAs (Decidable True)

/-! ## Objects and the trees they stand for -/

theorem withoutDocs_get (ds : List DocId) (d : DocId) :
    (withoutDocs t ds)[d]? = if d ∈ ds then none else t[d]? := Tree.foldl_erase_get ds t d

theorem withoutDocs_idem (ds : List DocId) : withoutDocs (withoutDocs t ds) ds = withoutDocs t ds := by
  apply Tree.ext_get
  intro d
  rw [withoutDocs_get, withoutDocs_get]
  split <;> rfl

theorem withPuts_toList : withPuts ∅ t.toList = t := by
  rw [withPuts, ← @Std.ExtTreeMap.ofList_eq_foldl _ _ compare]
  apply Tree.ext_get
  intro d
  cases hd : t[d]? with
  | some body =>
    exact Std.ExtTreeMap.getElem?_ofList_of_mem (by simp) Std.ExtTreeMap.distinct_keys_toList
      (Std.ExtTreeMap.mem_toList_iff_getElem?_eq_some.2 hd)
  | none =>
    simp [Std.ExtTreeMap.mem_iff_isSome_getElem?, hd]

variable {hash} {limit : ℕ} {e : Engine H} {memTable : AList fun _ : H => TreeObject H}

/-- what object `o` makes of its base is `t` -/
def Records (hash : Tree → H) (o : TreeObject H) (t : Tree) : Prop :=
  if o.full then applyObject ∅ o = t else ∃ b, o.baseHash = hash b ∧ applyObject b o = t

/-- `n` differences lie between `t` and a full object or the empty tree -/
inductive Grounded (hash : Tree → H) (memTable : AList fun _ : H => TreeObject H) : ℕ → Tree → Prop
  | empty : Grounded hash memTable 0 ∅
  | full {t : Tree} {o : TreeObject H} (ht : t ≠ ∅) (ho : memTable.lookup (hash t) = some o) (hf : o.full = true)
      (happ : applyObject ∅ o = t) : Grounded hash memTable 0 t
  | diff {t b : Tree} {o : TreeObject H} {n : ℕ} (ht : t ≠ ∅) (ho : memTable.lookup (hash t) = some o)
      (hf : o.full = false) (hb : o.baseHash = hash b) (happ : applyObject b o = t) (hg : Grounded hash memTable n b) :
      Grounded hash memTable (n + 1) t

variable {t result : Tree} {fuel : ℕ} {o : TreeObject H}

theorem cachedTreeFor_hash {h : H} (ht : e.cachedTreeFor hash h = some t) : hash t = h := by
  simpa using List.find?_some ht

theorem applyChain_of_eq {b : Tree} {chain : List (TreeObject H)} (h : chain.foldl applyObject b = t) :
    applyChain hash (hash t) (b, chain) = some t := by
  simp [applyChain, h]

section

variable (hinj : Function.Injective hash)
include hinj

/-- the walk grounds a grounded tree, at a cached one on the way or at the end -/
theorem ground_of_grounded {n : ℕ} (hg : Grounded hash e.memTable n t)
    (hn : n < fuel) : ∃ b chain, e.ground hash fuel (hash t) = some (b, chain) ∧ chain.foldl applyObject b = t := by
  obtain ⟨fuel, rfl⟩ : ∃ m, fuel = m + 1 := ⟨fuel - 1, by omega⟩
  induction hg generalizing fuel with
  | empty => exact ⟨∅, [], by simp [Engine.ground], rfl⟩
  | @full t o ht ho hf happ =>
    have hne : hash t ≠ hash ∅ := fun h => ht (hinj h)
    cases hc : e.cachedTreeFor hash (hash t) with
    | some u => exact ⟨u, [], by simp [Engine.ground, hne, hc], hinj (cachedTreeFor_hash hc)⟩
    | none => exact ⟨∅, [o], by simp [Engine.ground, hne, hc, ho, hf], happ⟩
  | @diff t b o n ht ho hf hb happ hg ih =>
    have hne : hash t ≠ hash ∅ := fun h => ht (hinj h)
    cases hc : e.cachedTreeFor hash (hash t) with
    | some u => exact ⟨u, [], by simp [Engine.ground, hne, hc], hinj (cachedTreeFor_hash hc)⟩
    | none =>
      obtain ⟨fuel, rfl⟩ : ∃ m, fuel = m + 1 := ⟨fuel - 1, by omega⟩
      obtain ⟨b', chain, hground, hfold⟩ := ih fuel (by omega)
      refine ⟨b', chain ++ [o], ?_, ?_⟩
      · rw [Engine.ground, if_neg hne, hc, ho]
        simp only [hf, hb, hground, Bool.false_eq_true, if_false, Option.map_some]
      · rw [foldl_append, hfold]
        exact happ

/-- what `grounds` finds is grounded, if every object records the tree it is stored under -/
theorem grounded_of_grounds (hstored : ∀ h o, memTable.lookup h = some o → ∃ t, hash t = h ∧ Records hash o t)
    (hg : grounds hash memTable fuel (hash t) = true) : ∃ n < fuel, Grounded hash memTable n t := by
  induction fuel generalizing t with
  | zero => cases hg
  | succ fuel ih =>
    by_cases ht : t = ∅
    · exact ⟨0, Nat.succ_pos _, ht ▸ .empty⟩
    have hne : hash t ≠ hash ∅ := fun h => ht (hinj h)
    cases ho : memTable.lookup (hash t) with
    | none => simp [grounds, hne, ho] at hg
    | some o =>
      obtain ⟨u, hu, hrec⟩ := hstored _ _ ho
      obtain rfl := hinj hu
      cases hf : o.full with
      | true => exact ⟨0, Nat.succ_pos _, .full ht ho hf (by simpa [Records, hf] using hrec)⟩
      | false =>
        obtain ⟨b, hb, happ⟩ : ∃ b, o.baseHash = hash b ∧ applyObject b o = u := by simpa [Records, hf] using hrec
        obtain ⟨n, hn, hgb⟩ := ih (t := b) (by simpa [grounds, hne, ho, hf, hb] using hg)
        exact ⟨n + 1, Nat.succ_lt_succ hn, .diff ht ho hf hb happ hgb⟩

/-- a new object under `result` brings no tree further from its ground, if nothing was stored there or it is full -/
theorem Grounded.insert (hsafe : result = ∅ ∨ hash result ∉ memTable ∨ o.full = true ∧ applyObject ∅ o = result) {n : ℕ}
    (hg : Grounded hash memTable n t) : ∃ m ≤ n, Grounded hash (memTable.insert (hash result) o) m t := by
  -- away from `result` the objects are the old ones
  have hkeep : ∀ {u : Tree} {o' : TreeObject H}, u ≠ result → memTable.lookup (hash u) = some o' →
      (memTable.insert (hash result) o).lookup (hash u) = some o' := by
    intro u o' hu ho'
    rw [AList.lookup_insert_ne fun h => hu (hinj h), ho']
  have hnew : ∀ {u : Tree} {o' : TreeObject H} (k : ℕ), u ≠ ∅ → u = result → memTable.lookup (hash u) = some o' →
      ∃ m ≤ k, Grounded hash (memTable.insert (hash result) o) m u := by
    rintro u o' k hu rfl ho'
    rcases hsafe with h | h | ⟨hf, happ⟩
    · exact absurd h hu
    · exact absurd (AList.lookup_isSome.1 (by simp [ho'])) h
    · exact ⟨0, Nat.zero_le _, .full hu (AList.lookup_insert _) hf happ⟩
  induction hg with
  | empty => exact ⟨0, le_rfl, .empty⟩
  | @full t o' ht ho hf happ =>
    by_cases hr : t = result
    · exact hnew 0 ht hr ho
    · exact ⟨0, le_rfl, .full ht (hkeep hr ho) hf happ⟩
  | @diff t b o' n ht ho hf hb happ hg ih =>
    by_cases hr : t = result
    · exact hnew _ ht hr ho
    · obtain ⟨m, hm, hgb⟩ := ih
      exact ⟨m + 1, Nat.succ_le_succ hm, .diff ht (hkeep hr ho) hf hb happ hgb⟩

end

/-! ## The invariant -/

structure Inv (hash : Tree → H) (limit : ℕ) (e : Engine H) : Prop where
  live : e.tree ∈ e.published
  stored : ∀ h o, e.memTable.lookup h = some o → ∃ t, hash t = h ∧ Records hash o t
  reach : ∀ t ∈ e.published, t ≠ ∅ → ∃ o n, e.memTable.lookup (hash t) = some o ∧
    n ≤ walkLimit limit o.chainLen ∧ Grounded hash e.memTable n t

section

variable (hinj : Function.Injective hash)
include hinj

theorem Inv.resolves (hi : Inv hash limit e) (ht : t ∈ e.published) :
    e.treeFromObjects hash limit (hash t) = some t := by
  unfold Engine.treeFromObjects
  by_cases hempty : t = ∅
  · simp [hempty]
  obtain ⟨o, n, ho, hn, hg⟩ := hi.reach t ht hempty
  rw [if_neg fun h => hempty (hinj h), ho]
  cases hg with
  | empty => exact absurd rfl hempty
  | full _ ho' hf happ =>
    cases ho.symm.trans ho'
    simp only [hf]
    exact applyChain_of_eq happ
  | diff _ ho' hf hb happ hgb =>
    cases ho.symm.trans ho'
    obtain ⟨b', chain, hground, hfold⟩ := ground_of_grounded hinj hgb hn
    simp only [hf, hb, hground]
    apply applyChain_of_eq
    rw [foldl_append, hfold]
    exact happ

/-- storing a sound object under a published tree, safely and within what it allows -/
theorem Inv.store (hi : Inv hash limit e) (treeChain : H → ChainState) (hrec : Records hash o result)
    (hsafe : result = ∅ ∨ hash result ∉ e.memTable ∨ o.full = true ∧ applyObject ∅ o = result)
    (hreach : result ≠ ∅ → ∃ n ≤ walkLimit limit o.chainLen, Grounded hash (e.memTable.insert (hash result) o) n result) :
    Inv hash limit (Engine.publishTree { e with memTable := e.memTable.insert (hash result) o, treeChain } result) := by
  refine ⟨.head _, ?_, ?_⟩
  · intro h o' ho'
    change (e.memTable.insert (hash result) o).lookup h = some o' at ho'
    by_cases hh : h = hash result
    · subst hh
      rw [AList.lookup_insert] at ho'
      cases ho'
      exact ⟨result, rfl, hrec⟩
    · rw [AList.lookup_insert_ne hh] at ho'
      exact hi.stored h o' ho'
  · intro t ht hempty
    change ∃ o' n, (e.memTable.insert (hash result) o).lookup (hash t) = some o' ∧ _ ∧ _
    by_cases hr : t = result
    · subst hr
      obtain ⟨n, hn, hg⟩ := hreach hempty
      exact ⟨o, n, AList.lookup_insert _, hn, hg⟩
    · obtain ⟨o', n, ho', hn, hg⟩ := hi.reach t ((mem_cons.1 ht).resolve_left hr) hempty
      obtain ⟨m, hm, hg'⟩ := hg.insert hinj hsafe
      exact ⟨o', m, by rw [AList.lookup_insert_ne fun h => hr (hinj h), ho'], hm.trans hn, hg'⟩

/-- recording and publishing a tree under the guard -/
theorem Inv.record (hi : Inv hash limit e) {base : Tree} {puts : List TreeChange}
    {deletes : List DocId} (hbase : withoutDocs base deletes = base)
    (hr : e.Recordable hash limit base (withPuts base puts) puts deletes) :
    Inv hash limit ((e.putTreeObject hash limit base (withPuts base puts) puts deletes).publishTree (withPuts base puts)) := by
  unfold Engine.putTreeObject
  dsimp only
  split
  · -- a full object
    set o : TreeObject H := ⟨true, hash ∅, 0, (withPuts base puts).toList, []⟩
    have happ : applyObject ∅ o = withPuts base puts := withPuts_toList _
    exact hi.store hinj _ happ (.inr (.inr ⟨rfl, happ⟩)) fun hne =>
      ⟨0, Nat.zero_le _, .full hne (AList.lookup_insert _) rfl happ⟩
  · -- a difference against the base
    rename_i hfull
    have hr' := hr.resolve_left hfull
    have hground := fun hne => (hr'.resolve_left hne).2
    generalize int32 (e.chainAfter hash base puts deletes).objects = chainLen at hground ⊢
    set o : TreeObject H := ⟨false, hash base, chainLen, puts, deletes⟩
    have happ : applyObject base o = withPuts base puts := by rw [applyObject, hbase]
    have hsafe : withPuts base puts = ∅ ∨ hash (withPuts base puts) ∉ e.memTable ∨
        o.full = true ∧ applyObject ∅ o = withPuts base puts := hr'.imp_right fun h => .inl h.1
    have hrec : Records hash o (withPuts base puts) := by simpa using ⟨base, rfl, happ⟩
    refine hi.store hinj _ hrec hsafe fun hne => ?_
    obtain ⟨n, hn, hg⟩ := grounded_of_grounds hinj hi.stored (hground hne)
    obtain ⟨m, hm, hg'⟩ := hg.insert hinj hsafe
    exact ⟨m + 1, Nat.succ_le_of_lt (hm.trans_lt hn), .diff hne (AList.lookup_insert _) rfl rfl happ hg'⟩

end

theorem Inv.publishLive (hi : Inv hash limit e) : Inv hash limit (e.publishTree e.tree) := by
  refine ⟨.head _, hi.stored, ?_⟩
  exact forall_mem_cons.2 ⟨hi.reach _ hi.live, hi.reach⟩

theorem inv_step (hinj : Function.Injective hash) (e : Engine H) (ev : Event) (hev : Guarded hash limit e ev)
    (hi : Inv hash limit e) : Inv hash limit (e.step hash limit ev) := by
  cases ev with
  | commit puts deletes =>
    by_cases hnone : puts = [] ∧ deletes = []
    · obtain ⟨rfl, rfl⟩ := hnone
      exact hi.publishLive
    · have hr := hev.resolve_left hnone
      have hcond : (decide (puts = []) && decide (deletes = [])) = false := by simpa using hnone
      simp only [Engine.step, Engine.commitTree, hcond]
      exact hi.record hinj (withoutDocs_idem _ _) hr
  | snapshotBatch docs =>
    by_cases hnone : docs = []
    · subst hnone
      exact hi.publishLive
    · simp only [Engine.step, Engine.applySnapshotBatch, if_neg hnone]
      exact hi.record hinj rfl (hev.resolve_left hnone)
  | cache resident => exact ⟨hi.live, hi.stored, hi.reach⟩
  | restart resident => exact ⟨hi.live, hi.stored, hi.reach⟩

theorem inv_init : Inv hash limit ({} : Engine H) := by
  refine ⟨mem_singleton.2 rfl, fun h o ho => by simp at ho, ?_⟩
  intro t ht hempty
  exact absurd (mem_singleton.1 ht) hempty

/-- **Published trees stay resolvable.** In every run of commits, snapshot batches, cache changes and restarts in which
every commit and batch that changes something is `Recordable`, the objects resolve the hash of every tree ever published
to exactly that tree. -/
theorem published_trees_resolvable (hinj : Function.Injective hash) (configured : ℕ) (events : List Event)
    (hguard : Along (Engine.step hash (treeChainLimit configured)) (Guarded hash (treeChainLimit configured)) {} events) :
    ∀ t ∈ (run (Engine.step hash (treeChainLimit configured)) {} events).published,
      (run (Engine.step hash (treeChainLimit configured)) {} events).treeFromObjects hash (treeChainLimit configured)
        (hash t) = some t := by
  intro t ht
  have hi := run_of_step (I := Inv hash (treeChainLimit configured)) (inv_step hinj) hguard inv_init
  exact hi.resolves hinj ht

/-- a document body -/
def body (n : ℤ) : Fields := [("v", .num n)]

/-- four documents, three changes of one of them with a restart between, and an empty cache -/
def changesRun : List Event :=
  [.snapshotBatch [(1, body 0), (2, body 0), (3, body 0), (4, body 0)], .commit [(1, body 1)] [], .restart fun _ => false,
    .commit [(1, body 2)] [], .commit [(5, body 0)] [], .cache fun _ => false]

/-- the tree of `changesRun` before the last commit -/
def changesTree : Tree := withPuts ∅ [(1, body 2), (2, body 0), (3, body 0), (4, body 0)]

theorem published_trees_resolvable_changesRun :
    let e := run (Engine.step id (treeChainLimit 2)) {} changesRun
    changesTree ∈ e.published ∧ e.treeFromObjects id (treeChainLimit 2) changesTree = some changesTree :=
  ⟨by decide +kernel,
    published_trees_resolvable Function.injective_id 2 changesRun (by decide +kernel) changesTree (by decide +kernel)⟩

/-- **Trees the objects lose.** (1) A commit that deletes one document and puts another: its base, the tree between the
two, was never recorded. (2) A commit that only deletes is recorded against itself. (3) A document set back to its
first content: the two trees are recorded against each other. (4) A restart between changes: the chain is longer than its
last object says. -/
theorem recorded_trees_unresolvable :
    let after := fun (configured : ℕ) (events : List Event) =>
      run (Engine.step id (treeChainLimit configured)) {} (events ++ [.cache fun _ => false])
    let lost := fun (configured : ℕ) (events : List Event) (t : Tree) =>
      t ∈ (after configured events).published ∧
        (after configured events).treeFromObjects id (treeChainLimit configured) t = none
    let four := Event.snapshotBatch [(1, body 0), (2, body 0), (3, body 0), (4, body 0)]
    lost 2 [four, .commit [(5, body 0)] [1]] (withPuts ∅ [(2, body 0), (3, body 0), (4, body 0), (5, body 0)]) ∧
      lost 2 [four, .commit [] [1], .commit [(5, body 0)] []] (withPuts ∅ [(2, body 0), (3, body 0), (4, body 0)]) ∧
      lost 4 [.commit [(1, body 0)] [], .commit [(1, body 1)] [], .commit [(1, body 0)] [], .commit [(2, body 0)] []]
        (withPuts ∅ [(1, body 0)]) ∧
      lost 2 [four, .commit [(1, body 1)] [], .commit [(1, body 2)] [], .restart fun _ => false, .commit [(1, body 3)] [],
          .commit [(1, body 4)] []] (withPuts ∅ [(1, body 4), (2, body 0), (3, body 0), (4, body 0)]) := by
  decide +kernel

end Kdb.TreeObjects
