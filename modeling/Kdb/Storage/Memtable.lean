/-
The memtable over its SSTables (`storage/memtable/memtable.go` Manager): Put and Delete in the active generation, Get and
Contains from the newest of active generation, generation being flushed and tables that knows the key, Flush to a new
table, and compactions of the tables.

- `memtable_is_map`: Get returns the last Put of a key with no later Delete, and Contains agrees, in every run that is
  `Safe`.
- `failed_flush_lost`: what a failed Flush held is lost by the next one; a flush to a higher level lands under older
  tables.
Get and Contains change nothing, so a run is its Puts, Deletes, Flushes and compactions. A Flush's failure is part of its
label: naming the table (no age is used up) or writing it.
-/
import Kdb.Lib.Machine
import Kdb.Storage.BlobStore

namespace Kdb.Memtable

open Machine Sstable Option

variable {κ : Type} [LinearOrder κ]

/-! ## The manager -/

structure Manager (κ : Type) where
  active : SortedTable κ
  pendingFlush : Option (SortedTable κ)
  blobStore : LsmBlobStore κ

/-- `NewManager` over a new blob store -/
def Manager.new : Manager κ := ⟨.new, none, .new⟩

variable (mgr : Manager κ)

def Manager.get (fault : Handle κ → Option ReadFault) (key : κ) : Option Bytes :=
  match mgr.active.lookupShared key with
  | (v, deleted, true) => if deleted then none else v
  | (_, _, false) =>
    match mgr.pendingFlush.map fun p => p.lookupShared key with
    | some (v, deleted, true) => if deleted then none else v
    | _ => (mgr.blobStore.lookup fault key).1

def Manager.contains (fault : Handle κ → Option ReadFault) (key : κ) : Bool :=
  match mgr.active.has key with
  | (deleted, true) => !deleted
  | (_, false) =>
    match mgr.pendingFlush.map fun p => p.has key with
    | some (deleted, true) => !deleted
    | _ => mgr.blobStore.contains fault key

/-- where writing a table can fail -/
inductive WriteFault where
  | naming
  | writing
  deriving DecidableEq

/-- `Flush`. The active generation takes the pending slot, and leaves it once it is a table or turns out empty. -/
def Manager.flush (level : ℤ) (fault : Option WriteFault) : Manager κ × Except WriteFault Unit :=
  let snap := mgr.active
  let entries := snap.snapshotEntries
  let s := mgr.blobStore
  if entries = [] then (⟨.new, none, s⟩, .ok ())
  else
    match fault with
    | some .naming => (⟨.new, some snap, s⟩, .error .naming)
    | some .writing => (⟨.new, some snap, { s with lastAge := s.lastAge + 1 }⟩, .error .writing)
    | none =>
      let named := { s with lastAge := s.lastAge + 1, nextRun := s.nextRun + 1 }
      (⟨.new, none, named.addTable ⟨s.nextRun, 0, s.lastAge + 1, level, entries⟩⟩, .ok ())

/-- what changes the store -/
inductive Op (κ : Type) where
  | put (key : κ) (value : Bytes)
  | delete (key : κ)
  | flush (level : ℤ) (fault : Option WriteFault)
  | compact (c : Compaction κ)

variable (disk : Disk κ)

/-- one operation -/
def Manager.step (mgr : Manager κ) : Op κ → Manager κ
  | .put key value => { mgr with active := mgr.active.put key value }
  | .delete key => { mgr with active := mgr.active.delete key }
  | .flush level fault => (mgr.flush level fault).1
  | .compact c => { mgr with blobStore := (mgr.blobStore.compactContext disk c).1 }

/-- the map the operations describe -/
def Op.apply (f : κ → Option Bytes) : Op κ → κ → Option Bytes
  | .put key value => Function.update f key (some value)
  | .delete key => Function.update f key none
  | .flush _ _ => f
  | .compact _ => f

/-- every entry in the pending slot is also in the active generation, or reads the same from the tables -/
def Manager.PendingCovered : Prop :=
  ∀ p ∈ mgr.pendingFlush, ∀ e ∈ p.snapshotEntries,
    (mgr.active.has e.1).2 = true ∨ (mgr.blobStore.opinion e.1).join = e.2
  deriving Decidable

/-- a step the map survives: values and positions fit in 32 bits, a flush loses nothing from the pending slot and goes to
no higher a level than the tables there are, a compaction keeps every key -/
def Safe : Op κ → Prop
  | .put _ value => value.length < 2 ^ 32 ∧ mgr.active.Roomy
  | .delete _ => mgr.active.Roomy
  | .flush level _ => (∀ h ∈ mgr.blobStore.tables, level ≤ h.level) ∧ mgr.PendingCovered
  | .compact c => c.keep = none

instance (mgr : Manager κ) (op : Op κ) : Decidable (Safe mgr op) := by
  cases op with
  | compact c =>
    obtain ⟨trigger, keep, maxBytes, all, fails⟩ := c
    cases keep with
    | none => exact .isTrue rfl
    | some keep => exact .isFalse nofun
  | put key value => exact inferInstanceAs (Decidable (_ ∧ _))
  | delete key => exact inferInstanceAs (Decidable (SortedTable.Roomy _))
  | flush level fault => exact inferInstanceAs (Decidable (_ ∧ _))

/-! ## The layers -/

def SlotStands : Option (SortedTable κ) → (κ → Option (Option Bytes)) → Prop
  | none, p => p = fun _ => none
  | some t, p => t.Stands p

/-- the two generations stand for `a` and `p` over a sound store -/
structure Layers (a p : κ → Option (Option Bytes)) : Prop where
  active : mgr.active.Stands a
  pending : SlotStands mgr.pendingFlush p
  store : StoreInv mgr.blobStore

/-- what the layers say of a key: the newest with an opinion -/
def value (a p : κ → Option (Option Bytes)) (k : κ) : Option Bytes :=
  ((a k).or ((p k).or (mgr.blobStore.opinion k))).join

variable {a p : κ → Option (Option Bytes)} {mgr : Manager κ}

section

variable (h : Layers mgr a p)
include h

theorem Layers.get_eq (k : κ) : mgr.get (fun _ => none) k = (value mgr a p k).bind sliceOf := by
  unfold Manager.get value
  rw [SortedTable.lookupShared_eq h.active]
  cases ha : a k with
  | some o => cases o <;> rfl
  | none =>
    have hstore : (mgr.blobStore.lookup (fun _ => none) k).1 = ((mgr.blobStore.opinion k).join).bind sliceOf := by
      rw [LsmBlobStore.lookup, lookupIn_eq, LsmBlobStore.opinion]
      cases opinionIn (newestFirst mgr.blobStore.tables) k with
      | none => rfl
      | some o => cases o <;> rfl
    have hpending := h.pending
    cases hslot : mgr.pendingFlush with
    | none =>
      rw [hslot] at hpending
      simp only [show p = fun _ => none from hpending, map_none, hstore, none_or]
    | some t =>
      rw [hslot] at hpending
      simp only [map_some, SortedTable.lookupShared_eq (show t.Stands p from hpending)]
      cases hp : p k with
      | none => simp only [hstore, none_or]
      | some o => cases o <;> rfl

theorem Layers.contains_eq (k : κ) : mgr.contains (fun _ => none) k = (value mgr a p k).isSome := by
  unfold Manager.contains value
  rw [SortedTable.has_eq h.active]
  cases ha : a k with
  | some o => cases o <;> rfl
  | none =>
    have hpending := h.pending
    cases hslot : mgr.pendingFlush with
    | none =>
      rw [hslot] at hpending
      simp only [show p = fun _ => none from hpending]
      exact containsIn_eq k _
    | some t =>
      rw [hslot] at hpending
      simp only [map_some, SortedTable.has_eq (show t.Stands p from hpending)]
      cases hp : p k with
      | none =>
        exact containsIn_eq k _
      | some o => cases o <;> rfl

theorem Layers.covered (hc : mgr.PendingCovered) (k : κ) : value mgr a p k = ((a k).or (mgr.blobStore.opinion k)).join := by
  unfold value
  cases ha : a k with
  | some o => rfl
  | none =>
    cases hp : p k with
    | none => rfl
    | some o =>
      have hpending := h.pending
      cases hslot : mgr.pendingFlush with
      | none =>
        rw [hslot] at hpending
        rw [show p = fun _ => none from hpending] at hp
        cases hp
      | some t =>
        rw [hslot] at hpending
        have hstands : t.Stands p := hpending
        have hentry : (k, o) ∈ t.snapshotEntries := by
          rw [← Entries.lookup_eq_some_iff (SortedTable.nodup_snapshotEntries hstands),
            SortedTable.lookup_snapshotEntries hstands, hp]
        rcases hc t hslot (k, o) hentry with hactive | hsame
        · rw [SortedTable.has_eq h.active, ha] at hactive
          cases hactive
        · simp [hsame]

theorem flush_layers {level : ℤ} (hlevel : ∀ t ∈ mgr.blobStore.tables, level ≤ t.level)
    (hc : mgr.PendingCovered) (fault : Option WriteFault) :
    ∃ a' p', Layers (mgr.flush level fault).1 a' p' ∧ ∀ k, value (mgr.flush level fault).1 a' p' k = value mgr a p k := by
  have hcovered := h.covered hc
  have hnew : (SortedTable.new : SortedTable κ).Stands fun _ => none := SortedTable.new_stands
  unfold Manager.flush
  dsimp only
  split_ifs with hempty
  · refine ⟨_, _, ⟨hnew, rfl, h.store⟩, fun k => ?_⟩
    have ha : a k = none := by
      rw [← SortedTable.lookup_snapshotEntries h.active, hempty]
      rfl
    rw [hcovered, ha]
    rfl
  · have hkept : ∀ age, StoreInv { mgr.blobStore with lastAge := age } := fun _ =>
      ⟨h.store.names, h.store.fresh, h.store.keys, h.store.runs⟩
    cases fault with
    | some f =>
      cases f with
      | naming => exact ⟨_, a, ⟨hnew, h.active, h.store⟩, fun k => (hcovered k).symm⟩
      | writing => exact ⟨_, a, ⟨hnew, h.active, hkept _⟩, fun k => (hcovered k).symm⟩
    | none =>
      have hflushed := h.store.flushed
        (h := ⟨mgr.blobStore.nextRun, 0, mgr.blobStore.lastAge + 1, level, mgr.active.snapshotEntries⟩) rfl
        (SortedTable.nodup_snapshotEntries h.active) hlevel (max (mgr.blobStore.lastAge + 1) (mgr.blobStore.lastAge + 1))
      refine ⟨_, _, ⟨hnew, rfl, hflushed.1⟩, fun k => ?_⟩
      rw [hcovered]
      have hop := hflushed.2 k
      rw [SortedTable.lookup_snapshotEntries h.active] at hop
      exact congrArg Option.join hop

end

theorem step_layers (h : Layers mgr a p) (op : Op κ) (hs : Safe mgr op) :
    ∃ a' p', Layers (mgr.step disk op) a' p' ∧ ∀ k, value (mgr.step disk op) a' p' k = op.apply (value mgr a p) k := by
  cases op with
  | put key v =>
    refine ⟨_, p, ⟨SortedTable.put_stands h.active hs.2 key hs.1, h.pending, h.store⟩, fun k => ?_⟩
    by_cases hk : k = key
    · subst hk
      simp [value, Op.apply]
    · simp [value, Op.apply, Function.update_of_ne hk, Manager.step]
  | delete key =>
    refine ⟨_, p, ⟨SortedTable.delete_stands h.active hs key, h.pending, h.store⟩, fun k => ?_⟩
    by_cases hk : k = key
    · subst hk
      simp [value, Op.apply]
    · simp [value, Op.apply, Function.update_of_ne hk, Manager.step]
  | flush level fault => exact flush_layers h hs.1 hs.2 fault
  | compact c =>
    obtain ⟨hinv, hsame⟩ := compact_keeps h.store disk (c := c) hs
    refine ⟨a, p, ⟨h.active, h.pending, hinv⟩, fun k => ?_⟩
    have hk := hsame k
    simp only [value, Op.apply]
    cases a k with
    | some o => rfl
    | none =>
      cases p k with
      | some o => rfl
      | none => exact hk

theorem run_layers {ops : List (Op κ)} (h : Layers mgr a p)
    (hs : Along (Manager.step disk) Safe mgr ops) {f : κ → Option Bytes} (hf : ∀ k, value mgr a p k = f k) :
    ∃ a' p', Layers (run (Manager.step disk) mgr ops) a' p' ∧
      ∀ k, value (run (Manager.step disk) mgr ops) a' p' k = run Op.apply f ops k := by
  induction ops generalizing mgr a p f with
  | nil => exact ⟨a, p, h, hf⟩
  | cons op ops ih =>
    obtain ⟨a', p', h', hv⟩ := step_layers disk h op hs.1
    apply ih h' hs.2
    intro k
    rw [hv k, show value mgr a p = f from funext hf]

/-- **The memtable over its tables is a map.** For every disk and every run of Puts, Deletes, Flushes that fail or
succeed, and compactions that keep every key, from a new store, whose steps are `Safe`: Get returns the last value put
under a key and not deleted since, and Contains tells whether there is one. (An empty value is Go's nil slice, which is
also what Get returns for no value.) -/
theorem memtable_is_map (disk : Disk κ) (ops : List (Op κ)) (hs : Along (Manager.step disk) Safe Manager.new ops) (k : κ) :
    let mgr := run (Manager.step disk) Manager.new ops
    let last := run Op.apply (fun _ => none) ops k
    mgr.get (fun _ => none) k = last.bind sliceOf ∧ mgr.contains (fun _ => none) k = last.isSome := by
  intro mgr last
  have hstart : Layers (Manager.new : Manager κ) (fun _ => none) fun _ => none :=
    ⟨SortedTable.new_stands, rfl, new_storeInv⟩
  obtain ⟨a, p, hl, hv⟩ := run_layers disk hstart hs (f := fun _ => none) fun _ => rfl
  have hlast : value mgr a p k = last := hv k
  rw [hl.get_eq, hl.contains_eq, hlast]
  exact ⟨rfl, rfl⟩

/-! ## Closed runs -/

/-- a disk that cannot size its tables -/
def plainDisk : Disk ℕ := ⟨none, fun v => v.length + 16, 64 * 2 ^ 20, 2 ^ 20⟩

/-- what a failed flush held is lost by the next one, though that writes nothing (first run) or another key (second): it
is in no layer. A table flushed to level 1 is searched after the older one on level 0 (third). -/
theorem failed_flush_lost :
    (let ops := [.put 1 [7], .flush 0 (some .writing), .flush 0 none]
      let mgr := run (Manager.step plainDisk) Manager.new ops
      run Op.apply (fun _ => none) ops 1 = some [7] ∧ mgr.get (fun _ => none) 1 = none ∧
        mgr.contains (fun _ => none) 1 = false) ∧
    (let ops := [.put 1 [7], .flush 0 (some .writing), .put 2 [8], .flush 0 none]
      let mgr := run (Manager.step plainDisk) Manager.new ops
      run Op.apply (fun _ => none) ops 1 = some [7] ∧ mgr.get (fun _ => none) 1 = none ∧
        mgr.get (fun _ => none) 2 = some [8]) ∧
    (let ops := [.put 1 [7], .flush 0 none, .put 1 [8], .flush 1 none]
      let mgr := run (Manager.step plainDisk) Manager.new ops
      run Op.apply (fun _ => none) ops 1 = some [8] ∧ mgr.get (fun _ => none) 1 = some [7]) := by
  decide +kernel

/-- a flush fails; both keys are written again before the next; a deletion and an empty value are flushed and merged -/
def rewritten : List (Op ℕ) :=
  [.put 1 [7], .put 2 [9], .flush 0 (some .writing), .put 1 [8], .delete 2, .flush 0 none, .put 3 [], .flush 0 none,
    .compact ⟨4, none, none, true, false⟩]

theorem memtable_is_map_rewritten :
    let mgr := run (Manager.step plainDisk) Manager.new rewritten
    mgr.blobStore.tables.length = 1 ∧ (mgr.get (fun _ => none) 1 = some [8] ∧ mgr.contains (fun _ => none) 1 = true) ∧
      (mgr.get (fun _ => none) 2 = none ∧ mgr.contains (fun _ => none) 2 = false) ∧
      mgr.get (fun _ => none) 3 = none ∧ mgr.contains (fun _ => none) 3 = true :=
  have hsafe : Along (Manager.step plainDisk) Safe Manager.new rewritten := by decide +kernel
  ⟨by decide +kernel, memtable_is_map plainDisk rewritten hsafe 1, memtable_is_map plainDisk rewritten hsafe 2,
    memtable_is_map plainDisk rewritten hsafe 3⟩

end Kdb.Memtable
