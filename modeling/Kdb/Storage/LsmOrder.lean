/-
The write order of an LSM store's tables over flushes, merges and reopens (`storage/sstable/types.go` compactContext and
DiscoverTables, `tiering.go` byAge, `sequence.go`).

A merge works on the tables it pinned when it began; tables flushed meanwhile are registered behind them, and the merge's output
takes its inputs' place when it ends. A reopen registers the tables on disk by the age in their names. A flushed table takes the
next age of the namespace, a merge's tables their oldest input's.

- `lookup_newest`: whatever was flushed, merged and reopened, a lookup answers what the most recently flushed table with an entry
  for the key holds.
- `OrderInv`: runs stand in the search order by age, whatever their levels, so a reopen, which sees names only, finds it
  again.

Ages are natural numbers (the code has 64 bits and prints them in 16 digits). The random part of a run's name is a parameter. A
reopen waits for the merge that runs; I/O failures, read faults and tables without an age are left out.
-/
import Kdb.Lib.Machine
import Kdb.Storage.BlobStore

namespace Kdb.Sstable

open Entries LevelOrder Memtable Machine List

variable {κ : Type} [LinearOrder κ]

/-! ## A merge in two steps -/

/-- a merge that has read its inputs and not yet replaced them -/
structure Merging (κ : Type) where
  ordered : List (Handle κ)
  merged : List (Handle κ)
  full : Bool

variable (s : LsmBlobStore κ) (disk : Disk κ)

/-- the first part of `compactContext`: what is merged, and the output -/
def LsmBlobStore.planMerge (c : Compaction κ) : Option (Merging κ) :=
  let runs := runsNewestFirst (newestFirst s.tables)
  let w := c.window disk runs
  if w.2.1 = 0 then none
  else
    let taken := (runs.take w.2.1).drop w.1
    match c.postpones disk taken with
    | some _ => none
    | none =>
      if c.fails then none
      else
        let ordered := oldestFirst taken
        let outLevel :=
          if w.2.2 then ordered.foldl (fun l h => max l (h.level + 1)) 0 else (ordered.head?.map Handle.level).getD 0
        some ⟨ordered, (compact disk s.nextRun outLevel ordered w.2.2 c.keep).1, w.2.2⟩

/-- the second part: the inputs are swapped for the output -/
def LsmBlobStore.finishMerge (m : Merging κ) : LsmBlobStore κ :=
  { s with tables := swapTables s.tables m.ordered m.merged m.full }

/-! ## Names and reopening -/

/-- `%016x` -/
def ageText (age : ℕ) : String := String.ofList ((Nat.toDigits 16 age).leftpad 16 '0')

variable (uuid : ℕ → String)

/-- `SegmentName`, from the namespace's tables on: level, age, the run's random part, the number in the run -/
def Handle.segmentName (h : Handle κ) : String :=
  "L" ++ toString h.level ++ "/" ++ ageText h.age ++ "-" ++ uuid h.run ++ "." ++
    String.ofList ((Nat.toDigits 10 h.seq).leftpad 4 '0')

/-- `byAge`: oldest first, by name where the ages are the same -/
def byAge (tables : List (Handle κ)) : List (Handle κ) :=
  tables.insertionSort fun a b => a.age < b.age ∨ a.age = b.age ∧ a.segmentName uuid ≤ b.segmentName uuid

/-- `DiscoverTables` on a new store over the same tables -/
def LsmBlobStore.discoverTables (s : LsmBlobStore κ) : LsmBlobStore κ :=
  (byAge uuid s.tables).foldl LsmBlobStore.addTable ⟨[], 0, s.nextRun⟩

/-! ## The store over time -/

/-- a store and the merge that runs on it -/
structure Lsm (κ : Type) where
  store : LsmBlobStore κ
  merging : Option (Merging κ)

/-- a merge as the store is asked for it, with no key refused -/
structure MergeRequest where
  trigger : ℕ
  maxBytes : Option ℕ
  all : Bool
  fails : Bool

def MergeRequest.compaction (r : MergeRequest) : Compaction κ := ⟨r.trigger, none, r.maxBytes, r.all, r.fails⟩

inductive LsmOp (κ : Type) where
  /-- a table is written from the entries, in the order they are given, and registered on level 0 -/
  | flush (entries : List (κ × Option Bytes))
  | startMerge (disk : Disk κ) (request : MergeRequest)
  | finishMerge
  | reopen

namespace Lsm

def init : Lsm κ := ⟨.new, none⟩

/-- the table a flush writes -/
def flushed (entries : List (κ × Option Bytes)) : Handle κ :=
  ⟨s.nextRun, 0, s.lastAge + 1, 0, sortIndexEntries entries⟩

def step (s : Lsm κ) : LsmOp κ → Lsm κ
  | .flush entries =>
    { s with store := { s.store.addTable (flushed s.store entries) with nextRun := s.store.nextRun + 1 } }
  | .startMerge disk request =>
    match s.merging with
    | some _ => s
    | none => ⟨{ s.store with nextRun := s.store.nextRun + 1 }, s.store.planMerge disk request.compaction⟩
  | .finishMerge =>
    match s.merging with
    | none => s
    | some m => ⟨s.store.finishMerge m, none⟩
  | .reopen =>
    match s.merging with
    | some _ => s
    | none => ⟨s.store.discoverTables uuid, none⟩

end Lsm

/-- what an operation flushes -/
def LsmOp.flushes : LsmOp κ → List (List (κ × Option Bytes))
  | .flush entries => [entries]
  | _ => []

/-- the tables a run flushed, newest first -/
def history (ops : List (LsmOp κ)) : List (List (κ × Option Bytes)) := (ops.flatMap LsmOp.flushes).reverse

/-- what the most recently flushed table with an entry for the key says: `some none` is a tombstone -/
def newestEntry (tables : List (List (κ × Option Bytes))) (k : κ) : Option (Option Bytes) :=
  tables.findSome? fun entries => (sortIndexEntries entries).lookup k

/-! ## A table's entries -/

theorem dropRepeated_pairwise {es : List (κ × Option Bytes)} (h : es.Pairwise fun a b => a.1 ≤ b.1) :
    (dropRepeated es).Pairwise (fun a b => a.1 < b.1) ∧ ∀ e ∈ dropRepeated es, e ∈ es := by
  fun_induction dropRepeated es with
  | case1 e e' es he ih =>
    obtain ⟨hp, hm⟩ := ih (pairwise_cons.1 h).2
    exact ⟨hp, fun x hx => .tail _ (hm x hx)⟩
  | case2 e e' es he ih =>
    obtain ⟨hle, hrest⟩ := pairwise_cons.1 h
    obtain ⟨hp, hm⟩ := ih hrest
    refine ⟨pairwise_cons.2 ⟨?_, hp⟩, ?_⟩
    · intro x hx
      have hlt : e.1 < e'.1 := lt_of_le_of_ne (hle e' mem_cons_self) he
      rcases mem_cons.1 (hm x hx) with rfl | hx'
      · exact hlt
      · exact hlt.trans_le ((pairwise_cons.1 hrest).1 x hx')
    · exact forall_mem_cons.2 ⟨.head _, fun x hx => .tail _ (hm x hx)⟩
  | case3 es hes =>
    refine ⟨?_, fun _ h => h⟩
    match es, hes with
    | [], _ => exact .nil
    | [e], _ => simp
    | e :: e' :: es, hes => exact absurd rfl (hes e e' es)

theorem nodup_sortIndexEntries (es : List (κ × Option Bytes)) : ((sortIndexEntries es).map Prod.fst).Nodup := by
  have hp := (dropRepeated_pairwise (pairwise_insertionSort (fun a b : κ × Option Bytes => a.1 ≤ b.1) es)).1
  exact (pairwise_map.2 hp).imp fun h => h.ne

/-! ## The search order by age -/

/-- no key is in both tables -/
def Apart (a b : Handle κ) : Prop := ∀ k, a.entries.lookup k = none ∨ b.entries.lookup k = none

def Newer (a b : Handle κ) : Prop := b.age < a.age ∨ a.run = b.run

/-- tables of one run have one age and one level and share no key -/
def OneRun (tables : List (Handle κ)) : Prop :=
  ∀ a ∈ tables, ∀ b ∈ tables, a.run = b.run → a.age = b.age ∧ a.level = b.level ∧ (a ≠ b → Apart a b)

/-- the search order is newest run first, by age -/
structure OrderInv : Prop where
  store : StoreInv s
  newer : (newestFirst s.tables).Pairwise Newer
  oneRun : OneRun s.tables
  ages : ∀ h ∈ s.tables, h.age ≤ s.lastAge
  levels : ∀ h ∈ s.tables, 0 ≤ h.level

theorem new_orderInv : OrderInv (LsmBlobStore.new : LsmBlobStore κ) := by
  refine ⟨new_storeInv, .nil, ?_, ?_, ?_⟩ <;> intro h hh <;> cases hh

variable {order : List (Handle κ)} {m : Merging κ} {s : LsmBlobStore κ} {after before taken : List (MergeRun κ)}
  {level : ℤ} {tables : List (List (κ × Option Bytes))}

omit [LinearOrder κ] in
/-- **Runs by age.** A list in which newer runs come first is made of runs. -/
theorem grouped_of_newer (hnewer : order.Pairwise Newer)
    (hage : ∀ a ∈ order, ∀ b ∈ order, a.run = b.run → a.age = b.age) : ∃ rs, Grouped order rs := by
  induction order with
  | nil => exact ⟨[], rfl, by simp, by simp⟩
  | cons h order ih =>
    obtain ⟨hhead, hrest⟩ := pairwise_cons.1 hnewer
    obtain ⟨rs, hflat, hids, hown⟩ := ih hrest fun a ha b hb =>
      hage a (.tail _ ha) b (.tail _ hb)
    by_cases hnew : h.run ∈ rs.map MergeRun.id
    · -- its run is the first of the rest: a run between would be both older and newer
      obtain ⟨r, hr, hrid⟩ := mem_map.1 hnew
      obtain ⟨u, hu⟩ := exists_mem_of_ne_nil _ (hown r hr).1
      have hurun : u.run = h.run := ((hown r hr).2 u hu).trans hrid
      have humem : u ∈ order := by rw [hflat]; exact mem_flatMap.2 ⟨r, hr, hu⟩
      cases rs with
      | nil => cases hr
      | cons r₀ rs =>
        have hfirst : r₀.id = h.run := by
          rcases mem_cons.1 hr with rfl | hr'
          · exact hrid
          · obtain ⟨t, ht⟩ := exists_mem_of_ne_nil _ (hown r₀ mem_cons_self).1
            have htrun := (hown r₀ mem_cons_self).2 t ht
            have htmem : t ∈ order := by rw [hflat]; exact mem_flatMap.2 ⟨r₀, .head _, ht⟩
            have hne : r₀.id ≠ h.run := by
              rw [map_cons, nodup_cons] at hids
              intro he
              exact hids.1 (he.trans hrid.symm ▸ mem_map_of_mem hr')
            have hth : t.age < h.age := (hhead t htmem).resolve_right fun he => hne (htrun.symm.trans he.symm)
            have hut : Newer t u := by
              have hsplit : order.Pairwise Newer := hrest
              rw [hflat, flatMap_cons, pairwise_append] at hsplit
              exact hsplit.2.2 t ht u (mem_flatMap.2 ⟨r, hr', hu⟩)
            have hage' := hage h (.head _) u (.tail _ humem) hurun.symm
            rcases hut with hlt | he
            · omega
            · exact absurd (htrun.symm.trans (he.trans hurun)) hne
        refine ⟨{ r₀ with tables := h :: r₀.tables } :: rs, ?_, hids, ?_⟩
        · rw [hflat]
          rfl
        · refine forall_mem_cons.2 ⟨⟨by simp, ?_⟩, fun r hr => hown r (.tail _ hr)⟩
          exact forall_mem_cons.2 ⟨hfirst.symm, (hown r₀ mem_cons_self).2⟩
    · exact ⟨_, Grouped.cons ⟨hflat, hids, hown⟩ hnew⟩

/-- the tables that know a key -/
def knowing (k : κ) (order : List (Handle κ)) : List (Handle κ) := order.filter fun h => (h.entries.lookup k).isSome

theorem opinionIn_knowing (k : κ) (order : List (Handle κ)) : opinionIn (knowing k order) k = opinionIn order k := by
  induction order with
  | nil => rfl
  | cons h order ih =>
    unfold opinionIn knowing at *
    cases hk : h.entries.lookup k with
    | none => rw [filter_cons_of_neg (by simp [hk]), List.findSome?_cons, hk, ih]
    | some o => rw [filter_cons_of_pos (by simp [hk]), List.findSome?_cons, List.findSome?_cons, hk]

/-- the tables that know a key are of different ages -/
theorem knowing_pairwise (hnewer : order.Pairwise Newer) (hone : OneRun order) (hnodup : order.Nodup) (k : κ) :
    (knowing k order).Pairwise fun a b => b.age < a.age := by
  have hboth : (knowing k order).Pairwise fun a b => Newer a b ∧ a ≠ b := (hnewer.and hnodup).filter _
  refine hboth.imp_of_mem ?_
  intro a b ha hb hab
  refine hab.1.resolve_right fun hrun => ?_
  obtain ⟨ha, hak⟩ := mem_filter.1 ha
  obtain ⟨hb, hbk⟩ := mem_filter.1 hb
  rcases (hone a ha b hb hrun).2.2 hab.2 k with h | h
  · simp [h] at hak
  · simp [h] at hbk

/-- **Only the order of runs counts.** Two orders of the same tables, both newest run first, answer alike. -/
theorem opinionIn_of_perm {order' : List (Handle κ)} (hperm : order.Perm order') (hnewer : order.Pairwise Newer)
    (hnewer' : order'.Pairwise Newer) (hone : OneRun order) (hnodup : order.Nodup) (k : κ) :
    opinionIn order k = opinionIn order' k := by
  have hone' : OneRun order' := fun a ha b hb => hone a (hperm.mem_iff.2 ha) b (hperm.mem_iff.2 hb)
  have hsame : knowing k order = knowing k order' := by
    refine Perm.eq_of_pairwise ?_ (knowing_pairwise hnewer hone hnodup k)
      (knowing_pairwise hnewer' hone' (hperm.nodup_iff.1 hnodup) k) (hperm.filter _)
    omega
  rw [← opinionIn_knowing k order, hsame, opinionIn_knowing]

/-! ## Reopening -/

section Reopen

omit [LinearOrder κ] in
theorem foldl_addTable (tables : List (Handle κ)) (s : LsmBlobStore κ) :
    (tables.foldl LsmBlobStore.addTable s).tables = s.tables ++ tables ∧
      (tables.foldl LsmBlobStore.addTable s).nextRun = s.nextRun ∧
      s.lastAge ≤ (tables.foldl LsmBlobStore.addTable s).lastAge ∧
      ∀ h ∈ tables, h.age ≤ (tables.foldl LsmBlobStore.addTable s).lastAge := by
  induction tables generalizing s with
  | nil => simp
  | cons t tables ih =>
    obtain ⟨htables, hrun, hage, hall⟩ := ih (s.addTable t)
    have ht : max s.lastAge t.age ≤ _ := hage
    rw [foldl_cons]
    refine ⟨?_, hrun, (le_max_left _ _).trans ht, ?_⟩
    · rw [htables]
      simp [LsmBlobStore.addTable]
    · exact forall_mem_cons.2 ⟨(le_max_right _ _).trans ht, hall⟩

omit [LinearOrder κ] in
theorem byAge_pairwise (tables : List (Handle κ)) : (byAge uuid tables).Pairwise fun a b => a.age ≤ b.age := by
  let r : Handle κ → Handle κ → Prop := fun a b => a.age < b.age ∨ a.age = b.age ∧ a.segmentName uuid ≤ b.segmentName uuid
  have hr : ∀ a b, r a b ↔ toLex (a.age, a.segmentName uuid) ≤ toLex (b.age, b.segmentName uuid) := by
    intro a b
    rw [Prod.Lex.toLex_le_toLex]
  have htotal : Std.Total r := ⟨fun _ _ => by simpa only [hr] using le_total _ _⟩
  have htrans : IsTrans (Handle κ) r := ⟨fun _ _ _ => by simpa only [hr] using le_trans⟩
  refine (pairwise_insertionSort r tables).imp ?_
  intro a b h
  rcases h with h | h
  · exact h.le
  · exact h.1.le

variable {a b : Handle κ}

section

variable (hi : OrderInv s)
include hi

theorem OrderInv.comparable (ha : a ∈ s.tables) (hb : b ∈ s.tables) :
    a = b ∨ (a.level ≤ b.level ∧ Newer a b) ∨ b.level ≤ a.level ∧ Newer b a := by
  let R : Handle κ → Handle κ → Prop := fun a b =>
    a = b ∨ (a.level ≤ b.level ∧ Newer a b) ∨ b.level ≤ a.level ∧ Newer b a
  have hsymm : Std.Symm R := ⟨fun a b h => h.imp Eq.symm Or.symm⟩
  have hlevels : (newestFirst s.tables).Pairwise fun a b => a.level ≤ b.level := pairwise_searchOrder s.tables
  have hpair : (newestFirst s.tables).Pairwise R := (hlevels.and hi.newer).imp fun h => .inr (.inl h)
  exact Pairwise.forall_of_forall (fun _ _ => .inl rfl) hpair (mem_searchOrder.2 ha) (mem_searchOrder.2 hb)

theorem OrderInv.run_of_age (ha : a ∈ s.tables) (hb : b ∈ s.tables) (hage : a.age = b.age) : a.run = b.run := by
  rcases hi.comparable ha hb with rfl | ⟨-, h⟩ | ⟨-, h⟩
  · rfl
  · exact h.resolve_left (by omega)
  · exact (h.resolve_left (by omega)).symm

theorem OrderInv.nodup : (newestFirst s.tables).Nodup :=
  Nodup.of_map Handle.name (nodup_newestFirst.2 hi.store.names)

/-- **Reopened.** The order that the ages in the names give is the order of the writes. -/
theorem OrderInv.reopened (uuid : ℕ → String) :
    OrderInv (s.discoverTables uuid) ∧ ∀ k, (s.discoverTables uuid).opinion k = s.opinion k := by
  obtain ⟨htables, hrun, -, hages⟩ := foldl_addTable (byAge uuid s.tables) ⟨[], 0, s.nextRun⟩
  have hperm : (byAge uuid s.tables).Perm s.tables := perm_insertionSort _ _
  have hmem : ∀ {h}, h ∈ (s.discoverTables uuid).tables ↔ h ∈ s.tables := by
    rw [LsmBlobStore.discoverTables, htables]
    exact hperm.mem_iff
  have hnewer : (newestFirst (s.discoverTables uuid).tables).Pairwise Newer := by
    rw [LsmBlobStore.discoverTables, htables]
    apply pairwise_searchOrder_of
    · -- a lower level is newer: so the live order had it
      intro a ha b hb hlevel
      rcases hi.comparable (hperm.mem_iff.1 ha) (hperm.mem_iff.1 hb) with rfl | ⟨-, h⟩ | ⟨h, -⟩
      · exact absurd hlevel (lt_irrefl _)
      · exact h
      · exact absurd hlevel (not_lt.2 h)
    · refine (byAge_pairwise uuid s.tables).imp_of_mem ?_
      intro a b ha hb hle _
      rcases hle.lt_or_eq with hlt | heq
      · exact .inl hlt
      · exact .inr (hi.run_of_age (hperm.mem_iff.1 ha) (hperm.mem_iff.1 hb) heq).symm
  have hone : OneRun (s.discoverTables uuid).tables := fun a ha b hb => hi.oneRun a (hmem.1 ha) b (hmem.1 hb)
  have horders : (newestFirst s.tables).Perm (newestFirst (s.discoverTables uuid).tables) := by
    refine (searchOrder_perm _).trans (Perm.trans ?_ (searchOrder_perm _).symm)
    rw [LsmBlobStore.discoverTables, htables]
    exact hperm.symm
  refine ⟨⟨⟨?_, ?_, ?_, ?_⟩, hnewer, hone, ?_, ?_⟩, ?_⟩
  · rw [LsmBlobStore.discoverTables, htables]
    exact (hperm.map Handle.name).nodup_iff.2 hi.store.names
  · intro h hh
    have hlt := hi.store.fresh h (hmem.1 hh)
    rwa [LsmBlobStore.discoverTables, hrun]
  · exact fun h hh => hi.store.keys h (hmem.1 hh)
  · refine grouped_of_newer hnewer fun a ha b hb hab => ?_
    exact (hone a (mem_searchOrder.1 ha) b (mem_searchOrder.1 hb) hab).1
  · intro h hh
    exact hages h (by rw [LsmBlobStore.discoverTables, htables] at hh; exact hh)
  · exact fun h hh => hi.levels h (hmem.1 hh)
  · intro k
    refine (opinionIn_of_perm horders hi.newer hnewer ?_ hi.nodup k).symm
    exact fun a ha b hb => hi.oneRun a (mem_searchOrder.1 ha) b (mem_searchOrder.1 hb)

/-! ## Flushing -/

theorem OrderInv.flushed (entries : List (κ × Option Bytes)) :
    let s' : LsmBlobStore κ := { s.addTable (Lsm.flushed s entries) with nextRun := s.nextRun + 1 }
    OrderInv s' ∧ newestFirst s'.tables = Lsm.flushed s entries :: newestFirst s.tables ∧
      ∀ k, s'.opinion k = ((sortIndexEntries entries).lookup k).or (s.opinion k) := by
  intro s'
  have hage : s'.lastAge = s.lastAge + 1 := max_eq_right (Nat.le_succ s.lastAge)
  have horder : newestFirst s'.tables = Lsm.flushed s entries :: newestFirst s.tables := searchOrder_concat hi.levels
  have hflushed := hi.store.flushed (h := Lsm.flushed s entries) rfl (nodup_sortIndexEntries entries) hi.levels s'.lastAge
  have hcases : ∀ h ∈ s'.tables, h ∈ s.tables ∨ h = Lsm.flushed s entries := by
    intro h hh
    simpa using mem_append.1 hh
  refine ⟨⟨hflushed.1, ?_, ?_, ?_, ?_⟩, horder, hflushed.2⟩
  · rw [horder]
    refine pairwise_cons.2 ⟨?_, hi.newer⟩
    intro h hh
    exact .inl (Nat.lt_succ_of_le (hi.ages h (mem_searchOrder.1 hh)))
  · intro a ha b hb hab
    rcases hcases a ha with ha | rfl <;> rcases hcases b hb with hb | rfl
    · exact hi.oneRun a ha b hb hab
    · exact absurd hab (hi.store.fresh a ha).ne
    · exact absurd hab (hi.store.fresh b hb).ne'
    · exact ⟨rfl, rfl, fun h => absurd rfl h⟩
  · intro h hh
    rw [hage]
    rcases hcases h hh with hh | rfl
    · exact (hi.ages h hh).trans (Nat.le_succ _)
    · exact le_rfl
  · intro h hh
    rcases hcases h hh with hh | rfl
    · exact hi.levels h hh
    · exact le_rfl

end

end Reopen

/-! ## Merging -/

/-- the oldest input's age -/
def oldestAge (ordered : List (Handle κ)) : ℕ := (ordered.head?.map Handle.age).getD 0

/-- the merge `m` of the runs `taken`, while its inputs stand -/
structure Flight (s : LsmBlobStore κ) (m : Merging κ) (before taken after : List (MergeRun κ)) (run : ℕ) (level : ℤ) : Prop where
  grouped : Grouped (newestFirst s.tables) (before ++ taken ++ after)
  ordered : m.ordered = oldestFirst taken
  merged : Merged before taken after m.full run level m.merged
  fresh : run < s.nextRun
  runs : ∀ h ∈ s.tables, h.run ≠ run
  ages : ∀ h ∈ m.merged, h.age = oldestAge m.ordered
  apart : m.merged.Pairwise Apart
  nonneg : 0 ≤ level
  positive : m.full = true → 0 < level

theorem compact_ages (run : ℕ) (level : ℤ) (inputs : List (Handle κ)) (drop : Bool) :
    ∀ h ∈ (compact disk run level inputs drop none).1, h.age = oldestAge inputs := by
  intro h hh
  obtain ⟨t, -, rfl⟩ := List.mem_map.1 hh
  rfl

theorem compact_apart (run : ℕ) (level : ℤ) {inputs : List (Handle κ)} (drop : Bool)
    (hkeys : ∀ h ∈ inputs, (h.entries.map Prod.fst).Nodup) : (compact disk run level inputs drop none).1.Pairwise Apart := by
  obtain ⟨kept, hentries, hkept, -⟩ := compact_entries disk run level drop hkeys
  have hflat : ((splitRun disk kept [] 0).map (List.map Prod.fst)).flatten.Nodup := by
    rw [← List.map_flatten, splitRun_flatten]
    exact hkept
  have hdisjoint := (List.nodup_flatten.1 hflat).2
  rw [← hentries, List.map_map, List.pairwise_map] at hdisjoint
  refine hdisjoint.imp ?_
  intro a b hab k
  by_contra hboth
  rw [not_or] at hboth
  obtain ⟨ha, hb⟩ := hboth
  rw [Entries.lookup_eq_none_iff, not_not] at ha hb
  exact hab ha hb

omit [LinearOrder κ] in
theorem outLevel_spec (ordered : List (Handle κ)) (l : ℤ) : l ≤ ordered.foldl (fun l h => max l (h.level + 1)) l ∧
      ∀ h ∈ ordered, h.level < ordered.foldl (fun l h => max l (h.level + 1)) l := by
  induction ordered generalizing l with
  | nil => simp
  | cons t ordered ih =>
    obtain ⟨hle, hall⟩ := ih (max l (t.level + 1))
    rw [foldl_cons]
    refine ⟨(le_max_left _ _).trans hle, forall_mem_cons.2 ⟨?_, hall⟩⟩
    omega

/-- **A merge begins.** -/
theorem OrderInv.planned (hi : OrderInv s) (disk : Disk κ) {c : Compaction κ} (hk : c.keep = none)
    (hm : s.planMerge disk c = some m) :
    ∃ before taken after level, Flight { s with nextRun := s.nextRun + 1 } m before taken after s.nextRun level := by
  obtain ⟨rs, hg⟩ := hi.store.runs
  obtain ⟨hle, hfull⟩ := window_spec c disk rs
  unfold LsmBlobStore.planMerge at hm
  rw [hg.runs_eq] at hm
  dsimp only at hm
  generalize c.window disk rs = w at hle hfull hm
  obtain ⟨lo, n, full⟩ := w
  split at hm
  · cases hm
  rename_i hn
  split at hm
  · cases hm
  split at hm
  · cases hm
  cases hm
  have hg' := window_split hle rs ▸ hg
  set taken := (rs.take n).drop lo with htaken
  have hin : ∀ h ∈ oldestFirst taken, h ∈ s.tables := fun h hh => hg'.mem_taken hh
  have hkeys : ∀ h ∈ oldestFirst taken, (h.entries.map Prod.fst).Nodup := fun h hh => hi.store.keys h (hin h hh)
  rw [hk]
  have hlevel : full = true → 0 < (oldestFirst taken).foldl (fun l h => max l (h.level + 1)) 0 := by
    intro h
    obtain ⟨rfl, rfl⟩ := hfull h
    -- a full merge takes at least one table
    obtain ⟨r, hr⟩ := exists_mem_of_ne_nil rs fun hnil => hn (by simp [hnil])
    obtain ⟨t, ht⟩ := exists_mem_of_ne_nil _ (hg.own r hr).1
    have hmem : t ∈ oldestFirst taken := by
      rw [oldestFirst_eq, mem_reverse]
      exact mem_flatMap.2 ⟨r, by simpa [htaken] using hr, ht⟩
    exact (hi.levels t (hin t hmem)).trans_lt ((outLevel_spec (oldestFirst taken) 0).2 t hmem)
  refine ⟨rs.take lo, taken, rs.drop n, _, hg', rfl, ⟨compact_wrote disk s.nextRun _ full hkeys, fun h => ?_, fun h => ?_⟩,
    Nat.lt_succ_self _, fun h hh => (hi.store.fresh h hh).ne, compact_ages disk _ _ _ _, compact_apart disk _ _ _ hkeys, ?_,
    fun h => ?_⟩
  · simp [show full = false from h]
  · obtain ⟨rfl, rfl⟩ := hfull h
    simp
  · split
    · exact (outLevel_spec (oldestFirst taken) 0).1
    · cases hhead : (oldestFirst taken).head? with
      | none => exact le_rfl
      | some t => exact hi.levels t (hin t (mem_of_mem_head? hhead))
  · rw [if_pos h]
    exact hlevel h

theorem Flight.flushed {run : ℕ} (hi : OrderInv s) (hf : Flight s m before taken after run level)
    (entries : List (κ × Option Bytes)) : Flight { s.addTable (Lsm.flushed s entries) with nextRun := s.nextRun + 1 } m
      (⟨s.nextRun, [Lsm.flushed s entries]⟩ :: before) taken after run level := by
  have horder := (hi.flushed entries).2.1
  have hgrouped := hf.grouped.cons (h := Lsm.flushed s entries) (hi.store.nextRun_notMem hf.grouped)
  rw [← horder] at hgrouped
  refine ⟨hgrouped, hf.ordered, ⟨hf.merged.wrote, hf.merged.window, fun h => ?_⟩, hf.fresh.trans (Nat.lt_succ_self _), ?_,
    hf.ages, hf.apart, hf.nonneg, hf.positive⟩
  · obtain ⟨hafter, hlower⟩ := hf.merged.all h
    refine ⟨hafter, ?_⟩
    exact forall_mem_append.2 ⟨forall_mem_singleton.2 (hf.positive h), hlower⟩
  · exact forall_mem_append.2 ⟨hf.runs, forall_mem_singleton.2 hf.fresh.ne'⟩

omit [LinearOrder κ] in
theorem run_ne_of_ids {rs rs' : List (MergeRun κ)} (hids : ((rs ++ rs').map MergeRun.id).Nodup)
    (hown : ∀ r ∈ rs ++ rs', r.tables ≠ [] ∧ ∀ h ∈ r.tables, h.run = r.id) {a b : Handle κ}
    (ha : a ∈ rs.flatMap MergeRun.tables) (hb : b ∈ rs'.flatMap MergeRun.tables) : a.run ≠ b.run := by
  obtain ⟨r, hr, har⟩ := mem_flatMap.1 ha
  obtain ⟨r', hr', hbr⟩ := mem_flatMap.1 hb
  rw [(hown r (mem_append_left _ hr)).2 a har, (hown r' (mem_append_right _ hr')).2 b hbr]
  rw [map_append, nodup_append] at hids
  exact hids.2.2 _ (mem_map_of_mem hr) _ (mem_map_of_mem hr')

instance : Std.Symm (@Apart κ _) := ⟨fun _ _ h k => (h k).symm⟩

/-- **A merge ends.** Its output is as old as its oldest input, so it stands where its inputs stood. -/
theorem Flight.finished {run : ℕ} (hi : OrderInv s) (hf : Flight s m before taken after run level) :
    OrderInv (s.finishMerge m) ∧ ∀ k, ((s.finishMerge m).opinion k).join = (s.opinion k).join := by
  have hsame : s.finishMerge m = ⟨swapTables s.tables (oldestFirst taken) m.merged m.full, s.lastAge, s.nextRun⟩ := by
    rw [LsmBlobStore.finishMerge, hf.ordered]
  have hswapped : StoreInv (s.finishMerge m) ∧ ∀ k, ((s.finishMerge m).opinion k).join = (s.opinion k).join := by
    rw [hsame]
    exact hi.store.swapped hf.grouped hf.merged hf.runs hf.fresh le_rfl
  have horder : newestFirst (s.finishMerge m).tables =
      before.flatMap MergeRun.tables ++ m.merged.reverse ++ after.flatMap MergeRun.tables := by
    rw [hsame]
    exact newestFirst_swapped hi.store.names hf.grouped hf.merged
  obtain ⟨hflat, hids, hown⟩ := hf.grouped
  have hnewer := hi.newer
  rw [hflat, flatMap_append, flatMap_append] at hnewer
  obtain ⟨hfront, hback, hacross⟩ := pairwise_append.1 hnewer
  obtain ⟨hbefore, htaken, hinto⟩ := pairwise_append.1 hfront
  -- a table of the output has the age of an input
  have holdest : ∀ h ∈ m.merged, ∃ o ∈ taken.flatMap MergeRun.tables, h.age = o.age := by
    intro h hh
    cases hhead : m.ordered.head? with
    | none =>
      rw [List.head?_eq_none_iff, hf.ordered] at hhead
      rw [hf.merged.wrote.nothing hhead] at hh
      cases hh
    | some o =>
      refine ⟨o, ?_, ?_⟩
      · have ho := mem_of_mem_head? hhead
        rwa [hf.ordered, oldestFirst_eq, mem_reverse] at ho
      · rw [hf.ages h hh, oldestAge, hhead]
        rfl
  have hmem : ∀ h ∈ (s.finishMerge m).tables, h ∈ m.merged ∨ h ∈ s.tables := by
    rw [hsame]
    exact fun h hh => mem_swapped hi.store.names hf.grouped hf.merged hh
  have htable : ∀ o ∈ taken.flatMap MergeRun.tables, o ∈ s.tables := by
    intro o ho
    refine hf.grouped.mem_taken ?_
    rwa [oldestFirst_eq, mem_reverse]
  refine ⟨⟨hswapped.1, ?_, ?_, ?_, ?_⟩, hswapped.2⟩
  · rw [horder]
    refine pairwise_append.2 ⟨pairwise_append.2 ⟨hbefore, ?_, ?_⟩, hback, ?_⟩
    · refine pairwise_of_forall_mem_list fun a ha b hb => .inr ?_
      rw [(hf.merged.wrote.run a (mem_reverse.1 ha)).1, (hf.merged.wrote.run b (mem_reverse.1 hb)).1]
    · intro x hx h hh
      obtain ⟨o, ho, hage⟩ := holdest h (mem_reverse.1 hh)
      have hids' : ((before ++ (taken ++ after)).map MergeRun.id).Nodup := by rwa [← append_assoc]
      have hne : x.run ≠ o.run := by
        refine run_ne_of_ids hids' (by rwa [← append_assoc]) hx ?_
        rw [flatMap_append]
        exact mem_append_left _ ho
      exact .inl (hage ▸ (hinto x hx o ho).resolve_right hne)
    · intro x hx y hy
      rcases mem_append.1 hx with hx | hx
      · exact hacross x (mem_append_left _ hx) y hy
      · obtain ⟨o, ho, hage⟩ := holdest x (mem_reverse.1 hx)
        have hne : o.run ≠ y.run := by
          refine run_ne_of_ids hids hown ?_ hy
          rw [flatMap_append]
          exact mem_append_right _ ho
        exact .inl (hage ▸ (hacross o (mem_append_right _ ho) y hy).resolve_right hne)
  · intro a ha b hb hab
    rcases hmem a ha with ha | ha <;> rcases hmem b hb with hb | hb
    · refine ⟨(hf.ages a ha).trans (hf.ages b hb).symm, ?_, fun hne => hf.apart.forall ha hb hne⟩
      rw [(hf.merged.wrote.run a ha).2, (hf.merged.wrote.run b hb).2]
    · exact absurd (hab.symm.trans (hf.merged.wrote.run a ha).1) (hf.runs b hb)
    · exact absurd (hab.trans (hf.merged.wrote.run b hb).1) (hf.runs a ha)
    · exact hi.oneRun a ha b hb hab
  · intro h hh
    rcases hmem h hh with hh | hh
    · obtain ⟨o, ho, hage⟩ := holdest h hh
      rw [hage]
      exact hi.ages o (htable o ho)
    · exact hi.ages h hh
  · intro h hh
    rcases hmem h hh with hh | hh
    · rw [(hf.merged.wrote.run h hh).2]
      exact hf.nonneg
    · exact hi.levels h hh

/-! ## Runs -/

/-- the store is in order, the merge that runs has its inputs, and the store answers from the newest flush -/
structure LsmInv (s : Lsm κ) (tables : List (List (κ × Option Bytes))) : Prop where
  order : OrderInv s.store
  merging : ∀ m, s.merging = some m → ∃ before taken after run level, Flight s.store m before taken after run level
  answers : ∀ k, (s.store.opinion k).join = (newestEntry tables k).join

theorem init_lsmInv : LsmInv (Lsm.init : Lsm κ) [] :=
  ⟨new_orderInv, fun m hm => by (cases hm), fun _ => rfl⟩

theorem LsmInv.step {s : Lsm κ} (h : LsmInv s tables) (uuid : ℕ → String) (op : LsmOp κ) :
    LsmInv (s.step uuid op) (op.flushes ++ tables) := by
  cases op with
  | flush entries =>
    obtain ⟨horder, -, hopinion⟩ := h.order.flushed entries
    refine ⟨horder, ?_, ?_⟩
    · intro m hm
      obtain ⟨before, taken, after, run, level, hf⟩ := h.merging m hm
      exact ⟨_, taken, after, run, level, hf.flushed h.order entries⟩
    · intro k
      refine (congrArg Option.join (hopinion k)).trans ?_
      cases hk : (sortIndexEntries entries).lookup k with
      | none => simpa [LsmOp.flushes, newestEntry, hk] using h.answers k
      | some o => simp [LsmOp.flushes, newestEntry, hk]
  | startMerge disk request =>
    unfold Lsm.step
    cases hm : s.merging with
    | some m => exact h
    | none =>
      have horder : OrderInv { s.store with nextRun := s.store.nextRun + 1 } :=
        ⟨⟨h.order.store.names, fun t ht => (h.order.store.fresh t ht).trans (Nat.lt_succ_self _), h.order.store.keys,
          h.order.store.runs⟩, h.order.newer, h.order.oneRun, h.order.ages, h.order.levels⟩
      refine ⟨horder, ?_, h.answers⟩
      intro m hplan
      obtain ⟨before, taken, after, level, hf⟩ := h.order.planned disk rfl hplan
      exact ⟨before, taken, after, s.store.nextRun, level, hf⟩
  | finishMerge =>
    unfold Lsm.step
    cases hm : s.merging with
    | none => exact h
    | some m =>
      obtain ⟨before, taken, after, run, level, hf⟩ := h.merging m hm
      obtain ⟨horder, hopinion⟩ := hf.finished h.order
      exact ⟨horder, fun m hm => by (cases hm), fun k => (hopinion k).trans (h.answers k)⟩
  | reopen =>
    unfold Lsm.step
    cases hm : s.merging with
    | some m => exact h
    | none =>
      obtain ⟨horder, hopinion⟩ := h.order.reopened uuid
      exact ⟨horder, fun m hm => by (cases hm), fun k => (congrArg Option.join (hopinion k)).trans (h.answers k)⟩

theorem LsmInv.run {s : Lsm κ} (h : LsmInv s tables) (uuid : ℕ → String) (ops : List (LsmOp κ)) :
    LsmInv (run (Lsm.step uuid) s ops) (history ops ++ tables) := by
  induction ops generalizing s tables with
  | nil => exact h
  | cons op ops ih =>
    have hnext := ih (h.step uuid op)
    have hhistory : history (op :: ops) = history ops ++ op.flushes := by
      rw [history, flatMap_cons, reverse_append]
      cases op <;> rfl
    rw [hhistory, append_assoc]
    exact hnext

/-- **A lookup answers with the newest opinion.** Through any flushes of values and tombstones, merges of any windows with flushes
landing while they run, and reopens: the value is the one in the most recently flushed table with an entry for the key, and there is
none where that entry is a tombstone or no table has one. -/
theorem lookup_newest (uuid : ℕ → String) (ops : List (LsmOp κ)) (k : κ) :
    let found := (run (Lsm.step uuid) Lsm.init ops).store.lookup (fun _ => none) k
    found.1 = (newestEntry (history ops) k).join.bind sliceOf ∧
      ((found.2.2 = true ∧ found.2.1 = false) ↔ ∃ v, newestEntry (history ops) k = some (some v)) := by
  intro found
  have hinv := init_lsmInv.run uuid ops
  rw [append_nil] at hinv
  have hanswer := hinv.answers k
  have hfound : found = _ := lookupIn_eq k (newestFirst (Machine.run (Lsm.step uuid) Lsm.init ops).store.tables)
  change (opinionIn _ k).join = _ at hanswer
  have hheld : (∃ v, newestEntry (history ops) k = some (some v)) ↔ (newestEntry (history ops) k).join ≠ none := by
    rcases newestEntry (history ops) k with _ | _ | v <;> simp
  rw [hheld, ← hanswer, hfound]
  rcases opinionIn _ k with _ | _ | v <;> simp

/-- a tombstone over a value, merged while a flush lands, and reopened -/
def tombstoneMerged : List (LsmOp ℕ) :=
  [.flush [(1, some [7])], .flush [(2, some [8]), (1, none)],
    .startMerge ⟨some fun _ => 1, List.length, 100, 100⟩ ⟨2, none, false, false⟩, .flush [(2, none), (2, some [9])], .finishMerge, .reopen]

example : ((run (Lsm.step fun _ => "") Lsm.init tombstoneMerged).store.lookup (fun _ => none) 1,
    (run (Lsm.step fun _ => "") Lsm.init tombstoneMerged).store.lookup (fun _ => none) 2) =
      ((none, false, false), (some [9], false, true)) := by
  decide +kernel

end Kdb.Sstable
