/-
The SSTables under a memtable (`storage/sstable/types.go` LsmBlobStore, `compaction.go`, `tiering.go`): the tables and the
order a lookup searches them in, and the merges that replace a window of them.

A table is its immutable entries, `none` for a deletion; its file name is a run and a number in the run, and an age. Run
numbers stand for the random part of the names, so a new one is fresh. Sizes on disk (`Disk.size`), encoded block lengths
and I/O failures are inputs.
- `lookupIn_eq`, `containsIn_eq`: a lookup answers from the newest table that knows the key.
- `compact_keeps`: a merge that keeps every key changes no answer, whichever window it takes, how it splits its output
  and whether it drops deletions.
Left out: block and index caches and sidecars (copies of what the tables hold), the pins that defer deleting a merged
file. Flushes that land while a merge runs and table discovery at open are in `Kdb.Storage.LsmOrder`.
-/
import Kdb.Lib.Entries
import Kdb.Lib.LevelOrder
import Kdb.Storage.SortedTable

namespace Kdb.Sstable

open Entries LevelOrder Memtable List

variable {κ : Type} [LinearOrder κ]

/-! ## Tables -/

/-- `Handle` of a sealed table, with what the table holds -/
structure Handle (κ : Type) where
  run : ℕ
  seq : ℕ
  age : ℕ
  level : ℤ
  entries : List (κ × Option Bytes)

/-- `SegmentName` -/
def Handle.name (h : Handle κ) : ℕ × ℕ := (h.run, h.seq)

/-- `LsmBlobStore`: the registered tables, the last age handed out, the next unused run number -/
structure LsmBlobStore (κ : Type) where
  tables : List (Handle κ)
  lastAge : ℕ
  nextRun : ℕ

/-- `NewLsmBlobStore` over an empty namespace -/
def LsmBlobStore.new : LsmBlobStore κ := ⟨[], 0, 0⟩

/-- `newestFirst`: level ascending, then reverse insertion order within a level -/
def newestFirst (tables : List (Handle κ)) : List (Handle κ) := searchOrder Handle.level tables

/-- what stops a read of one table -/
inductive ReadFault where
  | probe
  | block

/-- the loop of `Lookup`: a table that cannot be read cannot answer -/
def lookupIn (fault : Handle κ → Option ReadFault) (key : κ) : List (Handle κ) → Option Bytes × Bool × Bool
  | [] => (none, false, false)
  | h :: order =>
    match fault h, h.entries.lookup key with
    | some .probe, _ => lookupIn fault key order
    | _, none => lookupIn fault key order
    | _, some none => (none, true, true)
    | some .block, some (some _) => lookupIn fault key order
    | none, some (some v) => (sliceOf v, false, true)

variable (s : LsmBlobStore κ)

def LsmBlobStore.lookup (fault : Handle κ → Option ReadFault) (key : κ) :
    Option Bytes × Bool × Bool := lookupIn fault key (newestFirst s.tables)

/-- the loop of `Contains` -/
def containsIn (fault : Handle κ → Option ReadFault) (key : κ) : List (Handle κ) → Bool
  | [] => false
  | h :: order =>
    match fault h, h.entries.lookup key with
    | some .probe, _ => containsIn fault key order
    | _, none => containsIn fault key order
    | _, some o => o.isSome

def LsmBlobStore.contains (fault : Handle κ → Option ReadFault) (key : κ) : Bool :=
  containsIn fault key (newestFirst s.tables)

def LsmBlobStore.addTable (h : Handle κ) : LsmBlobStore κ :=
  { s with tables := s.tables ++ [h], lastAge := max s.lastAge h.age }

/-! ## Which runs a merge takes -/

/-- what the disk reports: a segment's size, unless the shim cannot say; the length of an encoded block -/
structure Disk (κ : Type) where
  size : Option (Handle κ → ℕ)
  blockLen : Bytes → ℕ
  mergeTableBytes : ℕ
  mergeTableKeys : ℕ

structure MergeRun (κ : Type) where
  id : ℕ
  tables : List (Handle κ)

/-- a table joins its run, or starts it -/
def addToRun (h : Handle κ) : List (MergeRun κ) → List (MergeRun κ)
  | [] => [⟨h.run, [h]⟩]
  | r :: rs => if r.id = h.run then { r with tables := r.tables ++ [h] } :: rs else r :: addToRun h rs

variable (order : List (Handle κ))

def runsNewestFirst : List (MergeRun κ) := order.foldl (fun rs h => addToRun h rs) []

/-- a run's bytes on disk -/
def MergeRun.bytes (size : Handle κ → ℕ) (r : MergeRun κ) : ℕ := (r.tables.map size).sum

/-- `ageless`: a run named without an age -/
def MergeRun.ageless (r : MergeRun κ) : Bool := r.tables.head?.any fun h => h.age = 0

def mergeMaxRuns (trigger : ℕ) : ℕ := 3 * trigger

/-- how far a window reaches from a run: each next older run joins while it is no larger than the window so far -/
def widen (acc : ℕ) : List ℕ → ℕ
  | [] => 0
  | b :: bs => if b ≤ acc then widen (acc + b) bs + 1 else 0

/-- a window of at least `trigger` similar sizes, trying each run in turn as its newest member -/
def similarWindow (trigger : ℕ) : ℕ → List ℕ → Option (ℕ × ℕ)
  | _, [] => none
  | _, [_] => none
  | lo, b :: bs =>
    if trigger ≤ widen b bs + 1 then some (lo, lo + widen b bs + 1) else similarWindow trigger (lo + 1) bs

/-- the start of the cheapest window of the width; `best` is the cheapest so far with its bytes -/
def cheapestFrom (bytes : List ℕ) (width : ℕ) : List ℕ → ℕ × Option ℕ → ℕ
  | [], best => best.1
  | start :: starts, best =>
    let b := ((bytes.drop start).take width).sum
    if best.2.all (b < ·) then cheapestFrom bytes width starts (start, some b) else cheapestFrom bytes width starts best

/-- `pickWindow`, on the runs' bytes when the shim can say; `hi` is 0 when no merge is due -/
def pickWindow (m : ℕ) (bytes : Option (List ℕ)) (trigger : ℕ) : ℕ × ℕ :=
  if m < trigger then (0, 0)
  else
    match bytes with
    | none => (0, m)
    | some bytes =>
      if bytes.getLastD 0 ≤ bytes.dropLast.sum then (0, m)
      else
        match similarWindow trigger 0 bytes with
        | some w => w
        | none =>
          if m ≤ mergeMaxRuns trigger then (0, 0)
          else
            let width := m - mergeMaxRuns trigger + 1
            let best := cheapestFrom bytes width (List.range (m - width + 1)) (0, none)
            (best, best + width)

variable (runs : List (MergeRun κ))

/-- `pastAgeless`: a window that ends in an ageless run takes every older ageless run of its level -/
def pastAgeless (hi : ℕ) : ℕ :=
  if hi = 0 ∨ hi = runs.length then hi
  else
    match runs[hi - 1]? with
    | none => hi
    | some last =>
      if last.ageless then
        hi + ((runs.drop hi).takeWhile fun r =>
          r.ageless && decide (r.tables.head?.map Handle.level = last.tables.head?.map Handle.level)).length
      else hi

variable (disk : Disk κ)

/-- `pickMerge`: the window `[lo, hi)` of the runs and whether it is all of them -/
def pickMerge (runs : List (MergeRun κ)) (trigger : ℕ) : ℕ × ℕ × Bool :=
  let w := pickWindow runs.length (disk.size.map fun size => runs.map (MergeRun.bytes size)) trigger
  let hi := pastAgeless runs w.2
  (w.1, hi, decide (0 < hi ∧ w.1 = 0 ∧ hi = runs.length))

/-! ## A merge -/

/-- `sortIndexEntries` after the sort: the last of a repeated key -/
def dropRepeated : List (κ × Option Bytes) → List (κ × Option Bytes)
  | e :: e' :: es => if e.1 = e'.1 then dropRepeated (e' :: es) else e :: dropRepeated (e' :: es)
  | es => es

/-- a table's index in key order -/
def sortIndexEntries (es : List (κ × Option Bytes)) : List (κ × Option Bytes) :=
  dropRepeated (es.insertionSort fun a b => a.1 ≤ b.1)

/-- `runWriter`: a new table whenever the current one is full -/
def splitRun (disk : Disk κ) : List (κ × Option Bytes) → List (κ × Option Bytes) → ℕ → List (List (κ × Option Bytes))
  | [], cur, _ => if cur = [] then [] else [cur]
  | e :: es, cur, offset =>
    let offset' := offset + (e.2.map disk.blockLen).getD 0
    if offset' < disk.mergeTableBytes ∧ cur.length + 1 < disk.mergeTableKeys then splitRun disk es (cur ++ [e]) offset'
    else (cur ++ [e]) :: splitRun disk es [] 0

/-- `compact`: the tables of the new run, oldest input first, and how many keys `keep` refused. An input's sources are
its index in key order. -/
def compact (run : ℕ) (outLevel : ℤ) (inputs : List (Handle κ)) (dropTombstones : Bool)
    (keep : Option (κ → Bool)) : List (Handle κ) × ℕ :=
  let sources := inputs.map fun h => sortIndexEntries h.entries
  let owned := mergeLoop (sources.map List.length).sum sources
  let refused := fun e : κ × Option Bytes => keep.any fun k => !k e.1
  let kept := owned.filter fun e => !refused e && !(dropTombstones && e.2.isNone)
  let age := (inputs.head?.map Handle.age).getD 0
  ((splitRun disk kept [] 0).zipIdx.map fun t => ⟨run, t.2, age, outLevel, t.1⟩, owned.countP refused)

/-- a request to compact: `Compact`, `CompactContextUpTo` and `CompactAllContext` -/
structure Compaction (κ : Type) where
  trigger : ℕ
  keep : Option (κ → Bool)
  maxBytes : Option ℕ
  all : Bool
  fails : Bool

/-- `CompactionResult`; `postponed` is -1 when the shim cannot size the tables -/
structure CompactionResult where
  merged : ℕ
  dropped : ℕ
  full : Bool
  postponed : ℤ

variable (c : Compaction κ)

/-- the window `compactContext` merges -/
def Compaction.window (disk : Disk κ) (runs : List (MergeRun κ)) : ℕ × ℕ × Bool :=
  if c.all then if 2 ≤ runs.length then (0, runs.length, true) else (0, 0, false)
  else pickMerge disk runs (max c.trigger 2)

def oldestFirst : List (Handle κ) := runs.reverse.flatMap fun r => r.tables.reverse

/-- what stands in a table's slot once the inputs are swapped for the output -/
def swapSlot (ordered merged : List (Handle κ)) (full : Bool) (t : Handle κ) : List (Handle κ) :=
  if t.name ∉ ordered.map Handle.name then [t]
  else if full = false ∧ ordered.head?.map Handle.name = some t.name then merged
  else []

/-- the table list after a merge: the output is in front when the merge is full, in the oldest input's slot otherwise -/
def swapTables (tables ordered merged : List (Handle κ)) (full : Bool) : List (Handle κ) :=
  (if full then merged else []) ++ tables.flatMap (swapSlot ordered merged full)

/-- the bytes a bounded request finds too many to merge, -1 when the shim cannot size them -/
def Compaction.postpones (disk : Disk κ) (taken : List (MergeRun κ)) : Option ℤ :=
  c.maxBytes.bind fun limit =>
    match disk.size with
    | none => some (-1)
    | some size =>
      let bytes := (taken.map (MergeRun.bytes size)).sum
      if limit < bytes then some bytes else none

/-- the merge of the runs taken. A full one goes a level below its deepest input, another on its oldest input's level. -/
def LsmBlobStore.mergeTaken (taken : List (MergeRun κ)) (full : Bool) : LsmBlobStore κ × Except Unit CompactionResult :=
  let ordered := oldestFirst taken
  let outLevel :=
    if full then ordered.foldl (fun l h => max l (h.level + 1)) 0 else (ordered.head?.map Handle.level).getD 0
  if c.fails then (s, .error ())
  else
    let out := compact disk s.nextRun outLevel ordered full c.keep
    (⟨swapTables s.tables ordered out.1 full, s.lastAge, s.nextRun + 1⟩, .ok ⟨ordered.length, out.2, full, 0⟩)

def LsmBlobStore.compactContext : LsmBlobStore κ × Except Unit CompactionResult :=
  let runs := runsNewestFirst (newestFirst s.tables)
  let w := c.window disk runs
  if w.2.1 = 0 then (s, .ok ⟨0, 0, false, 0⟩)
  else
    let taken := (runs.take w.2.1).drop w.1
    match c.postpones disk taken with
    | some n => (s, .ok ⟨0, 0, false, n⟩)
    | none => s.mergeTaken disk c taken w.2.2

omit [LinearOrder κ] in
theorem nodup_newestFirst {tables : List (Handle κ)} :
    ((newestFirst tables).map Handle.name).Nodup ↔ (tables.map Handle.name).Nodup :=
  ((searchOrder_perm tables).map Handle.name).nodup_iff

/-! ## What a lookup answers -/

/-- what the tables say of a key, newest first: `some none` is a deletion -/
def opinionIn (k : κ) : Option (Option Bytes) := order.findSome? fun h => h.entries.lookup k

/-- what the store says of a key -/
def LsmBlobStore.opinion (k : κ) : Option (Option Bytes) := opinionIn (newestFirst s.tables) k

theorem lookupIn_eq (k : κ) (order : List (Handle κ)) :
    lookupIn (fun _ => none) k order = match opinionIn order k with
      | none => (none, false, false)
      | some none => (none, true, true)
      | some (some v) => (sliceOf v, false, true) := by
  induction order with
  | nil => rfl
  | cons h order ih =>
    simp only [lookupIn, opinionIn, List.findSome?_cons]
    cases h.entries.lookup k with
    | none => exact ih
    | some o => cases o <;> rfl

theorem containsIn_eq (k : κ) (order : List (Handle κ)) :
    containsIn (fun _ => none) k order = ((opinionIn order k).join).isSome := by
  induction order with
  | nil => rfl
  | cons h order ih =>
    simp only [containsIn, opinionIn, List.findSome?_cons]
    cases h.entries.lookup k with
    | none => exact ih
    | some o => cases o <;> rfl

/-! ## What a merge holds -/

variable {es : List (κ × Option Bytes)} {hs ts merged mid newer tables out : List (Handle κ)} {h : Handle κ}
  {rs after before taken : List (MergeRun κ)} {s : LsmBlobStore κ} {full : Bool} {level : ℤ} {run : ℕ}
  {c : Compaction κ}

theorem dropRepeated_of_nodup (h : (es.map Prod.fst).Nodup) : dropRepeated es = es := by
  induction es with
  | nil => rfl
  | cons e es ih =>
    obtain ⟨hnot, hrest⟩ := nodup_cons.1 h
    cases es with
    | nil => rfl
    | cons e' es =>
      have hne : e.1 ≠ e'.1 := fun he => hnot (by simp [he])
      rw [dropRepeated, if_neg hne, ih hrest]

theorem sortIndexEntries_perm (h : (es.map Prod.fst).Nodup) : (sortIndexEntries es).Perm es := by
  have hp := perm_insertionSort (fun a b : κ × Option Bytes => a.1 ≤ b.1) es
  rw [sortIndexEntries, dropRepeated_of_nodup ((hp.map Prod.fst).nodup_iff.2 h)]
  exact hp

theorem sortIndexEntries_pairwise (h : (es.map Prod.fst).Nodup) :
    ((sortIndexEntries es).map Prod.fst).Pairwise (· < ·) := by
  have hp := perm_insertionSort (fun a b : κ × Option Bytes => a.1 ≤ b.1) es
  have hnodup := (hp.map Prod.fst).nodup_iff.2 h
  rw [sortIndexEntries, dropRepeated_of_nodup hnodup]
  have hle : ((es.insertionSort fun a b => a.1 ≤ b.1).map Prod.fst).Pairwise (· ≤ ·) :=
    pairwise_map.2 (pairwise_insertionSort _ es)
  exact hle.imp₂ (fun _ _ h₁ h₂ => lt_of_le_of_ne h₁ h₂) hnodup

theorem findSome?_sorted (hkeys : ∀ h ∈ hs, (h.entries.map Prod.fst).Nodup) (k : κ) :
    hs.findSome? ((·.lookup k) ∘ fun h => sortIndexEntries h.entries) = opinionIn hs k := by
  induction hs with
  | nil => rfl
  | cons h hs ih =>
    have hk := hkeys h (.head _)
    have hsame : (sortIndexEntries h.entries).lookup k = h.entries.lookup k :=
      (lookup_of_perm hk (sortIndexEntries_perm hk).symm k).symm
    simp only [opinionIn, List.findSome?_cons, Function.comp_apply, hsame]
    rw [ih fun x hx => hkeys x (.tail _ hx), opinionIn]

omit [LinearOrder κ] in
theorem splitRun_flatten (disk : Disk κ) (es cur : List (κ × Option Bytes)) (offset : ℕ) :
    (splitRun disk es cur offset).flatten = cur ++ es := by
  induction es generalizing cur offset with
  | nil =>
    unfold splitRun
    split_ifs with h
    · simp [h]
    · simp
  | cons e es ih =>
    rw [splitRun]
    split
    · rw [ih]
      simp
    · rw [flatten_cons, ih]
      simp

/-- the tables a merge of `inputs`, oldest first, writes -/
structure Wrote (inputs : List (Handle κ)) (dropTombstones : Bool) (run : ℕ) (level : ℤ) (out : List (Handle κ)) :
    Prop where
  run : ∀ h ∈ out, h.run = run ∧ h.level = level
  names : (out.map Handle.name).Nodup
  keys : ∀ h ∈ out, (h.entries.map Prod.fst).Nodup
  nothing : inputs = [] → out = []
  opinion : ∀ k, opinionIn out.reverse k =
    (opinionIn inputs.reverse k).filter fun o => !(dropTombstones && o.isNone)

/-- what the inputs hold between them, split over the tables written -/
theorem compact_entries (run : ℕ) (level : ℤ) {inputs : List (Handle κ)} (dropTombstones : Bool)
    (hkeys : ∀ h ∈ inputs, (h.entries.map Prod.fst).Nodup) : ∃ kept : List (κ × Option Bytes),
      (compact disk run level inputs dropTombstones none).1.map Handle.entries = splitRun disk kept [] 0 ∧
        (kept.map Prod.fst).Nodup ∧ (inputs = [] → kept = []) ∧
        ∀ k, kept.lookup k = (opinionIn inputs.reverse k).filter fun o => !(dropTombstones && o.isNone) := by
  set sources := inputs.map fun h => sortIndexEntries h.entries with hsources
  set owned := mergeLoop (sources.map List.length).sum sources with howned
  have horder : InOrder sources := by
    intro c hc
    obtain ⟨h, hh, rfl⟩ := mem_map.1 hc
    exact sortIndexEntries_pairwise (hkeys h hh)
  obtain ⟨hnodup, hlook⟩ := lookup_mergeLoop horder le_rfl
  have hlatest : ∀ k, latest sources k = opinionIn inputs.reverse k := by
    intro k
    rw [latest, ← map_reverse, List.findSome?_map]
    exact findSome?_sorted (fun h hh => hkeys h (mem_reverse.1 hh)) k
  refine ⟨owned.filter fun e => !(dropTombstones && e.2.isNone), ?_, hnodup.sublist (filter_sublist.map _), ?_, ?_⟩
  · have hkept : (fun e : κ × Option Bytes => !Option.any (fun k : κ → Bool => !k e.1) none && !(dropTombstones && e.2.isNone)) =
        fun e => !(dropTombstones && e.2.isNone) := by simp
    rw [compact, map_map]
    exact zipIdx_map_fst 0 _
  · intro hnone
    simp [howned, hsources, hnone, mergeLoop]
  · intro k
    rw [lookup_filter hnodup, hlook, hlatest]

theorem compact_wrote (run : ℕ) (level : ℤ) {inputs : List (Handle κ)} (dropTombstones : Bool)
    (hkeys : ∀ h ∈ inputs, (h.entries.map Prod.fst).Nodup) :
    Wrote inputs dropTombstones run level (compact disk run level inputs dropTombstones none).1 := by
  obtain ⟨kept, hentries, hkept, hnothing, hlook⟩ := compact_entries disk run level dropTombstones hkeys
  have hflat : (splitRun disk kept [] 0).flatten = kept := splitRun_flatten disk kept [] 0
  refine ⟨?_, ?_, ?_, ?_, ?_⟩
  · intro h hh
    obtain ⟨t, -, rfl⟩ := mem_map.1 hh
    exact ⟨rfl, rfl⟩
  · rw [compact, map_map, List.Nodup, pairwise_map]
    refine (zipIdx_pairwise _).imp fun hlt he => ?_
    exact hlt.ne (Prod.mk.inj he).2
  · intro h hh
    have hmem : h.entries ∈ splitRun disk kept [] 0 := hentries ▸ mem_map_of_mem hh
    have hsub := (sublist_flatten_of_mem hmem).map Prod.fst
    rw [hflat] at hsub
    exact hkept.sublist hsub
  · intro hnone
    rw [hnothing hnone] at hentries
    exact map_eq_nil_iff.1 hentries
  · intro k
    have hpart : (splitRun disk kept [] 0).reverse.flatten.Perm kept := by
      have hperm := (reverse_perm (splitRun disk kept [] 0)).flatten
      rwa [hflat] at hperm
    calc opinionIn (compact disk run level inputs dropTombstones none).1.reverse k
        = (splitRun disk kept [] 0).reverse.findSome? (·.lookup k) := by
          rw [← hentries, ← map_reverse, List.findSome?_map]
          rfl
      _ = kept.lookup k := by
          rw [findSome?_lookup]
          exact lookup_of_perm ((hpart.map Prod.fst).nodup_iff.2 hkept) hpart k
      _ = (opinionIn inputs.reverse k).filter fun o => !(dropTombstones && o.isNone) := hlook k

/-! ## Runs -/

section

omit [LinearOrder κ]

/-- the order is made of runs, each of tables of its own number -/
structure Grouped (rs : List (MergeRun κ)) : Prop where
  flat : order = rs.flatMap MergeRun.tables
  ids : (rs.map MergeRun.id).Nodup
  own : ∀ r ∈ rs, r.tables ≠ [] ∧ ∀ h ∈ r.tables, h.run = r.id

theorem addToRun_new (hnew : h.run ∉ rs.map MergeRun.id) : addToRun h rs = rs ++ [⟨h.run, [h]⟩] := by
  induction rs with
  | nil => rfl
  | cons r rs ih =>
    simp only [map_cons, mem_cons, not_or] at hnew
    rw [addToRun, if_neg (Ne.symm hnew.1), ih hnew.2]
    rfl

theorem addToRun_last (hnew : h.run ∉ rs.map MergeRun.id) :
    addToRun h (rs ++ [⟨h.run, ts⟩]) = rs ++ [⟨h.run, ts ++ [h]⟩] := by
  induction rs with
  | nil => simp [addToRun]
  | cons r rs ih =>
    simp only [map_cons, mem_cons, not_or] at hnew
    rw [cons_append, addToRun, if_neg (Ne.symm hnew.1), ih hnew.2]
    rfl

theorem foldl_addToRun {id : ℕ} (hnew : id ∉ rs.map MergeRun.id) (hrun : ∀ h ∈ hs, h.run = id) :
    hs.foldl (fun rs h => addToRun h rs) (rs ++ [⟨id, ts⟩]) = rs ++ [⟨id, ts ++ hs⟩] := by
  induction hs generalizing ts with
  | nil => simp
  | cons h hs ih =>
    obtain rfl : h.run = id := hrun h (.head _)
    rw [foldl_cons, addToRun_last hnew, ih fun x hx => hrun x (.tail _ hx)]
    simp

/-- **Runs are found again.** -/
theorem Grouped.runs_eq {order : List (Handle κ)} (hg : Grouped order rs) : runsNewestFirst order = rs := by
  have hall : ∀ (rs acc : List (MergeRun κ)), ((acc ++ rs).map MergeRun.id).Nodup →
      (∀ r ∈ rs, r.tables ≠ [] ∧ ∀ h ∈ r.tables, h.run = r.id) →
      (rs.flatMap MergeRun.tables).foldl (fun rs h => addToRun h rs) acc = acc ++ rs := by
    intro rs
    induction rs with
    | nil => simp
    | cons r rs ih =>
      intro acc hids hown
      obtain ⟨hne, hrun⟩ := hown r (.head _)
      have hnew : r.id ∉ acc.map MergeRun.id := by
        rw [map_append] at hids
        exact fun hm => (nodup_append.1 hids).2.2 _ hm _ (.head _) rfl
      obtain ⟨h, hs, hts⟩ := exists_cons_of_ne_nil hne
      have hh : h.run = r.id := hrun h (by simp [hts])
      have hfirst : r.tables.foldl (fun rs h => addToRun h rs) acc = acc ++ [r] := by
        rw [hts, foldl_cons, addToRun_new (by rwa [hh]), hh,
          foldl_addToRun hnew fun x hx => hrun x (by simp [hts, hx]), singleton_append, ← hts]
      rw [flatMap_cons, foldl_append, hfirst, ih (acc ++ [r]) (by simpa using hids)
        fun x hx => hown x (.tail _ hx), append_assoc]
      rfl
  rw [runsNewestFirst, hg.flat, hall rs [] (by simpa using hg.ids) hg.own, nil_append]

theorem Grouped.cons {order : List (Handle κ)} (hg : Grouped order rs) (hnew : h.run ∉ rs.map MergeRun.id) :
    Grouped (h :: order) (⟨h.run, [h]⟩ :: rs) := by
  refine ⟨?_, nodup_cons.2 ⟨hnew, hg.ids⟩, forall_mem_cons.2 ⟨⟨by simp, by simp⟩, hg.own⟩⟩
  rw [hg.flat]
  rfl

theorem Grouped.mem_tables (hg : Grouped (newestFirst tables) rs) {r : MergeRun κ} (hr : r ∈ rs) (hh : h ∈ r.tables) :
    h ∈ tables :=
  mem_searchOrder.1 (hg.flat ▸ mem_flatMap.2 ⟨r, hr, hh⟩ : h ∈ newestFirst tables)

theorem Grouped.id_of_tables (hg : Grouped (newestFirst tables) rs) {r : MergeRun κ} (hr : r ∈ rs) :
    ∃ t ∈ tables, t.run = r.id := by
  obtain ⟨hne, hruns⟩ := hg.own r hr
  obtain ⟨t, ht⟩ := exists_mem_of_ne_nil _ hne
  exact ⟨t, hg.mem_tables hr ht, hruns t ht⟩

/-! ## The store's invariant -/

/-- names are distinct, run numbers are used up, a table's keys are distinct, runs stand together -/
structure StoreInv (s : LsmBlobStore κ) : Prop where
  names : (s.tables.map Handle.name).Nodup
  fresh : ∀ h ∈ s.tables, h.run < s.nextRun
  keys : ∀ h ∈ s.tables, (h.entries.map Prod.fst).Nodup
  runs : ∃ rs, Grouped (newestFirst s.tables) rs

theorem new_storeInv : StoreInv (LsmBlobStore.new : LsmBlobStore κ) :=
  ⟨by simp [LsmBlobStore.new], by simp [LsmBlobStore.new], by simp [LsmBlobStore.new], [], rfl, by simp, by simp⟩

theorem StoreInv.nextRun_notMem (hi : StoreInv s) (hg : Grouped (newestFirst s.tables) rs) :
    s.nextRun ∉ rs.map MergeRun.id := by
  intro hm
  obtain ⟨r, hr, hrid⟩ := mem_map.1 hm
  obtain ⟨t, ht, htr⟩ := hg.id_of_tables hr
  exact (hi.fresh t ht).ne (htr.trans hrid)

theorem flatMap_swapSlot_other {ordered l : List (Handle κ)} (h : ∀ t ∈ l, t.name ∉ ordered.map Handle.name) :
    (l.flatMap fun t => (swapSlot ordered merged full t).reverse) = l := by
  rw [flatMap_congr (g := fun t => [t]), flatMap_singleton']
  intro t ht
  rw [swapSlot, if_pos (h t ht), reverse_singleton]

/-- of a window only the oldest slot is filled -/
theorem flatMap_swapSlot_window (hnodup : (mid.map Handle.name).Nodup) (hempty : mid = [] → merged = []) :
    (mid.flatMap fun t => (swapSlot mid.reverse merged false t).reverse) = merged.reverse := by
  rcases eq_nil_or_concat mid with rfl | ⟨rest, oldest, rfl⟩
  · simp [hempty rfl]
  · have hne : ∀ t ∈ rest, t.name ≠ oldest.name := by
      intro t ht he
      rw [concat_eq_append, map_append, nodup_append] at hnodup
      exact hnodup.2.2 _ (mem_map_of_mem ht) _ (.head _) he
    have hrest : (rest.flatMap fun t => (swapSlot (rest.concat oldest).reverse merged false t).reverse) = [] := by
      rw [flatMap_eq_nil_iff]
      intro t ht
      have hin : t.name ∈ (rest.concat oldest).reverse.map Handle.name :=
        mem_map_of_mem (mem_reverse.2 (by simp [ht]))
      rw [swapSlot, if_neg (not_not.2 hin), if_neg, reverse_nil]
      simp [(hne t ht).symm]
    have holdest : swapSlot (rest.concat oldest).reverse merged false oldest = merged := by
      have hin : oldest.name ∈ (rest.concat oldest).reverse.map Handle.name :=
        mem_map_of_mem (mem_reverse.2 (by simp))
      rw [swapSlot, if_neg (not_not.2 hin)]
      simp
    conv_lhs => rw [concat_eq_append, flatMap_append]
    rw [← concat_eq_append, hrest, nil_append, flatMap_singleton, holdest]

/-- the output of a window stands in the window's place -/
theorem newestFirst_swap_window {older : List (Handle κ)} (hnames : (tables.map Handle.name).Nodup)
    (horder : newestFirst tables = newer ++ mid ++ older) (hempty : mid = [] → merged = [])
    (hlevel : ∀ h ∈ merged, h.level = (mid.reverse.head?.map Handle.level).getD 0) :
    newestFirst (swapTables tables mid.reverse merged false) = newer ++ merged.reverse ++ older := by
  have hnodup := nodup_newestFirst.2 hnames
  rw [horder, map_append, map_append, nodup_append, nodup_append] at hnodup
  obtain ⟨⟨-, hmid, hnm⟩, -, hmo⟩ := hnodup
  have hin : ∀ {t : Handle κ}, t.name ∈ mid.reverse.map Handle.name ↔ t.name ∈ mid.map Handle.name := by simp
  have hslots : swapTables tables mid.reverse merged false = tables.flatMap (swapSlot mid.reverse merged false) := rfl
  rw [hslots, newestFirst, searchOrder_flatMap, ← newestFirst, horder, flatMap_append, flatMap_append,
    flatMap_swapSlot_window hmid hempty, flatMap_swapSlot_other, flatMap_swapSlot_other]
  · intro t ht hm
    exact hmo _ (mem_append_right _ (hin.1 hm)) _ (mem_map_of_mem ht) rfl
  · intro t ht hm
    exact hnm _ (mem_map_of_mem ht) _ (hin.1 hm) rfl
  · -- the output is on the oldest input's level
    intro t ht x hx
    unfold swapSlot at hx
    split at hx
    · rw [mem_singleton.1 hx]
    · split_ifs at hx with hold
      · rw [hlevel x hx]
        cases hhead : mid.reverse.head? with
        | none => simp [hhead] at hold
        | some t₀ =>
          have hname : t₀.name = t.name := by simpa [hhead] using hold
          have ht₀ : t₀ ∈ newestFirst tables := by
            have := mem_reverse.1 (mem_of_mem_head? hhead)
            rw [horder]
            simp [this]
          rw [inj_on_of_nodup_map hnames (mem_searchOrder.1 ht₀) ht hname]
          rfl
      · cases hx

theorem flatMap_swapSlot_full (ordered merged l : List (Handle κ)) :
    l.flatMap (swapSlot ordered merged true) = l.filter fun t => t.name ∉ ordered.map Handle.name := by
  induction l with
  | nil => rfl
  | cons t l ih =>
    rw [flatMap_cons, ih, swapSlot]
    by_cases ht : t.name ∈ ordered.map Handle.name
    · rw [if_neg (not_not.2 ht), if_neg (by simp), filter_cons_of_neg (by simpa using ht), nil_append]
    · rw [if_pos ht, filter_cons_of_pos (by simpa using ht), singleton_append]

/-- a full merge leaves its output, below what was flushed since it began -/
theorem newestFirst_swap_full {i : ℤ} (hnames : (tables.map Handle.name).Nodup)
    (horder : newestFirst tables = newer ++ mid) (hlevel : ∀ h ∈ merged, h.level = i)
    (hnewer : ∀ h ∈ newer, h.level < i) :
    newestFirst (swapTables tables mid.reverse merged true) = newer ++ merged.reverse := by
  have hnodup := nodup_newestFirst.2 hnames
  rw [horder, map_append, nodup_append] at hnodup
  have hkept : (newestFirst tables).filter (fun t => t.name ∉ mid.reverse.map Handle.name) = newer := by
    rw [horder, filter_append, filter_eq_self.2, filter_eq_nil_iff.2, append_nil]
    · intro t ht
      simpa using ⟨t, ht, rfl⟩
    · intro t ht
      simp only [decide_eq_true_eq, map_reverse, mem_reverse]
      exact fun hm => hnodup.2.2 _ (mem_map_of_mem ht) _ hm rfl
  have hrest : newestFirst (tables.filter fun t => t.name ∉ mid.reverse.map Handle.name) = newer := by
    rw [newestFirst, searchOrder_filter, ← newestFirst, hkept]
  have hlower : ∀ t ∈ tables.filter (fun t => t.name ∉ mid.reverse.map Handle.name), t.level < i := by
    intro t ht
    refine hnewer t ?_
    rw [← hrest]
    exact mem_searchOrder.2 ht
  rw [swapTables, flatMap_swapSlot_full, if_pos rfl, newestFirst, searchOrder_append_of_lt hlevel hlower, ← newestFirst, hrest]

/-! ## A merge changes no answer -/

theorem similarWindow_lt {trigger lo : ℕ} {bytes : List ℕ} {w : ℕ × ℕ} (h : similarWindow trigger lo bytes = some w) :
    w.1 < w.2 := by
  induction bytes generalizing lo with
  | nil => cases h
  | cons b bs ih =>
    cases bs with
    | nil => cases h
    | cons b' bs =>
      rw [similarWindow] at h
      · split at h
        · cases h
          omega
        · exact ih h
      · simp

theorem pastAgeless_ge (hi : ℕ) : hi ≤ pastAgeless runs hi := by
  unfold pastAgeless
  split
  · exact le_rfl
  · split
    · exact le_rfl
    · split <;> omega

theorem pickWindow_le (m : ℕ) (bytes : Option (List ℕ)) (trigger : ℕ) :
    (pickWindow m bytes trigger).1 ≤ (pickWindow m bytes trigger).2 := by
  unfold pickWindow
  split
  · exact le_rfl
  · split
    · exact Nat.zero_le _
    · split
      · exact Nat.zero_le _
      · split
        · rename_i h
          exact (similarWindow_lt h).le
        · split
          · exact le_rfl
          · exact Nat.le_add_right _ _

/-- the window of a merge is one, and a full merge takes everything -/
theorem window_spec (c : Compaction κ) (disk : Disk κ) (runs : List (MergeRun κ)) :
    (c.window disk runs).1 ≤ (c.window disk runs).2.1 ∧
      ((c.window disk runs).2.2 = true → (c.window disk runs).1 = 0 ∧ (c.window disk runs).2.1 = runs.length) := by
  unfold Compaction.window
  split
  · split
    · exact ⟨Nat.zero_le _, fun _ => ⟨rfl, rfl⟩⟩
    · exact ⟨le_rfl, fun h => absurd h (by decide)⟩
  · refine ⟨(pickWindow_le _ _ _).trans (pastAgeless_ge _ _), fun h => ?_⟩
    have h := of_decide_eq_true h
    exact ⟨h.2.1, h.2.2⟩

theorem oldestFirst_eq : oldestFirst runs = (runs.flatMap MergeRun.tables).reverse := by
  rw [reverse_flatMap]
  rfl

theorem Grouped.mem_taken (hg : Grouped (newestFirst tables) (before ++ taken ++ after)) (hh : h ∈ oldestFirst taken) :
    h ∈ tables := by
  rw [oldestFirst_eq, mem_reverse] at hh
  obtain ⟨r, hr, hh⟩ := mem_flatMap.1 hh
  exact hg.mem_tables (by simp [hr]) hh

theorem window_split {lo n : ℕ} (hle : lo ≤ n) (rs : List (MergeRun κ)) : rs = rs.take lo ++ (rs.take n).drop lo ++ rs.drop n := by
  have htake : rs.take lo = (rs.take n).take lo := by rw [take_take, min_eq_left hle]
  rw [htake, take_append_drop, take_append_drop]

theorem filter_all (o : Option (Option Bytes)) : (o.filter fun o => !(false && o.isNone)) = o := by
  cases o <;> rfl

theorem join_or_filter_some (p o : Option (Option Bytes)) :
    (p.or (o.filter fun o => !(true && o.isNone))).join = (p.or o).join := by
  rcases p with _ | p
  · rcases o with _ | _ | _ <;> rfl
  · rfl

end

/-- **A flushed table is the newest.** -/
theorem StoreInv.flushed (hi : StoreInv s) (hrun : h.run = s.nextRun) (hkeys : (h.entries.map Prod.fst).Nodup)
    (hlevel : ∀ t ∈ s.tables, h.level ≤ t.level) (age : ℕ) :
    let s' : LsmBlobStore κ := ⟨s.tables ++ [h], age, s.nextRun + 1⟩
    StoreInv s' ∧ ∀ k, s'.opinion k = (h.entries.lookup k).or (s.opinion k) := by
  intro s'
  have horder : newestFirst s'.tables = h :: newestFirst s.tables := searchOrder_concat hlevel
  obtain ⟨rs, hg⟩ := hi.runs
  refine ⟨⟨?_, ?_, ?_, _, horder ▸ hg.cons (hrun ▸ hi.nextRun_notMem hg)⟩, fun k => ?_⟩
  · rw [map_append, nodup_append]
    refine ⟨hi.names, by simp, fun a ha b hb he => ?_⟩
    obtain ⟨t, ht, rfl⟩ := mem_map.1 ha
    obtain rfl : b = h.name := by simpa using hb
    exact (hi.fresh t ht).ne ((congrArg Prod.fst he).trans hrun)
  · exact forall_mem_append.2
      ⟨fun t ht => (hi.fresh t ht).trans (Nat.lt_succ_self _), forall_mem_singleton.2 (hrun ▸ Nat.lt_succ_self _)⟩
  · exact forall_mem_append.2 ⟨hi.keys, forall_mem_singleton.2 hkeys⟩
  · simp only [LsmBlobStore.opinion, opinionIn, horder, List.findSome?_cons]
    cases h.entries.lookup k <;> rfl

/-- what a merge of the runs `taken` wrote, as it stands when the output is swapped in: a full merge took everything but what
was flushed since it began -/
structure Merged (before taken after : List (MergeRun κ)) (full : Bool) (run : ℕ) (level : ℤ) (out : List (Handle κ)) : Prop where
  wrote : Wrote (oldestFirst taken) full run level out
  window : full = false → level = ((oldestFirst taken).head?.map Handle.level).getD 0
  all : full = true → after = [] ∧ ∀ h ∈ before.flatMap MergeRun.tables, h.level < level

/-- the output stands where the merged runs stood -/
theorem newestFirst_swapped (hnames : (s.tables.map Handle.name).Nodup)
    (hg : Grouped (newestFirst s.tables) (before ++ taken ++ after))
    (hm : Merged before taken after full run level out) :
    newestFirst (swapTables s.tables (oldestFirst taken) out full) =
      before.flatMap MergeRun.tables ++ out.reverse ++ after.flatMap MergeRun.tables := by
  obtain ⟨hout, hwindow, hall⟩ := hm
  have hflat := hg.flat
  rw [flatMap_append, flatMap_append] at hflat
  have hold := oldestFirst_eq taken
  cases full with
  | false =>
    rw [hold] at hout hwindow ⊢
    apply newestFirst_swap_window hnames hflat
    · exact fun h => hout.nothing (by simp [h])
    · exact fun h hh => (hout.run h hh).2.trans (hwindow rfl)
  | true =>
    obtain ⟨rfl, hnewer⟩ := hall rfl
    rw [hold, flatMap_nil, append_nil]
    apply newestFirst_swap_full hnames _ (fun h hh => (hout.run h hh).2) hnewer
    simpa using hflat

/-- what stands in the store once the output is swapped in -/
theorem mem_swapped (hnames : (s.tables.map Handle.name).Nodup)
    (hg : Grouped (newestFirst s.tables) (before ++ taken ++ after)) (hm : Merged before taken after full run level out)
    (hh : h ∈ swapTables s.tables (oldestFirst taken) out full) : h ∈ out ∨ h ∈ s.tables := by
  have hh' : h ∈ newestFirst (swapTables s.tables (oldestFirst taken) out full) := mem_searchOrder.2 hh
  rw [newestFirst_swapped hnames hg hm] at hh'
  have hin : h ∈ out ∨ h ∈ newestFirst s.tables := by
    rw [hg.flat, flatMap_append, flatMap_append]
    simp only [mem_append, mem_reverse] at hh' ⊢
    tauto
  exact hin.imp_right mem_searchOrder.1

theorem nodup_replace {α β : Type*} {f : α → β} {a b c out : List α} (hnodup : ((a ++ b ++ c).map f).Nodup)
    (hout : (out.map f).Nodup) (hapart : ∀ x ∈ out, ∀ y ∈ a ++ c, f x ≠ f y) : ((a ++ out ++ c).map f).Nodup := by
  have hkept : ((a ++ c).map f).Nodup :=
    hnodup.sublist (((sublist_append_left a b).append (Sublist.refl c)).map f)
  have hperm : (a ++ out ++ c).Perm (out ++ (a ++ c)) := by
    rw [append_assoc]
    exact perm_append_comm_assoc _ _ _
  rw [(hperm.map f).nodup_iff, map_append, nodup_append]
  refine ⟨hout, hkept, forall_mem_map.2 fun x hx => forall_mem_map.2 fun y hy => hapart x hx y hy⟩

/-- **Merged tables hold what the store held.** The store with a window of runs replaced by what a merge of them wrote. -/
theorem StoreInv.swapped (hi : StoreInv s) (hg : Grouped (newestFirst s.tables) (before ++ taken ++ after))
    (hm : Merged before taken after full run level out) (hrun : ∀ h ∈ s.tables, h.run ≠ run) {age next : ℕ}
    (hnext : run < next) (hgrow : s.nextRun ≤ next) :
    let s' : LsmBlobStore κ := ⟨swapTables s.tables (oldestFirst taken) out full, age, next⟩
    StoreInv s' ∧ ∀ k, (s'.opinion k).join = (s.opinion k).join := by
  intro s'
  have horder : newestFirst s'.tables =
      before.flatMap MergeRun.tables ++ out.reverse ++ after.flatMap MergeRun.tables := newestFirst_swapped hi.names hg hm
  have hmem : ∀ h ∈ s'.tables, h ∈ out ∨ h ∈ s.tables := fun h hh => mem_swapped hi.names hg hm hh
  have hout := hm.wrote
  have hnew : ∀ h ∈ out, h.run = run := fun h hh => (hout.run h hh).1
  have hflat := hg.flat
  rw [flatMap_append, flatMap_append] at hflat
  refine ⟨⟨?_, ?_, ?_, before ++ (if out = [] then [] else [⟨run, out.reverse⟩]) ++ after, ?_, ?_, ?_⟩, fun k => ?_⟩
  · -- the output's names are of a new run
    have hnames := nodup_newestFirst.2 hi.names
    rw [hflat] at hnames
    rw [← nodup_newestFirst, horder]
    refine nodup_replace hnames ?_ fun h hh t ht he => ?_
    · rw [map_reverse, nodup_reverse]
      exact hout.names
    · have htable : t ∈ newestFirst s.tables := by
        rw [hflat]
        simp only [mem_append] at ht ⊢
        tauto
      exact hrun t (mem_searchOrder.1 htable) ((congrArg Prod.fst he).symm.trans (hnew h (mem_reverse.1 hh)))
  · intro h hh
    rcases hmem h hh with hh | hh
    · exact hnew h hh ▸ hnext
    · exact (hi.fresh h hh).trans_le hgrow
  · intro h hh
    rcases hmem h hh with hh | hh
    · exact hout.keys h hh
    · exact hi.keys h hh
  · rw [horder]
    split_ifs with hnil
    · simp [hnil]
    · simp
  · refine nodup_replace hg.ids (by split <;> simp) fun x hx r hr he => ?_
    have hr' : r ∈ before ++ taken ++ after := by
      simp only [mem_append] at hr ⊢
      tauto
    obtain ⟨t, ht, htr⟩ := hg.id_of_tables hr'
    split at hx
    · cases hx
    · rw [mem_singleton.1 hx] at he
      exact hrun t ht (htr.trans he.symm)
  · intro r hr
    simp only [mem_append] at hr
    rcases hr with (hr | hr) | hr
    · exact hg.own r (by simp [hr])
    · split_ifs at hr with hne
      · cases hr
      · obtain rfl := mem_singleton.1 hr
        exact ⟨by simpa using hne, fun h hh => hnew h (mem_reverse.1 hh)⟩
    · exact hg.own r (by simp [hr])
  · have hout' := hout.opinion k
    rw [oldestFirst_eq, reverse_reverse] at hout'
    simp only [LsmBlobStore.opinion, horder, hflat, opinionIn, List.findSome?_append] at hout' ⊢
    cases full with
    | false => rw [hout', filter_all]
    | true =>
      obtain ⟨rfl, -⟩ := hm.all rfl
      simp only [flatMap_nil, List.findSome?_nil, Option.or_none]
      rw [hout', join_or_filter_some]

theorem mergeTaken_keeps (hi : StoreInv s) (disk : Disk κ) (hk : c.keep = none)
    (hg : Grouped (newestFirst s.tables) (before ++ taken ++ after)) (hfull : full = true → before = [] ∧ after = []) :
    StoreInv (s.mergeTaken disk c taken full).1 ∧
      ∀ k, ((s.mergeTaken disk c taken full).1.opinion k).join = (s.opinion k).join := by
  have hkeys : ∀ h ∈ oldestFirst taken, (h.entries.map Prod.fst).Nodup := fun h hh => hi.keys h (hg.mem_taken hh)
  unfold LsmBlobStore.mergeTaken
  dsimp only
  split
  · exact ⟨hi, fun _ => rfl⟩
  · rw [hk]
    refine hi.swapped hg ⟨compact_wrote disk s.nextRun _ full hkeys, fun h => ?_, fun h => ?_⟩
      (fun h hh => (hi.fresh h hh).ne) (Nat.lt_succ_self _) (Nat.le_succ _)
    · simp [h]
    · obtain ⟨rfl, rfl⟩ := hfull h
      simp

/-- **Compaction.** A merge that keeps every key changes no answer. -/
theorem compact_keeps (hi : StoreInv s) (disk : Disk κ) (hk : c.keep = none) :
    StoreInv (s.compactContext disk c).1 ∧ ∀ k, ((s.compactContext disk c).1.opinion k).join = (s.opinion k).join := by
  obtain ⟨rs, hg⟩ := hi.runs
  obtain ⟨hle, hfull⟩ := window_spec c disk rs
  unfold LsmBlobStore.compactContext
  rw [hg.runs_eq]
  dsimp only
  generalize c.window disk rs = w at hle hfull ⊢
  obtain ⟨lo, n, full⟩ := w
  split
  · exact ⟨hi, fun _ => rfl⟩
  · split
    · exact ⟨hi, fun _ => rfl⟩
    · refine mergeTaken_keeps hi disk hk (window_split hle rs ▸ hg) fun h => ?_
      obtain ⟨rfl, rfl⟩ := hfull h
      simp

end Kdb.Sstable
