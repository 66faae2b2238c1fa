/-
The write-ahead log over a chain of segments (`storage/wal/default_wal.go`): runs that open the log, recover it and
append to it, and end by closing or in a crash that leaves any beginning of the append in flight.

- `acked_records_recovered`: recovery succeeds and hands out every record whose append returned, when no write lands
  behind an unfinished record.
- `append_behind_torn_tail`: nothing cuts an unfinished record off; the next run appends behind it and its records are
  lost.
A rotated segment can get the name of the active one (when that holds nothing but an unfinished record). The log then
seals the segment it goes on writing to and every later append of the run is refused (`Running.size`).
Truncate, the log's id and failures of the disk itself are left out, and the handler of a recovery accepts every record.
-/
import Kdb.Lib.Machine
import Kdb.Lib.Entries
import Kdb.Storage.WalCodec

namespace Kdb.Wal

open Machine Bytes List

/-! ## The segments -/

/-- a log's segment: the first one has the plain name, a rotated one the sequence its records start at -/
abbrev SegmentName := Option ℕ

local instance : LawfulBEq SegmentName := inferInstance

/-- the `firstSequence` of `ParseWalFileName` -/
def firstSequence : SegmentName → ℕ
  | none => 1
  | some n => n

/-- the place of a name in a listing: the plain name is a beginning of the others, which are padded with zeros -/
def rank : SegmentName → ℕ
  | none => 0
  | some n => n

structure PlatformIOError where
  message : String
  segmentName : SegmentName
  deriving DecidableEq

/-- what the log uses of a `PlatformIOShim`: the segments, those this process has sealed, and the largest append taken -/
structure Shim where
  segments : List (SegmentName × Bytes)
  sealed : List SegmentName
  maxAppendBytes : Option ℕ

/-- bytes at the end of a segment, which is created when it is not there -/
def write : List (SegmentName × Bytes) → SegmentName → Bytes → List (SegmentName × Bytes)
  | [], name, b => [(name, b)]
  | (m, c) :: rest, name, b => if m = name then (m, c ++ b) :: rest else (m, c) :: write rest name b

variable (io : Shim) (name : SegmentName)

/-- `readSegment`: no bytes when it is not there -/
def Shim.read : Bytes := (io.segments.lookup name).getD []

/-- `AppendToSegment`, with the size after it -/
def Shim.appendToSegment (b : Bytes) : Except PlatformIOError (Shim × ℕ) :=
  if ∃ m ∈ io.maxAppendBytes, b.length > m then .error ⟨"append size exceeds max", name⟩
  else if name ∈ io.sealed then .error ⟨"segment sealed", name⟩
  else .ok ({ io with segments := write io.segments name b }, (io.read name ++ b).length)

def Shim.sealSegment : Shim := { io with sealed := name :: io.sealed }

def Shim.listSegments : List SegmentName :=
  (io.segments.map Prod.fst).insertionSort fun a b => rank a ≤ rank b

def latestWalChain (names : List SegmentName) : List SegmentName :=
  (names.filter fun name => 1 ≤ firstSequence name).insertionSort fun a b => firstSequence a ≤ firstSequence b

/-! ## The log -/

/-- the settings of a run: the factory's, the storage configuration's and the shim's -/
structure Settings where
  factoryMaxSegmentBytes : ℤ
  configMaxSegmentBytes : ℤ
  factorySkipCorrupt : Bool
  configSkipCorrupt : Bool
  maxAppendBytes : Option ℕ

def defaultMaxSegmentBytes : ℤ := 64 * 1024 * 1024

variable (s : Settings)

/-- the size a run rotates at -/
def Settings.maxSegmentBytes : ℤ :=
  if 0 < s.factoryMaxSegmentBytes then s.factoryMaxSegmentBytes
  else if 0 < s.configMaxSegmentBytes then s.configMaxSegmentBytes
  else defaultMaxSegmentBytes

/-- `DefaultWriteAheadLog` -/
structure WriteAheadLog where
  walMaxSegmentBytes : ℤ
  skipCorrupt : Bool
  segments : List SegmentName
  segmentName : SegmentName
  sequenceCounter : ℕ
  segmentSize : ℕ

def openOrCreate (io : Shim) : Except PlatformIOError (Shim × WriteAheadLog) :=
  let skipCorrupt := s.factorySkipCorrupt || s.configSkipCorrupt
  match (latestWalChain io.listSegments).getLast? with
  | none =>
    match io.appendToSegment none [] with
    | .error e => .error e
    | .ok (io', _) => .ok (io', ⟨s.maxSegmentBytes, skipCorrupt, [none], none, 0, 0⟩)
  | some active =>
    .ok (io, ⟨s.maxSegmentBytes, skipCorrupt, latestWalChain io.listSegments, active, 0, (io.read active).length⟩)

structure RecoverySummary where
  recordsReplayed : ℕ
  recordsSkippedCorrupt : ℕ
  lastSequence : ℕ
  segmentsScanned : ℕ
  deriving DecidableEq

/-- the highest sequence of the records, 0 without any -/
def maxSequence (rs : List Record) : ℕ := rs.foldl (fun m r => max m r.sequence) 0

/-- the loop of `Recover`: the records handed out, and how many frames were skipped -/
def replay (io : Shim) (skipCorrupt : Bool) : List SegmentName → List Record × Except CorruptionError ℕ
  | [] => ([], .ok 0)
  | name :: rest =>
    match decodeRecords name skipCorrupt (io.read name) with
    | .error e => ([], .error e)
    | .ok (records, skipped, _) =>
      let (more, result) := replay io skipCorrupt rest
      (records.insertionSort (fun a b => a.sequence ≤ b.sequence) ++ more, result.map (skipped + ·))

variable (w : WriteAheadLog)

/-- `Recover`: the records handed to the handler, and the summary with the log after it -/
def recover : List Record × Except CorruptionError (RecoverySummary × WriteAheadLog) :=
  let (records, result) := replay io w.skipCorrupt w.segments
  (records, result.map fun skipped =>
    (⟨records.length, skipped, maxSequence records, w.segments.length⟩,
      { w with
        sequenceCounter := max w.sequenceCounter (maxSequence records)
        segmentSize := (w.segments.getLast?.map fun name => (io.read name).length).getD 0 }))

/-- the write would push the active segment past its limit -/
def WriteAheadLog.full (incomingBytes : ℕ) : Prop :=
  ¬ (w.walMaxSegmentBytes ≤ 0 ∨ w.segmentSize = 0) ∧ ¬ (w.segmentSize + incomingBytes : ℤ) ≤ w.walMaxSegmentBytes
  deriving Decidable

/-- `rotateIfFullLocked` -/
def rotateIfFullLocked (incomingBytes first : ℕ) : Except PlatformIOError (Shim × WriteAheadLog) :=
  if w.full incomingBytes then
    match io.appendToSegment (some first) [] with
    | .error e => .error e
    | .ok (io', _) =>
      .ok (io'.sealSegment w.segmentName,
        { w with segments := w.segments ++ [some first], segmentName := some first, segmentSize := 0 })
  else .ok (io, w)

structure AppendResult where
  sequence : ℕ
  segmentOffset : ℕ
  segmentSizeAfterBytes : ℕ
  deriving DecidableEq

/-- the records of an append with the sequences they get -/
def number : ℕ → List Record → List Record
  | _, [] => []
  | counter, r :: rs => { r with sequence := counter + 1 } :: number (counter + 1) rs

/-- the size of the records' frames -/
def totalBytes (rs : List Record) : ℕ := (rs.map fun r => (encodeRecord r).length).sum

/-- the writing loop of `AppendBatch` -/
def writeEach (io : Shim) (w : WriteAheadLog) (result : AppendResult) :
    List Bytes → Except PlatformIOError AppendResult × Shim × WriteAheadLog
  | [] => (.ok result, io, w)
  | b :: bs =>
    match io.appendToSegment w.segmentName b with
    | .error e => (.error e, io, w)
    | .ok (io', newSize) =>
      writeEach io' { w with sequenceCounter := w.sequenceCounter + 1, segmentSize := newSize }
        ⟨w.sequenceCounter + 1, w.segmentSize, newSize⟩ bs

def appendBatch (records : List Record) : Except PlatformIOError AppendResult × Shim × WriteAheadLog :=
  if records = [] then (.ok ⟨w.sequenceCounter, 0, w.segmentSize⟩, io, w)
  else
    let numbered := number w.sequenceCounter records
    match rotateIfFullLocked io w (totalBytes numbered) (w.sequenceCounter + 1) with
    | .error e => (.error e, io, w)
    | .ok (io', w') => writeEach io' w' ⟨0, 0, 0⟩ (numbered.map encodeRecord)

def append (record : Record) : Except PlatformIOError AppendResult × Shim × WriteAheadLog :=
  let seq := w.sequenceCounter + 1
  let b := encodeRecord { record with sequence := seq }
  match rotateIfFullLocked io w b.length seq with
  | .error e => (.error e, io, w)
  | .ok (io', w') =>
    match io'.appendToSegment w'.segmentName b with
    | .error e => (.error e, io', w')
    | .ok (io'', newSize) =>
      (.ok ⟨seq, w'.segmentSize, newSize⟩, io'', { w' with sequenceCounter := seq, segmentSize := newSize })

theorem append_eq_appendBatch (io : Shim) (w : WriteAheadLog) (record : Record) :
    append io w record = appendBatch io w [record] := by
  have htotal : totalBytes [{ record with sequence := w.sequenceCounter + 1 }] =
      (encodeRecord { record with sequence := w.sequenceCounter + 1 }).length := by simp [totalBytes]
  simp only [append, appendBatch, number, cons_ne_nil, if_false, htotal]
  have hcounter : ∀ io' w', rotateIfFullLocked io w (encodeRecord { record with sequence := w.sequenceCounter + 1 }).length
      (w.sequenceCounter + 1) = .ok (io', w') → w'.sequenceCounter = w.sequenceCounter := by
    intro io' w' h
    simp only [rotateIfFullLocked] at h
    split at h
    · split at h <;> cases h
      rfl
    · cases h
      rfl
  split
  · rfl
  · rename_i io' w' hrotate
    simp only [map_cons, map_nil, writeEach, hcounter io' w' hrotate]

/-! ## Histories -/

/-- what is on the disk, the log of the run that is on, and the records whose append returned -/
structure World where
  io : Shim
  wal : Option WriteAheadLog
  acked : List Record

/-- what happens to the log. A crash is in the middle of writing these records, and `kept` bytes of them are on the disk. -/
inductive Event where
  | start (s : Settings)
  | append (r : Record)
  | appendBatch (rs : List Record)
  | stop
  | crash (rs : List Record) (kept : ℕ)

/-- nothing yet -/
def World.new : World := ⟨⟨[], [], none⟩, none, []⟩

/-- the shim of a new process -/
def Shim.reopen : Shim := ⟨io.segments, [], s.maxAppendBytes⟩

/-- the writes in flight as far as they got -/
def tear (segments : List (SegmentName × Bytes)) (name : SegmentName) : List Bytes → ℕ → List (SegmentName × Bytes)
  | [], _ => segments
  | b :: bs, kept =>
    if b.length ≤ kept then tear (write segments name b) name bs (kept - b.length) else write segments name (b.take kept)

/-- what a crash while these records are appended leaves. Nothing of them is written where the shim refuses a segment. -/
def crashed (rs : List Record) (kept : ℕ) : Shim :=
  if rs = [] then io
  else
    let numbered := number w.sequenceCounter rs
    match rotateIfFullLocked io w (totalBytes numbered) (w.sequenceCounter + 1) with
    | .error _ => io
    | .ok (io', w') =>
      if w'.segmentName ∈ io'.sealed then io'
      else { io' with segments := tear io'.segments w'.segmentName (numbered.map encodeRecord) kept }

/-- the world after an append of these records: they count as acknowledged when it returned without an error -/
def World.appended (w : World) (rs : List Record) (r : Except PlatformIOError AppendResult × Shim × WriteAheadLog) : World :=
  ⟨r.2.1, some r.2.2, if r.1.isOk then w.acked ++ rs else w.acked⟩

/-- one event; appends need a run that is on -/
def step (w : World) : Event → World
  | .start s =>
    let io := w.io.reopen s
    match openOrCreate s io with
    | .error _ => ⟨io, none, w.acked⟩
    | .ok (io', wal) => ⟨io', (recover io' wal).2.toOption.map Prod.snd, w.acked⟩
  | .append r =>
    match w.wal with
    | none => w
    | some wal => w.appended (number wal.sequenceCounter [r]) (append w.io wal r)
  | .appendBatch rs =>
    match w.wal with
    | none => w
    | some wal => w.appended (number wal.sequenceCounter rs) (appendBatch w.io wal rs)
  | .stop => { w with wal := none }
  | .crash rs kept =>
    match w.wal with
    | none => w
    | some wal => ⟨crashed w.io wal rs kept, none, w.acked⟩

/-- the walk over a segment's frames stops at its end -/
def walkedToEnd : Prop :=
  (decodeRecords w.segmentName w.skipCorrupt (io.read w.segmentName)).toOption.map (·.2.2) =
    some (io.read w.segmentName).length
  deriving Decidable

/-- the records fit their frames, and they do not land behind an unfinished one: the active segment is whole, or full, or
sealed so that the shim refuses them -/
def LandsWhole (rs : List Record) : Prop :=
  (∀ r ∈ number w.sequenceCounter rs, r.Fits) ∧
    (rs = [] ∨ w.segmentName ∈ io.sealed ∨ w.full (totalBytes (number w.sequenceCounter rs)) ∨ walkedToEnd io w)
  deriving Decidable

def Event.written : Event → List Record
  | .append r => [r]
  | .appendBatch rs => rs
  | .crash rs _ => rs
  | _ => []

/-- no event writes behind an unfinished record -/
def Sound (w : World) (e : Event) : Prop := ∀ wal ∈ w.wal, LandsWhole w.io wal e.written
  deriving Decidable

/-! ## What is on the disk -/

/-- a segment: whole records and perhaps the beginning of one more -/
structure Image where
  name : SegmentName
  records : List Record
  tail : Bytes

def Image.bytes (i : Image) : Bytes := i.records.flatMap encodeRecord ++ i.tail

/-- the records of the chain -/
def recordsOf (imgs : List Image) : List Record := imgs.flatMap Image.records

@[simp] theorem recordsOf_append (imgs imgs' : List Image) : recordsOf (imgs ++ imgs') = recordsOf imgs ++ recordsOf imgs' :=
  flatMap_append

@[simp] theorem recordsOf_singleton (i : Image) : recordsOf [i] = i.records := by simp [recordsOf]

@[simp] theorem maxSequence_snoc (rs : List Record) (r : Record) :
    maxSequence (rs ++ [r]) = max (maxSequence rs) r.sequence := by
  simp [maxSequence]

variable {rs : List Record} {front : List Image} {io : Shim} {last : Image} {w : WriteAheadLog}

theorem sequence_le_maxSequence {r : Record} (hr : r ∈ rs) : r.sequence ≤ maxSequence rs := by
  induction rs using List.reverseRecOn with
  | nil => exact absurd hr not_mem_nil
  | append_singleton rs x ih =>
    rw [maxSequence_snoc]
    rcases mem_append.1 hr with hr | hr
    · exact le_max_of_le_left (ih hr)
    · rw [mem_singleton.1 hr]
      exact le_max_right _ _

/-- the segments hold these images: named in chain order, with records in increasing sequence order throughout -/
structure Intact (segments : List (SegmentName × Bytes)) (imgs : List Image) : Prop where
  bytes : segments = imgs.map fun i => (i.name, i.bytes)
  names : (imgs.map fun i => rank i.name).Pairwise (· < ·)
  valid : ∀ i ∈ imgs, 1 ≤ firstSequence i.name
  fits : ∀ i ∈ imgs, ∀ r ∈ i.records, r.Fits
  torn : ∀ i ∈ imgs, Torn i.tail
  increasing : (recordsOf imgs).Pairwise fun a b => a.sequence < b.sequence
  starts : ∀ i ∈ imgs, rank i.name ≤ maxSequence (recordsOf imgs) + 1

theorem torn_nil : Torn [] := by
  refine ⟨⟨0, 0, .marker, []⟩, by decide, nil_prefix, ?_⟩
  exact Nat.succ_pos _

theorem intact_nil : Intact [] [] := by
  constructor <;> simp [recordsOf]

section Disk

variable {segments : List (SegmentName × Bytes)} {imgs front : List Image} {last : Image}

variable {name : SegmentName}

theorem write_of_notMem (h : name ∉ segments.map Prod.fst) (b : Bytes) :
    write segments name b = segments ++ [(name, b)] := by
  induction segments with
  | nil => rfl
  | cons p rest ih =>
    rw [map_cons, mem_cons, not_or] at h
    rw [write, if_neg (Ne.symm h.1), ih h.2, cons_append]

theorem write_last (h : name ∉ segments.map Prod.fst) (c b : Bytes) :
    write (segments ++ [(name, c)]) name b = segments ++ [(name, c ++ b)] := by
  induction segments with
  | nil => simp [write]
  | cons p rest ih =>
    rw [map_cons, mem_cons, not_or] at h
    rw [cons_append, write, if_neg (Ne.symm h.1), ih h.2, cons_append]

theorem Intact.map_fst (h : Intact segments imgs) : segments.map Prod.fst = imgs.map Image.name := by
  rw [h.bytes, map_map]
  rfl

theorem Intact.nodup (h : Intact segments imgs) : (imgs.map Image.name).Nodup := by
  have hranks : ((imgs.map Image.name).map rank).Nodup := by
    rw [map_map]
    exact h.names.imp Nat.ne_of_lt
  exact hranks.of_map

theorem Intact.last_notMem (h : Intact segments (front ++ [last])) : last.name ∉ front.map Image.name := by
  have hnodup := h.nodup
  rw [map_append, nodup_append] at hnodup
  intro hmem
  exact hnodup.2.2 _ hmem _ (mem_singleton.2 rfl) rfl

theorem Intact.read {io : Shim} (h : Intact io.segments imgs) {i : Image} (hi : i ∈ imgs) : io.read i.name = i.bytes := by
  have hnodup : (io.segments.map Prod.fst).Nodup := by
    rw [h.map_fst]
    exact h.nodup
  have hmem : (i.name, i.bytes) ∈ io.segments := by
    rw [h.bytes]
    exact mem_map_of_mem hi
  rw [Shim.read, (Entries.lookup_eq_some_iff hnodup).2 hmem, Option.getD_some]

theorem Intact.write_last (h : Intact segments (front ++ [last])) (b : Bytes) :
    write segments last.name b = front.map (fun i => (i.name, i.bytes)) ++ [(last.name, last.bytes ++ b)] := by
  have hfront : last.name ∉ (front.map fun i => (i.name, i.bytes)).map Prod.fst := by
    rw [map_map]
    exact h.last_notMem
  rw [h.bytes, map_append]
  exact Wal.write_last hfront last.bytes b

/-- images that were there, and one more behind them -/
theorem Intact.snoc (h : Intact segments imgs) {segments' : List (SegmentName × Bytes)} {i : Image} (hfront : front ⊆ imgs)
    (hbytes : segments' = front.map (fun i => (i.name, i.bytes)) ++ [(i.name, i.bytes)])
    (hnames : ((front ++ [i]).map fun i => rank i.name).Pairwise (· < ·)) (hvalid : 1 ≤ firstSequence i.name)
    (hfits : ∀ r ∈ i.records, r.Fits) (htorn : Torn i.tail)
    (hincreasing : (recordsOf (front ++ [i])).Pairwise fun a b => a.sequence < b.sequence)
    (hgrows : maxSequence (recordsOf imgs) ≤ maxSequence (recordsOf (front ++ [i])))
    (hstart : rank i.name ≤ maxSequence (recordsOf imgs) + 1) : Intact segments' (front ++ [i]) := by
  have hall : ∀ P : Image → Prop, (∀ j ∈ imgs, P j) → P i → ∀ j ∈ front ++ [i], P j := by
    intro P hP hi
    exact forall_mem_append.2 ⟨fun j hj => hP j (hfront hj), forall_mem_singleton.2 hi⟩
  refine ⟨?_, hnames, hall _ h.valid hvalid, hall _ h.fits hfits, hall _ h.torn htorn, hincreasing, ?_⟩
  · rw [hbytes, map_append, map_singleton]
  · exact hall _ (fun j hj => (h.starts j hj).trans (Nat.succ_le_succ hgrows)) (hstart.trans (Nat.succ_le_succ hgrows))

theorem recordsOf_record (r : Record) : recordsOf (front ++ [{ last with records := last.records ++ [r] }]) =
    recordsOf (front ++ [last]) ++ [r] := by
  simp

theorem maxSequence_record {r : Record} (hseq : r.sequence = maxSequence (recordsOf (front ++ [last])) + 1) :
    maxSequence (recordsOf (front ++ [{ last with records := last.records ++ [r] }])) = r.sequence := by
  rw [recordsOf_record, maxSequence_snoc, hseq, Nat.max_eq_right (Nat.le_succ _)]

/-- one more whole record -/
theorem Intact.record (h : Intact segments (front ++ [last])) (htail : last.tail = []) {r : Record} (hr : r.Fits)
    (hseq : r.sequence = maxSequence (recordsOf (front ++ [last])) + 1) :
    Intact (write segments last.name (encodeRecord r)) (front ++ [{ last with records := last.records ++ [r] }]) := by
  have hlast : last ∈ front ++ [last] := by simp
  refine h.snoc (subset_append_left _ _) ?_ (by simpa using h.names) (h.valid last hlast) (fun x hx => ?_)
    (h.torn last hlast) ?_ ?_ (h.starts last hlast)
  · rw [h.write_last]
    simp [Image.bytes, htail]
  · rcases mem_append.1 hx with hx | hx
    · exact h.fits last hlast x hx
    · rw [mem_singleton.1 hx]
      exact hr
  · rw [recordsOf_record]
    refine pairwise_append.2 ⟨h.increasing, pairwise_singleton _ _, fun x hx y hy => ?_⟩
    rw [mem_singleton.1 hy, hseq]
    exact Nat.lt_succ_of_le (sequence_le_maxSequence hx)
  · rw [maxSequence_record hseq, hseq]
    exact Nat.le_succ _

theorem Intact.unfinished (h : Intact segments (front ++ [last])) (htail : last.tail = []) {t : Bytes} (ht : Torn t) :
    Intact (write segments last.name t) (front ++ [{ last with tail := t }]) := by
  have hlast : last ∈ front ++ [last] := by simp
  have hrecords : recordsOf (front ++ [{ last with tail := t }]) = recordsOf (front ++ [last]) := by simp
  refine h.snoc (subset_append_left _ _) ?_ (by simpa using h.names) (h.valid last hlast) (h.fits last hlast) ht
    (hrecords ▸ h.increasing) (hrecords ▸ le_rfl) (h.starts last hlast)
  rw [h.write_last]
  simp [Image.bytes, htail]

/-- a new segment, named behind all others -/
theorem Intact.create (h : Intact segments imgs) (hvalid : 1 ≤ firstSequence name)
    (hafter : ∀ i ∈ imgs, rank i.name < rank name) (hstart : rank name ≤ maxSequence (recordsOf imgs) + 1) :
    Intact (write segments name []) (imgs ++ [⟨name, [], []⟩]) := by
  have hfresh : name ∉ segments.map Prod.fst := by
    rw [h.map_fst]
    intro hmem
    obtain ⟨i, hi, hname⟩ := mem_map.1 hmem
    exact (hafter i hi).ne (congrArg rank hname)
  have hrecords : recordsOf (imgs ++ [⟨name, [], []⟩]) = recordsOf imgs := by simp
  refine h.snoc (Subset.refl _) ?_ ?_ hvalid (fun r hr => absurd hr not_mem_nil) torn_nil
    (hrecords ▸ h.increasing) (hrecords ▸ le_rfl) hstart
  · rw [write_of_notMem hfresh, h.bytes]
    rfl
  · rw [map_append]
    refine pairwise_append.2 ⟨h.names, pairwise_singleton _ _, fun a ha b hb => ?_⟩
    obtain ⟨i, hi, rfl⟩ := mem_map.1 ha
    rw [mem_singleton.1 hb]
    exact hafter i hi

/-- what the last image keeps, the chain keeps -/
theorem recordsOf_subset {last' : Image} (h : last.records ⊆ last'.records) :
    recordsOf (front ++ [last]) ⊆ recordsOf (front ++ [last']) := by
  rw [recordsOf_append, recordsOf_append, recordsOf_singleton, recordsOf_singleton]
  exact append_subset.2 ⟨subset_append_left _ _, fun x hx => mem_append_right _ (h hx)⟩

end Disk

/-! ## Opening and recovering -/

theorem firstSequence_le {a b : SegmentName} (hb : 1 ≤ firstSequence b) (h : rank a < rank b) :
    firstSequence a ≤ firstSequence b := by
  cases a with
  | none => exact hb
  | some m =>
    cases b with
    | none => exact absurd h (Nat.not_lt_zero m)
    | some n => exact Nat.le_of_lt h

section Recovery

variable {io : Shim} {imgs front : List Image} {last : Image}

theorem Intact.chain (h : Intact io.segments imgs) : latestWalChain io.listSegments = imgs.map Image.name := by
  have hranks : (imgs.map Image.name).Pairwise fun a b => rank a ≤ rank b :=
    pairwise_map.2 ((pairwise_map.1 h.names).imp Nat.le_of_lt)
  have hlisted : io.listSegments = imgs.map Image.name := by
    rw [Shim.listSegments, h.map_fst]
    exact hranks.insertionSort_eq
  have hvalid : (imgs.map Image.name).filter (fun name => 1 ≤ firstSequence name) = imgs.map Image.name := by
    refine filter_eq_self.2 fun name hname => ?_
    obtain ⟨i, hi, rfl⟩ := mem_map.1 hname
    exact decide_eq_true (h.valid i hi)
  have hfirst : (imgs.map Image.name).Pairwise fun a b => firstSequence a ≤ firstSequence b := by
    refine pairwise_map.2 (Pairwise.imp_of_mem ?_ (pairwise_map.1 h.names))
    intro a b _ hb hab
    exact firstSequence_le (h.valid b hb) hab
  rw [latestWalChain, hlisted, hvalid]
  exact hfirst.insertionSort_eq

/-- segments that read as images hand out the images' records -/
theorem replay_images (skipCorrupt : Bool) {js : List Image} (hread : ∀ i ∈ js, io.read i.name = i.bytes)
    (hfits : ∀ i ∈ js, ∀ r ∈ i.records, r.Fits) (htorn : ∀ i ∈ js, Torn i.tail)
    (hincreasing : (recordsOf js).Pairwise fun a b => a.sequence < b.sequence) :
    replay io skipCorrupt (js.map Image.name) = (recordsOf js, .ok 0) := by
  induction js with
  | nil => rfl
  | cons i js ih =>
    have hi : i ∈ i :: js := mem_cons_self
    have hsplit : recordsOf (i :: js) = i.records ++ recordsOf js := flatMap_cons
    rw [hsplit, pairwise_append] at hincreasing
    have hdecoded := decodeRecords_whole i.name skipCorrupt (hfits i hi) (htorn i hi)
    have hsorted : i.records.insertionSort (fun a b => a.sequence ≤ b.sequence) = i.records :=
      (hincreasing.1.imp Nat.le_of_lt).insertionSort_eq
    have hrest := ih (fun j hj => hread j (.tail _ hj)) (fun j hj => hfits j (.tail _ hj))
      (fun j hj => htorn j (.tail _ hj)) hincreasing.2.1
    rw [map_cons, replay, hread i hi, Image.bytes, hdecoded, hrest, hsplit]
    simp [hsorted, Except.map]

theorem Intact.replay (h : Intact io.segments imgs) (skipCorrupt : Bool) :
    replay io skipCorrupt (imgs.map Image.name) = (recordsOf imgs, .ok 0) :=
  replay_images skipCorrupt (fun _ hi => h.read hi) h.fits h.torn h.increasing

/-- the log of a run: its counter is the last sequence on the disk, and it knows the size of the active segment, unless it
sealed that one itself -/
structure Running (io : Shim) (w : WriteAheadLog) (front : List Image) (last : Image) : Prop where
  intact : Intact io.segments (front ++ [last])
  active : w.segmentName = last.name
  counter : w.sequenceCounter = maxSequence (recordsOf (front ++ [last]))
  size : w.segmentSize = last.bytes.length ∨ (last.name ∈ io.sealed ∧ w.segmentSize = 0)

/-- recovering a log over the chain -/
theorem Intact.recover (h : Intact io.segments (front ++ [last])) {w : WriteAheadLog}
    (hsegments : w.segments = (front ++ [last]).map Image.name) (hactive : w.segmentName = last.name)
    (hcounter : w.sequenceCounter = 0) :
    ∃ summary w', recover io w = (recordsOf (front ++ [last]), .ok (summary, w')) ∧ Running io w' front last := by
  have hreplay := h.replay w.skipCorrupt
  rw [← hsegments] at hreplay
  have hlast : w.segments.getLast? = some last.name := by
    rw [hsegments]
    simp
  have hread := h.read (i := last) (by simp)
  simp only [Wal.recover, hreplay, hlast, Option.map_some, Option.getD_some, hread]
  refine ⟨_, _, rfl, h, hactive, ?_, .inl rfl⟩
  rw [hcounter]
  exact Nat.zero_max _

/-- opening and recovering what is on the disk -/
theorem Intact.open (h : Intact io.segments imgs) (hsealed : io.sealed = []) (s : Settings) :
    ∃ io' w front last, openOrCreate s io = .ok (io', w) ∧ recordsOf (front ++ [last]) = recordsOf imgs ∧
      ∃ summary w', Wal.recover io' w = (recordsOf imgs, .ok (summary, w')) ∧ Running io' w' front last := by
  rcases eq_nil_or_concat imgs with rfl | ⟨front, last, rfl⟩
  · -- nothing there: the plain segment is created
    have hcreated : Intact (write io.segments none []) ([] ++ [⟨none, [], []⟩]) :=
      h.create (le_refl 1) (fun i hi => absurd hi not_mem_nil) (Nat.zero_le _)
    have happend : io.appendToSegment none [] = .ok ({ io with segments := write io.segments none [] }, 0) := by
      have hempty : io.segments = [] := h.bytes
      simp [Shim.appendToSegment, hsealed, Shim.read, hempty]
    have hopen : openOrCreate s io = .ok ({ io with segments := write io.segments none [] },
        ⟨s.maxSegmentBytes, s.factorySkipCorrupt || s.configSkipCorrupt, [none], none, 0, 0⟩) := by
      rw [openOrCreate, h.chain]
      simp [happend]
    exact ⟨_, _, [], ⟨none, [], []⟩, hopen, rfl, @Intact.recover _ [] ⟨none, [], []⟩ hcreated _ rfl rfl rfl⟩
  · rw [concat_eq_append] at h ⊢
    have hlast : (latestWalChain io.listSegments).getLast? = some last.name := by
      rw [h.chain]
      simp
    have hopen : openOrCreate s io = .ok (io, ⟨s.maxSegmentBytes, s.factorySkipCorrupt || s.configSkipCorrupt,
        latestWalChain io.listSegments, last.name, 0, (io.read last.name).length⟩) := by
      simp only [openOrCreate, hlast]
    exact ⟨_, _, front, last, hopen, rfl, h.recover h.chain rfl rfl⟩

end Recovery

/-! ## Writing -/

section Writing

variable {io io' : Shim} {w w' : WriteAheadLog} {front : List Image} {last : Image} {b : Bytes} {n : ℕ}

theorem appendToSegment_ok {name : SegmentName} (h : io.appendToSegment name b = .ok (io', n)) :
    name ∉ io.sealed ∧ io' = { io with segments := write io.segments name b } ∧ n = (io.read name ++ b).length := by
  simp only [Shim.appendToSegment] at h
  split at h
  · cases h
  · split at h
    · cases h
    · rename_i hopen
      cases h
      exact ⟨hopen, rfl, rfl⟩

/-- what is written to the active segment is refused or lands behind a whole record -/
def Lands (io : Shim) (last : Image) : Prop := last.name ∈ io.sealed ∨ last.tail = []

/-- writing one record -/
theorem Running.record (h : Running io w front last) (hlands : Lands io last) {r : Record} (hr : r.Fits)
    (hseq : r.sequence = w.sequenceCounter + 1) (happend : io.appendToSegment w.segmentName (encodeRecord r) = .ok (io', n)) :
    Running io' { w with sequenceCounter := w.sequenceCounter + 1, segmentSize := n } front
        { last with records := last.records ++ [r] } ∧
      Lands io' { last with records := last.records ++ [r] } := by
  obtain ⟨hopen, rfl, hn⟩ := appendToSegment_ok happend
  rw [h.active] at hopen hn
  have htail : last.tail = [] := hlands.resolve_left hopen
  rw [h.counter] at hseq
  refine ⟨⟨?_, h.active, ?_, .inl ?_⟩, .inr htail⟩
  · rw [h.active]
    exact h.intact.record htail hr hseq
  · rw [maxSequence_record hseq, hseq, h.counter]
  · rw [hn, h.intact.read (by simp)]
    simp [Image.bytes, htail]

variable {rs : List Record}

/-- the writing loop keeps what is there and, when it returns, has written every record -/
theorem Running.writeEach (h : Running io w front last) (hlands : Lands io last)
    (hfits : ∀ r ∈ number w.sequenceCounter rs, r.Fits) (result : AppendResult) :
    ∃ last', Running (writeEach io w result ((number w.sequenceCounter rs).map encodeRecord)).2.1
        (Wal.writeEach io w result ((number w.sequenceCounter rs).map encodeRecord)).2.2 front last' ∧
      last.records ⊆ last'.records ∧
      ((Wal.writeEach io w result ((number w.sequenceCounter rs).map encodeRecord)).1.isOk →
        number w.sequenceCounter rs ⊆ last'.records) := by
  induction rs generalizing io w last result with
  | nil => exact ⟨last, h, Subset.refl _, fun _ => nil_subset _⟩
  | cons r rs ih =>
    set r' : Record := { r with sequence := w.sequenceCounter + 1 } with hr'
    have hnumber : number w.sequenceCounter (r :: rs) = r' :: number (w.sequenceCounter + 1) rs := rfl
    rw [hnumber] at hfits ⊢
    rw [map_cons, Wal.writeEach]
    cases happend : io.appendToSegment w.segmentName (encodeRecord r') with
    | error e => exact ⟨last, h, Subset.refl _, fun hok => absurd hok Bool.false_ne_true⟩
    | ok p =>
      obtain ⟨io₁, size⟩ := p
      obtain ⟨hnext, hlands'⟩ := h.record hlands (hfits r' mem_cons_self) rfl happend
      obtain ⟨last', hrun, hkept, hwritten⟩ := ih hnext hlands' (fun x hx => hfits x (.tail _ hx))
        ⟨w.sequenceCounter + 1, w.segmentSize, size⟩
      have hr : r' ∈ last'.records := hkept (mem_append_right _ (mem_singleton.2 rfl))
      exact ⟨last', hrun, fun x hx => hkept (mem_append_left _ hx), fun hok => cons_subset.2 ⟨hr, hwritten hok⟩⟩

/-- rotation keeps the records, and the write after it lands well when the active segment was whole, full or sealed -/
theorem Running.rotate (h : Running io w front last) (hlands : last.name ∈ io.sealed ∨ w.full n ∨ last.tail = [])
    (hrotate : rotateIfFullLocked io w n (w.sequenceCounter + 1) = .ok (io', w')) :
    ∃ front' last', Running io' w' front' last' ∧ Lands io' last' ∧
      recordsOf (front' ++ [last']) = recordsOf (front ++ [last]) ∧ w'.sequenceCounter = w.sequenceCounter := by
  rw [rotateIfFullLocked] at hrotate
  split_ifs at hrotate with hfull
  · split at hrotate
    · cases hrotate
    · rename_i io₁ size happend
      obtain ⟨-, rfl, -⟩ := appendToSegment_ok happend
      cases hrotate
      by_cases hname : last.name = some (w.sequenceCounter + 1)
      · -- the new name is the active one: the segment stays as it is and is sealed
        have hsame : write io.segments (some (w.sequenceCounter + 1)) [] = io.segments := by
          rw [← hname, h.intact.write_last, append_nil, h.intact.bytes, map_append, map_singleton]
        have hsealed : last.name ∈ w.segmentName :: io.sealed := by
          rw [h.active]
          exact .head _
        refine ⟨front, last, ⟨?_, hname.symm, h.counter, .inr ⟨hsealed, rfl⟩⟩, .inl hsealed, rfl, rfl⟩
        rw [hsame]
        exact h.intact
      · have hranks : ∀ i ∈ front ++ [last], rank i.name < w.sequenceCounter + 1 := by
          have hlast : rank last.name < w.sequenceCounter + 1 := by
            refine lt_of_le_of_ne (h.counter ▸ h.intact.starts last (by simp)) fun heq => hname ?_
            cases hcase : last.name with
            | none =>
              rw [hcase] at heq
              exact absurd heq (Nat.succ_ne_zero _).symm
            | some m =>
              rw [hcase] at heq
              exact congrArg some heq
          have hnames := h.intact.names
          rw [map_append, pairwise_append] at hnames
          exact forall_mem_append.2
            ⟨fun i hi => (hnames.2.2 _ (mem_map_of_mem hi) _ (by simp)).trans hlast, forall_mem_singleton.2 hlast⟩
        have hcreated : Intact (write io.segments (some (w.sequenceCounter + 1)) [])
            (front ++ [last] ++ [⟨some (w.sequenceCounter + 1), [], []⟩]) :=
          h.intact.create (Nat.succ_pos _) hranks (Nat.succ_le_succ h.counter.le)
        refine ⟨front ++ [last], ⟨some (w.sequenceCounter + 1), [], []⟩, ⟨hcreated, rfl, ?_, .inl rfl⟩, .inr rfl, ?_, rfl⟩
        · rw [recordsOf_append, recordsOf_singleton, append_nil]
          exact h.counter
        · rw [recordsOf_append, recordsOf_singleton, append_nil]
  · cases hrotate
    exact ⟨front, last, h, hlands.imp_right fun hl => hl.resolve_left hfull, rfl, rfl⟩

/-- writes cut off anywhere leave whole records and the beginning of one more -/
theorem Intact.tear {segments : List (SegmentName × Bytes)} (h : Intact segments (front ++ [last]))
    (htail : last.tail = []) {counter : ℕ} (hcounter : counter = maxSequence (recordsOf (front ++ [last])))
    (hfits : ∀ r ∈ number counter rs, r.Fits) (kept : ℕ) :
    ∃ last', Intact (tear segments last.name ((number counter rs).map encodeRecord) kept) (front ++ [last']) ∧
      last.records ⊆ last'.records := by
  induction rs generalizing segments last counter kept with
  | nil => exact ⟨last, h, Subset.refl _⟩
  | cons r rs ih =>
    set r' : Record := { r with sequence := counter + 1 } with hr'
    have hnumber : number counter (r :: rs) = r' :: number (counter + 1) rs := rfl
    rw [hnumber] at hfits ⊢
    have hr := hfits r' mem_cons_self
    have hseq : r'.sequence = maxSequence (recordsOf (front ++ [last])) + 1 := congrArg (· + 1) hcounter
    rw [map_cons, Wal.tear]
    split_ifs with hcut
    · obtain ⟨last', hintact, hkept⟩ := ih (h.record htail hr hseq) htail (maxSequence_record hseq).symm
        (fun x hx => hfits x (.tail _ hx)) (kept - (encodeRecord r').length)
      exact ⟨last', hintact, fun x hx => hkept (mem_append_left _ hx)⟩
    · have htorn : Torn ((encodeRecord r').take kept) := by
        refine ⟨r', hr, take_prefix _ _, ?_⟩
        rw [length_take]
        exact (Nat.min_le_left _ _).trans_lt (Nat.lt_of_not_le hcut)
      exact ⟨_, h.unfinished htail htorn, Subset.refl _⟩

end Writing

/-! ## Histories keep what was acknowledged -/

/-- the disk holds every acknowledged record in whole, and the run that is on knows it -/
def Inv (w : World) : Prop :=
  match w.wal with
  | none => ∃ imgs, Intact w.io.segments imgs ∧ w.acked ⊆ recordsOf imgs
  | some wal => ∃ front last, Running w.io wal front last ∧ w.acked ⊆ recordsOf (front ++ [last])

theorem Inv.intact {w : World} (h : Inv w) : ∃ imgs, Intact w.io.segments imgs ∧ w.acked ⊆ recordsOf imgs := by
  rw [Inv] at h
  split at h
  · exact h
  · obtain ⟨front, last, hrunning, hacked⟩ := h
    exact ⟨front ++ [last], hrunning.intact, hacked⟩

theorem Inv.running {w : World} {wal : WriteAheadLog} (h : Inv w) (hwal : w.wal = some wal) :
    ∃ front last, Running w.io wal front last ∧ w.acked ⊆ recordsOf (front ++ [last]) := by
  rwa [Inv, hwal] at h

section

variable (h : Running io w front last)
include h

theorem Running.tail_eq_nil (hwalked : walkedToEnd io w) : last.tail = [] := by
  have hlast : last ∈ front ++ [last] := by simp
  have hdecoded := decodeRecords_whole last.name w.skipCorrupt (h.intact.fits last hlast) (h.intact.torn last hlast)
  rw [walkedToEnd, h.active, h.intact.read hlast, Image.bytes, hdecoded] at hwalked
  have hlength : (last.records.flatMap encodeRecord).length =
      (last.records.flatMap encodeRecord ++ last.tail).length := Option.some.inj hwalked
  rw [length_append] at hlength
  exact length_eq_zero_iff.1 (by omega)

theorem Running.lands (hne : rs ≠ []) (hwhole : LandsWhole io w rs) :
    last.name ∈ io.sealed ∨ w.full (totalBytes (number w.sequenceCounter rs)) ∨ last.tail = [] := by
  rcases hwhole.2.resolve_left hne with hsealed | hfull | hwalked
  · exact .inl (h.active ▸ hsealed)
  · exact .inr (.inl hfull)
  · exact .inr (.inr (h.tail_eq_nil hwalked))

/-- a batch keeps every record, and has written all of its own when it returns -/
theorem Running.appendBatch (hwhole : LandsWhole io w rs) :
    ∃ front' last', Running (appendBatch io w rs).2.1 (Wal.appendBatch io w rs).2.2 front' last' ∧
      recordsOf (front ++ [last]) ⊆ recordsOf (front' ++ [last']) ∧
      ((Wal.appendBatch io w rs).1.isOk → number w.sequenceCounter rs ⊆ recordsOf (front' ++ [last'])) := by
  rw [Wal.appendBatch]
  split
  · rename_i hempty
    subst hempty
    exact ⟨front, last, h, Subset.refl _, fun _ => nil_subset _⟩
  · rename_i hne
    cases hrotate : rotateIfFullLocked io w (totalBytes (number w.sequenceCounter rs)) (w.sequenceCounter + 1) with
    | error e =>
      simp only [hrotate]
      exact ⟨front, last, h, Subset.refl _, fun hok => absurd hok Bool.false_ne_true⟩
    | ok p =>
      obtain ⟨io₁, w₁⟩ := p
      simp only [hrotate]
      obtain ⟨front', last₁, hrunning, hlands, hrecords, hcounter⟩ := h.rotate (h.lands hne hwhole) hrotate
      rw [← hcounter]
      have hfits : ∀ r ∈ number w₁.sequenceCounter rs, r.Fits := hcounter ▸ hwhole.1
      obtain ⟨last', hrun, hkept, hwritten⟩ := hrunning.writeEach hlands hfits ⟨0, 0, 0⟩
      refine ⟨front', last', hrun, hrecords ▸ recordsOf_subset hkept, fun hok x hx => ?_⟩
      rw [recordsOf_append, recordsOf_singleton]
      exact mem_append_right _ (hwritten hok hx)

theorem Running.crashed (hwhole : LandsWhole io w rs) (kept : ℕ) :
    ∃ imgs, Intact (crashed io w rs kept).segments imgs ∧ recordsOf (front ++ [last]) ⊆ recordsOf imgs := by
  rw [Wal.crashed]
  split_ifs with hne
  · exact ⟨_, h.intact, Subset.refl _⟩
  · cases hrotate : rotateIfFullLocked io w (totalBytes (number w.sequenceCounter rs)) (w.sequenceCounter + 1) with
    | error e =>
      simp only [hrotate]
      exact ⟨_, h.intact, Subset.refl _⟩
    | ok p =>
      obtain ⟨io₁, w₁⟩ := p
      simp only [hrotate]
      obtain ⟨front', last₁, hrunning, hlands, hrecords, hcounter⟩ := h.rotate (h.lands hne hwhole) hrotate
      split_ifs with hopen
      · exact ⟨_, hrunning.intact, hrecords ▸ Subset.refl _⟩
      · rw [hrunning.active] at hopen ⊢
        obtain ⟨last', hintact, hkept⟩ := hrunning.intact.tear (hlands.resolve_left hopen)
          (hcounter.symm.trans hrunning.counter) hwhole.1 kept
        exact ⟨front' ++ [last'], hintact, hrecords ▸ recordsOf_subset hkept⟩

end

theorem Inv.appended {w : World} {wal : WriteAheadLog} (h : Inv w) (hwal : w.wal = some wal)
    (hwhole : LandsWhole w.io wal rs) : Inv (w.appended (number wal.sequenceCounter rs) (appendBatch w.io wal rs)) := by
  obtain ⟨front, last, hrunning, hacked⟩ := h.running hwal
  obtain ⟨front', last', hrunning', hkept, hwritten⟩ := hrunning.appendBatch hwhole
  refine ⟨front', last', hrunning', ?_⟩
  rw [World.appended]
  split_ifs with hok
  · exact append_subset.2 ⟨fun x hx => hkept (hacked hx), hwritten hok⟩
  · exact fun x hx => hkept (hacked hx)

theorem inv_step (w : World) (e : Event) (hsound : Sound w e) (h : Inv w) : Inv (step w e) := by
  cases e with
  | start s =>
    obtain ⟨imgs, hintact, hacked⟩ := h.intact
    have hreopened : Intact (w.io.reopen s).segments imgs := hintact
    obtain ⟨io, wal, front, last, hopen, hrecords, summary, wal', hrecover, hrunning⟩ := hreopened.open rfl s
    simp only [step, hopen, hrecover]
    exact ⟨front, last, hrunning, hrecords ▸ hacked⟩
  | append r =>
    cases hwal : w.wal with
    | none => simpa only [step, hwal] using h
    | some wal =>
      simp only [step, hwal, append_eq_appendBatch]
      exact h.appended hwal (hsound wal hwal)
  | appendBatch rs =>
    cases hwal : w.wal with
    | none => simpa only [step, hwal] using h
    | some wal =>
      simp only [step, hwal]
      exact h.appended hwal (hsound wal hwal)
  | stop => exact h.intact
  | crash rs kept =>
    cases hwal : w.wal with
    | none => simpa only [step, hwal] using h
    | some wal =>
      obtain ⟨front, last, hrunning, hacked⟩ := h.running hwal
      obtain ⟨imgs, hintact, hkept⟩ := hrunning.crashed (hsound wal hwal) kept
      simp only [step, hwal]
      exact ⟨imgs, hintact, fun x hx => hkept (hacked hx)⟩

theorem inv_new : Inv World.new := ⟨[], intact_nil, nil_subset _⟩

/-- **What was acknowledged is replayed.** In every history whose writes do not land behind an unfinished record, the next
run opens the log, its recovery succeeds, and the records it hands out are in strictly increasing sequence order and
contain every record whose append returned. -/
theorem acked_records_recovered (events : List Event) (hsound : Along step Sound World.new events) (s : Settings) :
    ∃ io wal summary wal', openOrCreate s ((run step World.new events).io.reopen s) = .ok (io, wal) ∧
      (recover io wal).2 = .ok (summary, wal') ∧
      (recover io wal).1.Pairwise (fun a b => a.sequence < b.sequence) ∧
      ∀ r ∈ (run step World.new events).acked, r ∈ (recover io wal).1 := by
  obtain ⟨imgs, hintact, hacked⟩ := (run_of_step inv_step hsound inv_new).intact
  have hreopened : Intact ((run step World.new events).io.reopen s).segments imgs := hintact
  obtain ⟨io, wal, _, _, hopen, -, summary, wal', hrecover, -⟩ := hreopened.open rfl s
  refine ⟨io, wal, summary, wal', hopen, ?_, ?_, ?_⟩
  · rw [hrecover]
  · rw [hrecover]
    exact hintact.increasing
  · rw [hrecover]
    exact fun r hr => hacked hr

/-- the settings of a run that leaves everything to the defaults -/
def defaultSettings : Settings := ⟨0, 0, false, false, none⟩

/-- a record of `n` bytes -/
def putRecord (n : ℕ) : Record := ⟨0, 7, .putBlob, List.replicate n 1⟩

/-- a history with a rotation and a crash that tears a batch, whose next run rotates away from the torn segment -/
theorem acked_records_recovered_rotated :
    let events := [.start { defaultSettings with factoryMaxSegmentBytes := 80 }, .append (putRecord 2),
      .appendBatch [putRecord 1, putRecord 3], .crash [putRecord 1, putRecord 2] 40,
      .start { defaultSettings with configMaxSegmentBytes := 50 }, .append (putRecord 1)]
    (run step World.new events).acked.map Record.sequence = [1, 2, 3, 5] ∧
      ∃ io wal summary wal',
        openOrCreate defaultSettings ((run step World.new events).io.reopen defaultSettings) = .ok (io, wal) ∧
        (recover io wal).2 = .ok (summary, wal') ∧
        (recover io wal).1.Pairwise (fun a b => a.sequence < b.sequence) ∧
        ∀ r ∈ (run step World.new events).acked, r ∈ (recover io wal).1 :=
  ⟨by decide +kernel, acked_records_recovered _ (by decide +kernel) defaultSettings⟩

/-- what the next run's recovery hands out, and the error it ends with -/
def recovered (w : World) : Option (List Record × Option CorruptionError) :=
  match openOrCreate s (w.io.reopen s) with
  | .error _ => none
  | .ok (io, wal) =>
    some ((recover io wal).1, match (recover io wal).2 with
      | .error e => some e
      | .ok _ => none)

/-- **Behind a torn tail, acknowledged records are lost.** A crash leaves 20 bytes of a record of 100; the next run's
append returns, and its record is within the length the torn one claims: recovery ends before it, without an error and
with either setting of `skipCorrupt`. Where the torn record is short enough to end inside the new one, recovery fails. -/
theorem append_behind_torn_tail :
    let long := run step World.new [.start defaultSettings, .crash [putRecord 100] 20, .start defaultSettings,
      .append (putRecord 1)]
    let short := run step World.new [.start defaultSettings, .crash [putRecord 5] 30, .start defaultSettings,
      .append (putRecord 1)]
    long.acked = [{ putRecord 1 with sequence := 1 }] ∧ short.acked = [{ putRecord 1 with sequence := 1 }] ∧
      recovered defaultSettings long = some ([], none) ∧
      recovered { defaultSettings with factorySkipCorrupt := true } long = some ([], none) ∧
      recovered defaultSettings short = some ([], some ⟨"header crc", none, 0⟩) := by
  decide +kernel

end Kdb.Wal
