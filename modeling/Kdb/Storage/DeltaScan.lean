/-
Scanning a delta segment (`storage/delta/scanner.go`, `tail.go`): walk the frames, and say how the intact ones end.

- `scanFrames`, `scanSegment`: the walk over frames from offset to offset, and the classification of what follows the last
  one as clean, torn or damaged. `nextIntactFrame` searches the bytes after a fault for a frame, wherever it starts.
- `scan_segment_append`: completed frames are walked one by one, whatever follows them.
- `torn_segment_reads_back`: completed records, the beginning of one more and zero bytes: the scan yields the completed
  records and reports no damage.
- `padded_prefix_reads_as_damage`: a record that quotes the beginning of a frame may read as damage.

The callback of the walk collects the commits and does not fail. The count of intact frames after a fault only matters as
far as it is zero or not.
-/
import Kdb.Storage.DeltaFrame

namespace Kdb.Delta

open Bytes List

/-! ## Frames in a segment -/

def isKdbpFrame (b : Bytes) (offset : ℕ) : Bool :=
  byteAt b offset == 0x4B && byteAt b (offset + 1) == 0x44 && byteAt b (offset + 2) == 0x42 &&
    byteAt b (offset + 3) == 0x50

/-- `frameBounds`: the end of the frame at an offset -/
def frameBounds (b : Bytes) (offset : ℕ) : Option ℕ :=
  if !isKdbpFrame b offset then none
  else
    let compressedSize := readBE b (offset + 8)
    -- a header torn just after its magic declares an empty body; the writer never frames one
    if compressedSize = 0 then none
    else
      let frameEnd := offset + frameHeaderSize + compressedSize
      if frameEnd > b.length then none else some frameEnd

/-- `%08x` -/
def hex8 (v : UInt32) : String :=
  let digits := Nat.toDigits 16 v.toNat
  String.ofList (List.replicate (8 - digits.length) '0' ++ digits)

/-- `verifyFrameCRC`: the reason the checksum fails -/
def verifyFrameCRC (frame : Bytes) : Option String :=
  let storedCRC := UInt32.ofNat (readBE frame 16)
  let actualCRC := crc32 (frame.drop frameHeaderSize)
  if actualCRC ≠ storedCRC then some ("crc mismatch: stored=" ++ hex8 storedCRC ++ " actual=" ++ hex8 actualCRC)
  else none

def maxScannedSegmentBytes : ℕ := 1 <<< 28

/-- `validFrameHeader`: the body length a well-formed header declares -/
def validFrameHeader (header : Bytes) : Option ℕ :=
  if header.length < frameHeaderSize || !isKdbpFrame header 0 then none
  else if byteAt header 4 ≠ pageFormatVersion ∨ (byteAt header 5 ≠ pageCodecNone ∧ byteAt header 5 ≠ pageCodecZSTD) ∨
      byteAt header 6 ≠ 0 ∨ byteAt header 7 ≠ 0 then none
  else
    let n := readBE header 8
    if n = 0 ∨ n > maxScannedSegmentBytes then none else some n

/-- `intactFrameAt`: where a complete, well-formed frame with a matching checksum ends -/
def intactFrameAt (raw : Bytes) (offset : ℕ) : Option ℕ :=
  if offset + frameHeaderSize > raw.length then none
  else match validFrameHeader (slice raw offset (offset + frameHeaderSize)) with
    | none => none
    | some n =>
      if n > raw.length - offset - frameHeaderSize then none
      else
        let frameEnd := offset + frameHeaderSize + n
        if (verifyFrameCRC (slice raw offset frameEnd)).isSome then none else some frameEnd

def kdbpMagic : Bytes := [0x4B, 0x44, 0x42, 0x50]

/-- `bytes.Index` -/
def indexOf (sep : Bytes) : Bytes → Option ℕ
  | [] => if sep = [] then some 0 else none
  | b :: bs => if sep.isPrefixOf (b :: bs) then some 0 else (indexOf sep bs).map (· + 1)

/-- the search of `NextIntactFrame` from an offset on -/
def nextIntactFrom (raw : Bytes) : ℕ → ℕ → Option ℕ
  | 0, _ => none
  | fuel + 1, i =>
    if i + frameHeaderSize ≤ raw.length then
      match indexOf kdbpMagic (raw.drop i) with
      | none => none
      | some j => if (intactFrameAt raw (i + j)).isSome then some (i + j) else nextIntactFrom raw fuel (i + j + 1)
    else none

def nextIntactFrame (raw : Bytes) (offset : ℕ) : Option ℕ := nextIntactFrom raw raw.length (offset + 1)

/-- the count of `countIntactFramesFrom` -/
def countIntactFrom (raw : Bytes) : ℕ → Option ℕ → ℕ
  | 0, _ => 0
  | _, none => 0
  | fuel + 1, some off =>
    if off < raw.length then
      match intactFrameAt raw off with
      | some frameEnd => countIntactFrom raw fuel (some frameEnd) + 1
      | none => countIntactFrom raw fuel (nextIntactFrame raw off)
    else 0

def countIntactFramesFrom (raw : Bytes) (start : Option ℕ) : ℕ := countIntactFrom raw (raw.length + 1) start

/-! ## The walk -/

structure CorruptFrameError where
  offset : ℕ
  reason : String
  intactFramesAfter : ℕ
  nextIntactFrame : Option ℕ
  undecodable : Bool

def CorruptFrameError.torn (e : CorruptFrameError) : Bool := !e.undecodable && e.intactFramesAfter == 0

def newCorruptFrameError (raw : Bytes) (offset : ℕ) (reason : String) (undecodable : Bool) : CorruptFrameError :=
  let next := nextIntactFrame raw offset
  ⟨offset, reason, countIntactFramesFrom raw next, next, undecodable⟩

def describeStop (rest : Bytes) : String :=
  if rest.length < frameHeaderSize then
    toString rest.length ++ " byte(s) after the last frame, too few for a frame header"
  else if !isKdbpFrame rest 0 then "no frame header here (magic missing)"
  else if readBE rest 8 = 0 then "frame header declares an empty body"
  else "frame declares " ++ toString (readBE rest 8) ++ " body byte(s) but only " ++
    toString (rest.length - frameHeaderSize) ++ " follow its header"

/-- the end of `scanFrames` where no frame starts: an error only if an intact frame follows -/
def stopAt (bytes : Bytes) (offset : ℕ) : Option CorruptFrameError :=
  if offset < bytes.length then
    (nextIntactFrame bytes offset).map fun next =>
      ⟨offset, describeStop (bytes.drop offset), countIntactFramesFrom bytes (some next), some next, false⟩
  else none

/-- `ScannedCommit`; the commit has its hash -/
structure ScannedCommit (γ : Type) where
  commit : γ
  frameOffset : ℕ
  deriving DecidableEq

variable {γ : Type} (P : PayloadCodec γ)

/-- the loop of `scanFrames`: the commits, where it stopped and the error -/
def scanFrom (bytes : Bytes) : ℕ → ℕ → List (ScannedCommit γ) × ℕ × Option CorruptFrameError
  | 0, offset => ([], offset, stopAt bytes offset)
  | fuel + 1, offset =>
    if offset + frameHeaderSize ≤ bytes.length then
      match frameBounds bytes offset with
      | none => ([], offset, stopAt bytes offset)
      | some frameEnd =>
        let frame := slice bytes offset frameEnd
        match verifyFrameCRC frame with
        | some reason => ([], offset, some (newCorruptFrameError bytes offset reason false))
        | none => match parseCommit P frame with
          | .error e => ([], offset, some (newCorruptFrameError bytes offset e true))
          | .ok commit =>
            let rest := scanFrom bytes fuel frameEnd
            (⟨commit, offset⟩ :: rest.1, rest.2)
    else ([], offset, stopAt bytes offset)

/-- `scanFrames`; every frame is longer than a byte, so the length is fuel enough -/
def scanFrames (bytes : Bytes) : List (ScannedCommit γ) × ℕ × Option CorruptFrameError :=
  scanFrom P bytes bytes.length 0

inductive TailKind where
  | clean
  | torn
  | damaged
  deriving DecidableEq

structure SegmentTail where
  kind : TailKind
  offset : ℕ
  reason : String
  nextIntactFrame : Option ℕ

/-- the tail `ScanSegment` reports -/
def tailOf (raw : Bytes) (stop : ℕ) : Option CorruptFrameError → SegmentTail
  | some corrupt => ⟨if corrupt.torn then .torn else .damaged, stop, corrupt.reason, corrupt.nextIntactFrame⟩
  | none =>
    if stop < raw.length ∧ ¬ allZero (raw.drop stop) then ⟨.torn, stop, describeStop (raw.drop stop), none⟩
    else ⟨.clean, stop, "", none⟩

def scanSegment (raw : Bytes) : List (ScannedCommit γ) × SegmentTail :=
  let scan := scanFrames P raw
  (scan.1, tailOf raw scan.2.1 scan.2.2)

/-- the segment a writer leaves: one frame after the other -/
def segment {P : PayloadCodec γ} (records : List (DeltaRecord P)) : Bytes :=
  records.foldl (fun dst r => appendFrame P dst r.commitPayload r.codec) []

/-- what scanning the records' frames from an offset on yields -/
def scanned {P : PayloadCodec γ} : List (DeltaRecord P) → ℕ → List (ScannedCommit γ)
  | [], _ => []
  | r :: records, offset => ⟨r.commit, offset⟩ :: scanned records (offset + r.frame.length)

/-! ## Bytes in front -/

section Shift

variable (a b : Bytes) (i : ℕ)

theorem frameBounds_append : frameBounds (a ++ b) (a.length + i) = (frameBounds b i).map (a.length + ·) := by
  simp only [frameBounds, isKdbpFrame, byteAt_append, Nat.add_assoc, readBE_append, length_append,
    Nat.add_lt_add_iff_left]
  split
  · rfl
  · split
    · rfl
    · split <;> rfl

theorem intactFrameAt_append : intactFrameAt (a ++ b) (a.length + i) = (intactFrameAt b i).map (a.length + ·) := by
  have hsub : a.length + b.length - (a.length + i) - frameHeaderSize = b.length - i - frameHeaderSize := by omega
  simp only [intactFrameAt, Nat.add_assoc, length_append, slice_append, hsub, Nat.add_lt_add_iff_left]
  split
  · rfl
  · split
    · rfl
    · split
      · rfl
      · split <;> rfl

end Shift

/-! ## The search for an intact frame -/

theorem nextIntactFrom_eq_none {raw : Bytes} {i : ℕ} (h : ∀ c, i ≤ c → intactFrameAt raw c = none) (fuel : ℕ) :
    nextIntactFrom raw fuel i = none := by
  induction fuel generalizing i with
  | zero => rfl
  | succ fuel ih =>
    simp only [nextIntactFrom]
    split
    · split
      · rfl
      · rename_i j _
        rw [h (i + j) (by omega)]
        exact ih fun c hc => h c (by omega)
    · rfl

/-- no intact frame after the offset: the search finds none -/
theorem nextIntactFrame_eq_none {raw : Bytes} {offset : ℕ} (h : ∀ c, offset < c → intactFrameAt raw c = none) :
    nextIntactFrame raw offset = none :=
  nextIntactFrom_eq_none (fun c hc => h c (by omega)) _

theorem stopAt_eq_none {raw : Bytes} {offset : ℕ} (h : ∀ c, offset < c → intactFrameAt raw c = none) :
    stopAt raw offset = none := by
  unfold stopAt
  split
  · rw [nextIntactFrame_eq_none h, Option.map_none]
  · rfl

/-! ## Completed frames -/

section Completed

variable {P : PayloadCodec γ} (r : DeltaRecord P) (records : List (DeltaRecord P)) (a t rest : Bytes)

theorem frameBounds_frame : frameBounds (r.frame ++ rest) 0 = some r.frame.length := by
  obtain ⟨h0, h1, h2, h3, -⟩ := r.header_bytes rest
  have hmagic : isKdbpFrame (r.frame ++ rest) 0 = true := by
    simp [isKdbpFrame, h0, h1, h2, h3]
  have hfits : ¬ 0 + frameHeaderSize + r.body.length > (r.frame ++ rest).length := by
    rw [length_append, r.length_frame]
    omega
  simp only [frameBounds, hmagic, Bool.not_true, Bool.false_eq_true, if_false, Nat.zero_add, (r.header_numbers rest).1]
  rw [if_neg r.body_pos.ne', if_neg (by simpa using hfits), r.length_frame]

theorem verifyFrameCRC_frame : verifyFrameCRC r.frame = none := by
  have hcrc := (r.header_numbers []).2.2
  rw [append_nil] at hcrc
  simp [verifyFrameCRC, hcrc, r.drop_header]

theorem scanFrom_frame (fuel : ℕ) : scanFrom P (a ++ (r.frame ++ rest)) (fuel + 1) a.length =
      (⟨r.commit, a.length⟩ :: (scanFrom P (a ++ (r.frame ++ rest)) fuel (a.length + r.frame.length)).1,
        (scanFrom P (a ++ (r.frame ++ rest)) fuel (a.length + r.frame.length)).2) := by
  have hroom : a.length + frameHeaderSize ≤ (a ++ (r.frame ++ rest)).length := by
    rw [length_append, length_append, r.length_frame]
    omega
  have hbounds : frameBounds (a ++ (r.frame ++ rest)) a.length = some (a.length + r.frame.length) := by
    have hshift := frameBounds_append a (r.frame ++ rest) 0
    rwa [frameBounds_frame] at hshift
  have hslice : slice (a ++ (r.frame ++ rest)) a.length (a.length + r.frame.length) = r.frame := by
    have hshift := slice_append a (r.frame ++ rest) 0 r.frame.length
    rwa [slice_zero, take_left] at hshift
  simp only [scanFrom, if_pos hroom, hbounds, hslice, verifyFrameCRC_frame, r.parseCommit_frame]

theorem foldl_appendFrame (dst : Bytes) :
    records.foldl (fun dst r => appendFrame P dst r.commitPayload r.codec) dst = dst ++ segment records := by
  induction records generalizing dst with
  | nil => simp [segment]
  | cons r records ih =>
    have hone : ∀ dst, appendFrame P dst r.commitPayload r.codec = dst ++ r.frame := by
      simp [DeltaRecord.frame, appendFrame]
    simp only [segment, foldl_cons, hone, nil_append]
    rw [ih, ih r.frame, append_assoc]

theorem segment_cons : segment (r :: records) = r.frame ++ segment records := foldl_appendFrame records r.frame

theorem segment_append (more : List (DeltaRecord P)) : segment (records ++ more) = segment records ++ segment more := by
  rw [segment, foldl_append, foldl_appendFrame]
  rfl

theorem scanned_append (more : List (DeltaRecord P)) (offset : ℕ) :
    scanned (records ++ more) offset = scanned records offset ++ scanned more (offset + (segment records).length) := by
  induction records generalizing offset with
  | nil => rfl
  | cons r records ih =>
    simp only [cons_append, scanned, ih, segment_cons, length_append, Nat.add_assoc]

/-- **Completed records.** The walk reads every completed frame and goes on behind it. -/
theorem scan_segment_append (fuel : ℕ) : scanFrom P (a ++ (segment records ++ t)) (records.length + fuel) a.length =
      (scanned records a.length ++
          (scanFrom P (a ++ (segment records ++ t)) fuel (a.length + (segment records).length)).1,
        (scanFrom P (a ++ (segment records ++ t)) fuel (a.length + (segment records).length)).2) := by
  induction records generalizing a with
  | nil => simp [segment, scanned]
  | cons r records ih =>
    have hassoc : a ++ (segment (r :: records) ++ t) = (a ++ r.frame) ++ (segment records ++ t) := by
      rw [segment_cons, append_assoc, append_assoc]
    have hstep := scanFrom_frame r a (segment records ++ t) (records.length + fuel)
    have hrest := ih (a ++ r.frame)
    rw [length_append] at hrest
    rw [← append_assoc a] at hstep
    rw [hassoc, length_cons, Nat.add_right_comm, hstep, hrest, segment_cons, length_append, Nat.add_assoc]
    rfl

theorem length_records_le : frameHeaderSize * records.length ≤ (segment records).length := by
  induction records with
  | nil => simp
  | cons r records ih =>
    rw [segment_cons, length_cons, length_append, r.length_frame]
    nlinarith

end Completed

/-! ## The torn end -/

/-- a prefix of a frame, and zero bytes: what an interrupted append leaves of it -/
def torn (frame : Bytes) (k z : ℕ) : Bytes := frame.take k ++ zeros z

/-- a checksum matches only the bytes it was computed over: if a frame stands at the start, it is `frame` -/
def ChecksumExact (frame t : Bytes) : Prop :=
  ∀ e, frameBounds t 0 = some e → verifyFrameCRC (t.take e) = none → t.take e = frame

/-- no complete, valid frame starts behind the first byte -/
def NoFrameInside (t : Bytes) : Prop := ∀ i, 0 < i → intactFrameAt t i = none

instance (frame t : Bytes) : Decidable (ChecksumExact frame t) :=
  match h : frameBounds t 0 with
  | none => isTrue fun e he => by simp [h] at he
  | some e =>
    if hv : verifyFrameCRC (t.take e) = none then
      if ht : t.take e = frame then isTrue fun e' he' _ => by
        cases h.symm.trans he'
        exact ht
      else isFalse fun hall => ht (hall e h hv)
    else isTrue fun e' he' hv' => by
      cases h.symm.trans he'
      exact absurd hv' hv

theorem noFrameInside_iff (t : Bytes) : (∀ i < t.length, 0 < i → intactFrameAt t i = none) ↔ NoFrameInside t := by
  constructor
  · intro h i hi
    by_cases hlt : i < t.length
    · exact h i hlt hi
    · rw [intactFrameAt, if_pos (by unfold frameHeaderSize; omega)]
  · intro h i _ hi
    exact h i hi

instance (t : Bytes) : Decidable (NoFrameInside t) := decidable_of_iff _ (noFrameInside_iff t)

/-- the bytes the frame misses were zero, and the padding supplies them -/
def Completes (frame : Bytes) (k z : ℕ) : Prop := allZero (frame.drop k) = true ∧ frame.length ≤ k + z
  deriving Decidable

section Torn

variable {P : PayloadCodec γ} {r : DeltaRecord P} {frame t : Bytes} {k z : ℕ}

theorem Completes.torn_eq (h : Completes frame k z) (hk : k ≤ frame.length) :
    torn frame k z = frame ++ zeros (k + z - frame.length) := by
  obtain ⟨hzero, hlen⟩ := h
  have hdrop : frame.drop k = zeros (frame.length - k) := by
    rw [← length_drop]
    exact (allZero_iff _).1 hzero
  have hz : zeros z = zeros (frame.length - k) ++ zeros (k + z - frame.length) := by
    simp only [zeros, replicate_append_replicate]
    congr 1
    omega
  rw [torn, hz, ← append_assoc, ← hdrop, take_append_drop]

theorem completes_of_take (hk : k < frame.length) {e : ℕ} (he : (torn frame k z).take e = frame) :
    Completes frame k z := by
  have hlen : frame.length ≤ k + z := by
    have htake : ((torn frame k z).take e).length ≤ (torn frame k z).length := by simp
    rw [he, torn, length_append, length_zeros, length_take] at htake
    omega
  refine ⟨?_, hlen⟩
  have hdrop : frame.drop k = (zeros z).take (e - k) := by
    conv_lhs => rw [← he]
    rw [drop_take, torn, drop_left' (by rw [length_take]; omega)]
  rw [hdrop, zeros, take_replicate]
  exact allZero_zeros _

theorem NoFrameInside.after (h : NoFrameInside t) (a : Bytes) {offset : ℕ} (ho : a.length ≤ offset) :
    ∀ c, offset < c → intactFrameAt (a ++ t) c = none := by
  intro c hc
  obtain ⟨i, rfl⟩ : ∃ i, c = a.length + i := ⟨c - a.length, by omega⟩
  rw [intactFrameAt_append, h i (by omega), Option.map_none]

theorem scanFrom_zeros (a : Bytes) (h : ∀ c, a.length < c → intactFrameAt (a ++ zeros z) c = none) (fuel : ℕ) :
    scanFrom P (a ++ zeros z) fuel a.length = ([], a.length, none) := by
  have hbounds : frameBounds (a ++ zeros z) a.length = none := by
    have hshift := frameBounds_append a (zeros z) 0
    rw [Nat.add_zero] at hshift
    rw [hshift]
    simp [frameBounds, isKdbpFrame, byteAt_zeros]
  cases fuel with
  | zero => simp [scanFrom, stopAt_eq_none h]
  | succ fuel =>
    simp only [scanFrom, hbounds, stopAt_eq_none h, ite_self]

/-- a frame the padding completes is read, and what follows it is padding -/
theorem scanFrom_completed (a : Bytes) (hc : Completes r.frame k z) (hk : k < r.frame.length)
    (hin : NoFrameInside (torn r.frame k z)) {fuel : ℕ} (hfuel : 0 < fuel) :
    scanFrom P (a ++ torn r.frame k z) fuel a.length = ([⟨r.commit, a.length⟩], a.length + r.frame.length, none) := by
  obtain ⟨fuel, rfl⟩ : ∃ n, fuel = n + 1 := ⟨fuel - 1, by omega⟩
  have hafter := hin.after a (Nat.le_add_right a.length r.frame.length)
  rw [hc.torn_eq hk.le] at hafter ⊢
  rw [scanFrom_frame]
  rw [← append_assoc, ← length_append] at hafter ⊢
  rw [scanFrom_zeros _ hafter]

/-- a frame the padding does not complete ends the walk; an error, if any, has the shape of a torn end -/
theorem scanFrom_torn (a : Bytes) (hc : ¬ Completes r.frame k z) (hk : k < r.frame.length)
    (hsum : ChecksumExact r.frame (torn r.frame k z)) (hin : NoFrameInside (torn r.frame k z)) (fuel : ℕ) :
    ∃ err, scanFrom P (a ++ torn r.frame k z) fuel a.length = ([], a.length, err) ∧
      ∀ e ∈ err, e.torn = true ∧ e.nextIntactFrame = none ∧ allZero (torn r.frame k z) = false := by
  have hafter := hin.after a le_rfl
  have hstop := stopAt_eq_none hafter
  cases fuel with
  | zero => exact ⟨none, by simp [scanFrom, hstop], by simp⟩
  | succ fuel =>
    simp only [scanFrom]
    split
    · have hshift := frameBounds_append a (torn r.frame k z) 0
      rw [Nat.add_zero] at hshift
      cases hb : frameBounds (torn r.frame k z) 0 with
      | none =>
        rw [hshift, hb]
        exact ⟨none, by simp [hstop], by simp⟩
      | some e =>
        have hslice : slice (a ++ torn r.frame k z) a.length (a.length + e) = (torn r.frame k z).take e := by
          have hs := slice_append a (torn r.frame k z) 0 e
          rwa [slice_zero] at hs
        rw [hshift, hb]
        simp only [Option.map_some, hslice]
        cases hv : verifyFrameCRC ((torn r.frame k z).take e) with
        | none => exact absurd (completes_of_take hk (hsum e hb hv)) hc
        | some reason =>
          refine ⟨_, rfl, ?_⟩
          -- the magic is there, so what follows is not padding
          have hmagic : byteAt (torn r.frame k z) 0 = 0x4B := by
            unfold frameBounds at hb
            split at hb
            · cases hb
            · rename_i hm
              simp only [isKdbpFrame, Bool.not_eq_true', Bool.not_eq_false, Bool.and_eq_true, beq_iff_eq] at hm
              exact hm.1.1.1
          rintro _ ⟨rfl⟩
          refine ⟨?_, nextIntactFrame_eq_none hafter, ?_⟩
          · simp [CorruptFrameError.torn, newCorruptFrameError, nextIntactFrame_eq_none hafter,
              countIntactFramesFrom, countIntactFrom]
          · by_contra hz
            rw [Bool.not_eq_false, allZero_iff] at hz
            rw [hz, byteAt_zeros] at hmagic
            exact absurd hmagic (by decide)
    · exact ⟨none, by simp [hstop], by simp⟩

end Torn

theorem tailOf_of_none (raw : Bytes) (stop : ℕ) :
    (tailOf raw stop none).offset = stop ∧ (tailOf raw stop none).nextIntactFrame = none ∧
      (tailOf raw stop none).kind = if allZero (raw.drop stop) then .clean else .torn := by
  by_cases hlt : stop < raw.length
  · by_cases hz : allZero (raw.drop stop) = true <;> simp [tailOf, hlt, hz]
  · have hnil : raw.drop stop = [] := drop_of_length_le (by omega)
    simp [tailOf, hnil, allZero]

/-- **A torn segment reads back.** Completed records, then a proper prefix of one more frame and any number of zero bytes.
Provided a checksum matches only the bytes it was computed over and the torn bytes hold no complete frame behind their
start, the scan yields the completed records in order, and the unfinished one exactly when its missing bytes were zero
and are all there. What follows is clean when it is only padding, torn otherwise, and never damage. -/
theorem torn_segment_reads_back (P : PayloadCodec γ) (records : List (DeltaRecord P)) (last : DeltaRecord P) (k z : ℕ)
    (hk : k < last.frame.length) (hsum : ChecksumExact last.frame (torn last.frame k z))
    (hin : NoFrameInside (torn last.frame k z)) :
    let raw := segment records ++ torn last.frame k z
    let kept := if Completes last.frame k z then records ++ [last] else records
    (scanSegment P raw).1 = scanned kept 0 ∧ (scanSegment P raw).2.offset = (segment kept).length ∧
      (scanSegment P raw).2.nextIntactFrame = none ∧
      (scanSegment P raw).2.kind = if allZero (raw.drop (segment kept).length) then .clean else .torn := by
  intro raw kept
  -- every frame takes more than one byte, so the fuel lasts past the completed records
  have hcount := length_records_le records
  obtain ⟨fuel, hfuel, hleft⟩ : ∃ fuel, raw.length = records.length + fuel ∧
      (0 < (torn last.frame k z).length → 0 < fuel) := by
    refine ⟨raw.length - records.length, ?_, ?_⟩ <;>
      simp only [raw, length_append, frameHeaderSize] at hcount ⊢ <;> omega
  have hwalk := scan_segment_append records [] (torn last.frame k z) fuel
  simp only [length_nil, Nat.zero_add] at hwalk
  have hscan : scanFrames P raw = (scanned records 0 ++ (scanFrom P raw fuel (segment records).length).1,
      (scanFrom P raw fuel (segment records).length).2) := by
    rw [scanFrames, hfuel]
    exact hwalk
  by_cases hc : Completes last.frame k z
  · have hkept : kept = records ++ [last] := if_pos hc
    have hseg : segment kept = segment records ++ last.frame := by
      rw [hkept, segment_append, segment_cons]
      simp [segment]
    have hpos : 0 < fuel := by
      apply hleft
      rw [hc.torn_eq hk.le, length_append]
      omega
    have hlast := scanFrom_completed (segment records) hc hk hin hpos
    rw [← length_append, ← hseg] at hlast
    have htail := tailOf_of_none raw (segment kept).length
    rw [scanSegment, hscan, hlast]
    refine ⟨?_, htail⟩
    rw [hkept, scanned_append]
    simp [scanned]
  · have hkept : kept = records := if_neg hc
    obtain ⟨err, hlast, herr⟩ := scanFrom_torn (segment records) hc hk hsum hin fuel
    rw [scanSegment, hscan, hlast, hkept]
    refine ⟨append_nil _, ?_⟩
    cases err with
    | none => exact tailOf_of_none raw (segment records).length
    | some e =>
      obtain ⟨htorn, hnext, hzero⟩ := herr e rfl
      have hrest : raw.drop (segment records).length = torn last.frame k z := drop_left
      simp [tailOf, htorn, hnext, hrest, hzero]

/-- payloads of any bytes, the commit being the payload itself, with a compressor that puts a byte in front -/
def sampleCodec : PayloadCodec Bytes where
  compress p := 1 :: p
  decompress b _ := .ok (b.drop 1)
  fromPayloadBytes b := if b = [] then .error "empty" else .ok b
  decompress_compress _ _ := rfl
  compress_ne_nil _ := nofun
  fromPayloadBytes_nil := by simp

/-- a record of `sampleCodec` -/
def sampleRecord (payload : Bytes) (codec : CompressionCodec) (hne : payload ≠ [])
    (hlen : payload.length + 1 < 2 ^ 32) : DeltaRecord sampleCodec where
  commitPayload := payload
  codec := codec
  commit := payload
  decodes := by simp [sampleCodec, hne]
  payload_lt := by omega
  compressed_lt := by simpa [sampleCodec] using hlen

def sampleRecords : List (DeltaRecord sampleCodec) :=
  [sampleRecord [7, 8] .none (by decide) (by decide), sampleRecord [9] .zstd (by decide) (by decide)]

/-- a record that ends in zero bytes -/
def sampleLast : DeltaRecord sampleCodec := sampleRecord [5, 0, 0] .none (by decide) (by decide)

theorem torn_segment_reads_back_padded :
    (scanSegment sampleCodec (segment sampleRecords ++ torn sampleLast.frame 21 5)).1 =
        scanned (sampleRecords ++ [sampleLast]) 0 ∧
      (scanSegment sampleCodec (segment sampleRecords ++ torn sampleLast.frame 20 5)).2.kind = .torn := by
  have h₁ := torn_segment_reads_back sampleCodec sampleRecords sampleLast 21 5 (by decide +kernel) (by decide +kernel)
    (by decide +kernel)
  have h₂ := torn_segment_reads_back sampleCodec sampleRecords sampleLast 20 5 (by decide +kernel) (by decide +kernel)
    (by decide +kernel)
  refine ⟨?_, ?_⟩
  · rw [h₁.1, if_pos (by decide +kernel)]
  · rw [h₂.2.2.2, if_neg (by decide +kernel)]

/-- an uncompressed payload that quotes a frame header declaring the two bytes 41 00, and the bytes 41 42 -/
def quotingRecord : DeltaRecord sampleCodec :=
  sampleRecord ([0x4B, 0x44, 0x42, 0x50, 2, 0, 0, 0] ++ be32 2 ++ be32 2 ++ be32 (crc32 [0x41, 0]).toNat ++ [0x41, 0x42])
    .none (by decide) (by decide)

/-- **Damage by padding.** The record holds no complete frame, but torn one byte short and padded it does: the scan finds
an intact frame behind the fault and reports damage. -/
theorem padded_prefix_reads_as_damage :
    NoFrameInside quotingRecord.frame ∧ 41 < quotingRecord.frame.length ∧
      ChecksumExact quotingRecord.frame (torn quotingRecord.frame 41 5) ∧
      (scanSegment sampleCodec (torn quotingRecord.frame 41 5)).2.kind = .damaged := by
  decide +kernel

end Kdb.Delta
