/-
The attachment store (`storage/attachstore`): blobs named by content hash, each stored whole, inline in its pointer, or
as a delta against another blob. Maintenance re-stores a replaced version as a delta (`DeltaStep`, `finishJob`), turns
deltas back into whole copies (`InflateStep`) and collects what no reference keeps (`Collect`).

- A blob's pointers form a chain to a whole copy; `resolveLocked` follows it for `deltaMaxDepth + 1` deltas and fails
  beyond. `finishJob` looks at the length of the base's chain only: not at whether the old version is on it, nor at the
  blobs that already stand on the old version.
- `stored_blob_readable`: every blob reads back in every run whose swaps respect the chains above the old version
  (`rebasable`).
- `rebased_blobs_unreadable`: two swaps in opposite directions leave a cycle; swaps oldest first grow a chain longer
  than the reader follows.

Segments are modelled by what they hold (bytes, delta instructions, the identity a leaves segment hashes to); a budget
is modelled by where a step stops (`Work`). Open readers (their pins only delay deletions), the pointer files behind the
index, the legacy small-blob store and the grace clock (a label says which blobs are within it) are left out.
-/
import Kdb.Lib.Entries
import Kdb.Lib.Machine
import Kdb.Lib.PointerChain

namespace Kdb.AttachStore

open Function (update update_of_ne update_self)
open List

open Kdb.Machine Kdb.PointerChain

abbrev Bytes := List UInt8

/-- a segment name; names are handed out by a counter, as random ones that never repeat -/
abbrev Name := ℕ

/-- `Config`, after `withDefaults` -/
structure Config where
  smallMaxBytes : ℕ := 262144
  maxBytes : ℕ := 0
  deltaMaxBytes : ℕ := 0
  deltaMaxDepth : ℕ := 8
  disableDeltas : Bool := false

/-- `document.AttachmentChunkBytes` -/
def chunk : ℕ := 1048576

/-- an instruction of a delta segment -/
inductive DeltaOp
  | copy (off len : ℕ)
  | literal (bytes : Bytes)
deriving DecidableEq, Repr

/-- what reading through a delta yields; a copy beyond the base is a corrupt delta -/
def applyOps (base : Bytes) : List DeltaOp → Option Bytes
  | [] => some []
  | .copy off len :: ops =>
    if off + len ≤ base.length then (applyOps base ops).map ((base.drop off).take len ++ ·) else none
  | .literal bytes :: ops => (applyOps base ops).map (bytes ++ ·)

variable {H : Type} [DecidableEq H]

inductive Segment (H : Type)
  | whole (bytes : Bytes)
  | frames (ops : List DeltaOp)
  | leaves (identity : H)

/-- where a pointer says its blob is -/
inductive Body (H : Type)
  | inline (bytes : Bytes)
  | whole (segment leaves : Name)
  | delta (segment leaves : Name) (base : H)

structure Pointer (H : Type) where
  size : ℕ
  body : Body H

def Pointer.names (p : Pointer H) : List Name :=
  match p.body with
  | .inline _ => []
  | .whole segment leaves => [segment, leaves]
  | .delta segment leaves _ => [segment, leaves]

/-- the blob a delta applies to -/
def Pointer.base (p : Pointer H) : Option H :=
  match p.body with
  | .delta _ _ base => some base
  | _ => none

structure DeltaJob (H : Type) where
  old : H
  base : H
  oldSeg : Name
  seg : Name
  framesSeg : Name

structure InflateJob (H : Type) where
  h : H
  deltaSeg : Name
  seg : Name

structure Store (H : Type) where
  idx : AList (fun _ : H => Pointer H)
  segs : Name → Option (Segment H) := fun _ => none
  job : Option (DeltaJob H) := none
  inflate : Option (InflateJob H) := none
  next : Name := 0

def init : Store H := { idx := ∅ }

variable (s : Store H)

def Store.deleteSegment (n : Name) : Store H := { s with segs := update s.segs n none }

def Store.writeSegment (n : Name) (x : Segment H) : Store H :=
  { s with segs := update s.segs n (some x) }

def Store.setPointer (h : H) (p : Pointer H) : Store H := { s with idx := s.idx.insert h p }

/-! ## Reading -/

inductive ReadError
  | notFound
  | tooDeep
  | corrupt
deriving DecidableEq, Repr

/-- the loop of `resolveLocked`; `fuel` is the number of deltas it still follows -/
def chainFrom (s : Store H) (fuel : ℕ) (h : H) : Except ReadError (List (H × Pointer H)) :=
  match s.idx.lookup h with
  | none => .error .notFound
  | some p =>
    match p.base with
    | none => .ok [(h, p)]
    | some b =>
      match fuel with
      | 0 => .error .tooDeep
      | fuel + 1 => (chainFrom s fuel b).map ((h, p) :: ·)

/-- `resolveLocked`: the pointer chain of `h`, its base last -/
def resolveLocked (cfg : Config) (s : Store H) (h : H) : Except ReadError (List (H × Pointer H)) :=
  chainFrom s (cfg.deltaMaxDepth + 1) h

/-- `sourceFor`: the bytes of the first version of a chain -/
def sourceFor (s : Store H) : List (H × Pointer H) → Option Bytes
  | [] => none
  | (_, p) :: rest =>
    match p.body with
    | .inline bytes => some bytes
    | .whole segment _ =>
      match s.segs segment with
      | some (.whole bytes) => some bytes
      | _ => none
    | .delta segment _ _ =>
      match s.segs segment, sourceFor s rest with
      | some (.frames ops), some base => (applyOps base ops).filter fun c => c.length = p.size
      | _, _ => none

/-- `verifyLeaves`: the leaves segment hashes to `h`; an inline blob has none -/
def verifyLeaves (h : H) (p : Pointer H) : Bool :=
  match p.body with
  | .inline _ => true
  | .whole _ leaves | .delta _ leaves _ =>
    match s.segs leaves with
    | some (.leaves identity) => identity = h
    | _ => false

variable (hash : Bytes → H)

/-- `Open` and a read to the end, every chunk checked against the leaves -/
def read (cfg : Config) (s : Store H) (h : H) : Except ReadError Bytes :=
  if h = hash [] then .ok []
  else match resolveLocked cfg s h with
    | .error e => .error e
    | .ok [] => .error .notFound
    | .ok ((h', p) :: rest) =>
      match sourceFor s ((h', p) :: rest) with
      | none => .error .corrupt
      | some c => if verifyLeaves s h p && hash c = h then .ok c else .error .corrupt

/-! ## Uploads -/

/-- a finished `Upload`: empty bytes are never stored, a blob already stored is not stored twice, small ones go in the
pointer -/
def upload (cfg : Config) (s : Store H) (c : Bytes) : Store H :=
  if c = [] || (0 < cfg.maxBytes && cfg.maxBytes < c.length) then s
  else if c.length < chunk && c.length ≤ cfg.smallMaxBytes then
    if hash c ∈ s.idx then s else s.setPointer (hash c) ⟨c.length, .inline c⟩
  else
    let segment := s.next
    let leaves := s.next + 1
    let s := { s with next := s.next + 2 }
    if hash c ∈ s.idx then s
    else ((s.writeSegment segment (.whole c)).writeSegment leaves (.leaves (hash c))).setPointer (hash c)
      ⟨c.length, .whole segment leaves⟩

/-! ## Delta jobs -/

/-- how far the budget of a step carries its job: it runs out (`pending`), the encoding passes half the version's size
(`tooBig`; a pair declined before ends the same way), or the delta is complete and has been read back -/
inductive Work
  | pending
  | tooBig
  | encoded (ops : List DeltaOp)
deriving DecidableEq, Repr

inductive DeltaOutcome
  | skipped
  | stored
  | pending
deriving DecidableEq, Repr

def dropJobLocked : Store H :=
  match s.job with
  | none => s
  | some j => ({ s with job := none }.deleteSegment j.seg).deleteSegment j.framesSeg

def newJob (old base : H) (oldSeg : Name) : DeltaJob H := ⟨old, base, oldSeg, s.next, s.next + 1⟩

def startJob (old base : H) (oldSeg : Name) : Store H :=
  { s with job := some (newJob s old base oldSeg), next := s.next + 2 }

/-- `finishJob`: swap old's pointer to the verified delta. The base's chain may hold at most `deltaMaxDepth` versions;
nothing is asked about where the old version stands. -/
def finishJob (cfg : Config) (s : Store H) (j : DeltaJob H) : Store H × DeltaOutcome :=
  match s.idx.lookup j.old, resolveLocked cfg s j.base with
  | some ⟨size, .whole segment leaves⟩, .ok chain =>
    if segment = j.oldSeg && chain.length ≤ cfg.deltaMaxDepth then
      (({ s with job := none }.setPointer j.old ⟨size, .delta j.seg leaves j.base⟩).deleteSegment segment, .stored)
    else (dropJobLocked s, .skipped)
  | _, _ => (dropJobLocked s, .skipped)

/-- the job `s.job` goes on for the pair `(old, base)`; another pair, or a version that changed, abandons it -/
def keepJob (old base : H) (oldSeg : Option Name) (baseLarge : Bool) : Store H :=
  match s.job with
  | none => s
  | some j => if j.old = old && j.base = base && oldSeg = some j.oldSeg && baseLarge then s else dropJobLocked s

/-- the segment holding a blob's bytes, whole or as a delta -/
def Pointer.segment (p : Pointer H) : Option Name :=
  match p.body with
  | .inline _ => none
  | .whole segment _ => some segment
  | .delta segment _ _ => some segment

/-- the encoded delta is sealed and read back through the base: every chunk must match old's leaves -/
def runEncoded (cfg : Config) (s : Store H) (j : DeltaJob H) (cBase : Bytes) (ops : List DeltaOp) :
    Store H × DeltaOutcome :=
  match applyOps cBase ops with
  | none => (dropJobLocked s, .skipped)
  | some c =>
    if hash c = j.old then finishJob cfg ((s.writeSegment j.seg (.frames ops)).deleteSegment j.framesSeg) j
    else (dropJobLocked s, .skipped)

/-- one step of the job -/
def runJob (cfg : Config) (s : Store H) (j : DeltaJob H) (cBase : Bytes) : Work → Store H × DeltaOutcome
  | .pending => (s, .pending)
  | .tooBig => (dropJobLocked s, .skipped)
  | .encoded ops => runEncoded hash cfg s j cBase ops

/-- `DeltaStep`; `StoreAsDelta` repeats it while it is pending -/
def deltaStep (cfg : Config) (s : Store H) (old base : H) (w : Work) : Store H × DeltaOutcome :=
  if old = base || old = hash [] || base = hash [] || cfg.disableDeltas then (s, .skipped)
  else
    let p := s.idx.lookup old
    let baseChain := resolveLocked cfg s base
    let s := keepJob s old base (p.bind Pointer.segment) baseChain.isOk
    match p, baseChain with
    | some ⟨size, .whole segment _⟩, .ok ((b, bp) :: rest) =>
      if (0 < cfg.deltaMaxBytes && (cfg.deltaMaxBytes < size || cfg.deltaMaxBytes < bp.size)) ||
          cfg.deltaMaxDepth < ((b, bp) :: rest).length then (s, .skipped)
      else
        -- each step opens both versions afresh, before it starts a job
        match read hash cfg s old, read hash cfg s base with
        | .ok _, .ok cBase =>
          match s.job with
          | some j => runJob hash cfg s j cBase w
          | none => runJob hash cfg (startJob s old base segment) (newJob s old base segment) cBase w
        | _, _ => (s, .skipped)
    | _, _ => (s, .skipped)

/-! ## Inflating and collecting -/

def dropInflateLocked : Store H :=
  match s.inflate with
  | none => s
  | some j => { s with inflate := none }.deleteSegment j.seg

def keepInflate (h : H) (deltaSeg : Option Name) : Store H :=
  match s.inflate with
  | none => s
  | some j => if j.h = h && deltaSeg = some j.deltaSeg then s else dropInflateLocked s

/-- `InflateStep`: `done` tells whether the budget carries the copy to its end -/
def inflateStep (cfg : Config) (s : Store H) (h : H) (done : Bool) : Store H :=
  let p := s.idx.lookup h
  let s := keepInflate s h (p.bind Pointer.segment)
  match p with
  | some ⟨size, .delta segment leaves _⟩ =>
    let s := if s.inflate.isNone then { s with inflate := some ⟨h, segment, s.next⟩, next := s.next + 1 } else s
    match s.inflate, read hash cfg s h with
    | some j, .ok c =>
      if done then
        (({ s with inflate := none }.writeSegment j.seg (.whole c)).setPointer h ⟨size, .whole j.seg leaves⟩).deleteSegment
          segment
      else s
    | _, _ => dropInflateLocked s
  | _ => s

/-- the walk `Collect` makes from the base of a kept delta: bases that nothing else keeps are rescued; it ends at a base
that is kept, held, missing, whole or rescued already, so `fuel` above the number of pointers never runs out -/
def rescue (s : Store H) (keep held : H → Bool) : ℕ → List H → H → List H
  | 0, rescued, _ => rescued
  | fuel + 1, rescued, b =>
    if b ∈ rescued || keep b then rescued
    else match s.idx.lookup b with
      | none => rescued
      | some p =>
        if held b then rescued
        else match p.base with
          | none => b :: rescued
          | some b' => rescue s keep held fuel (b :: rescued) b'

def rescuedBy (cfg : Config) (s : Store H) (keep held : H → Bool) (hs : List H) : List H :=
  hs.foldl (fun rescued h =>
    match (s.idx.lookup h).bind Pointer.base with
    | none => rescued
    | some b =>
      if keep h || held h then rescue s keep held (s.idx.keys.length + cfg.deltaMaxDepth + 2) rescued b
      else rescued) []

/-- `live` in `Collect`: kept, rescued, or stored and within its grace -/
def live (keep held : H → Bool) (rescued : List H) (h : H) : Bool :=
  keep h || rescued.contains h || (decide (h ∈ s.idx) && held h)

def removePointers (idx : AList fun _ : H => Pointer H) (dead : List H) : AList fun _ : H => Pointer H :=
  dead.foldl (fun idx h => idx.erase h) idx

/-- `uploads`: the segments a job in progress is writing, which `Collect` leaves alone -/
def Store.uploads : List Name :=
  (match s.job with | some j => [j.seg, j.framesSeg] | none => []) ++
    (match s.inflate with | some j => [j.seg] | none => [])

/-- the jobs on versions that go are abandoned -/
def dropDeadJobs (lv : H → Bool) : Store H :=
  let s := match s.job with
    | some j => if lv j.old && lv j.base then s else dropJobLocked s
    | none => s
  match s.inflate with
  | some j => if lv j.h then s else dropInflateLocked s
  | none => s

/-- `Collect`: drop the pointers nothing keeps, the jobs on versions that go, and every segment no pointer names -/
def collect (cfg : Config) (s : Store H) (keep held : H → Bool) : Store H :=
  let lv := live s keep held (rescuedBy cfg s keep held s.idx.keys)
  let s := dropDeadJobs s lv
  let idx := removePointers s.idx (s.idx.keys.filter fun h => !lv h)
  let referenced := idx.entries.flatMap fun e => e.2.names
  { s with idx, segs := fun n => if n ∈ referenced || n ∈ s.uploads then s.segs n else none }

inductive Op (H : Type)
  | upload (c : Bytes)
  | deltaStep (old base : H) (w : Work)
  | inflateStep (h : H) (done : Bool)
  | collect (keep held : H → Bool)

def step (cfg : Config) (s : Store H) : Op H → Store H
  | .upload c => upload hash cfg s c
  | .deltaStep old base w => (deltaStep hash cfg s old base w).1
  | .inflateStep h done => inflateStep hash cfg s h done
  | .collect keep held => collect cfg s keep held

/-! ## Chains -/

def Store.ptr (h : H) : Option (Option H) := (s.idx.lookup h).map Pointer.base

variable {h : H} {p : Pointer H} {fuel : ℕ} {l : List H} {ch : List (H × Pointer H)} {c cBase : Bytes}
  {j : DeltaJob H} {s : Store H}

theorem ptr_of_lookup (hp : s.idx.lookup h = some p) : s.ptr h = some p.base := by simp [Store.ptr, hp]

theorem ptr_ne_none : s.ptr h ≠ none ↔ h ∈ s.idx := by
  simp [Store.ptr, ← AList.lookup_isSome, Option.isSome_iff_ne_none]

/-- the nodes `resolveLocked` visits are the chain -/
theorem chainFrom_eq (hc : Chain s.ptr h l) (hl : l.length ≤ fuel + 1) :
    ∃ ch, chainFrom s fuel h = .ok ch ∧ ch.map Prod.fst = l := by
  induction hc generalizing fuel with
  | @root h hr =>
    obtain ⟨p, hp, hb⟩ := Option.map_eq_some_iff.1 hr
    exact ⟨[(h, p)], by unfold chainFrom; simp [hp, hb], rfl⟩
  | @link h b l hlk hc ih =>
    obtain ⟨p, hp, hb⟩ := Option.map_eq_some_iff.1 hlk
    obtain ⟨fuel, rfl⟩ : ∃ n, fuel = n + 1 := by
      have : l ≠ [] := ne_nil_of_mem hc.head_mem
      have := length_pos_of_ne_nil this
      exact ⟨fuel - 1, by simp at hl; omega⟩
    obtain ⟨ch, hch, rfl⟩ := ih (by simpa using hl : l.length ≤ fuel + 1)
    exact ⟨(h, p) :: ch, by unfold chainFrom; simp [hp, hb, hch, Except.map], rfl⟩

theorem chainFrom_ok (hch : chainFrom s fuel h = .ok ch) : ∃ p, s.idx.lookup h = some p ∧ ((p.base = none ∧ ch = [(h, p)]) ∨
      ∃ b fuel' rest, p.base = some b ∧ fuel = fuel' + 1 ∧ chainFrom s fuel' b = .ok rest ∧ ch = (h, p) :: rest) := by
  unfold chainFrom at hch
  split at hch
  · cases hch
  · rename_i p hp
    refine ⟨p, hp, ?_⟩
    split at hch
    · rename_i hb
      exact .inl ⟨hb, (Except.ok.inj hch).symm⟩
    · rename_i b hb
      cases fuel with
      | zero => cases hch
      | succ fuel =>
        cases hr : chainFrom s fuel b with
        | error e => simp [hr, Except.map] at hch
        | ok rest => exact .inr ⟨b, fuel, rest, hb, rfl, hr, by simpa [hr, Except.map] using hch.symm⟩

theorem chain_of_chainFrom (hch : chainFrom s fuel h = .ok ch) : Chain s.ptr h (ch.map Prod.fst) ∧ ch.length ≤ fuel + 1 := by
  induction ch generalizing h fuel with
  | nil => obtain ⟨p, -, ⟨-, h'⟩ | ⟨_, _, _, _, _, _, h'⟩⟩ := chainFrom_ok hch <;> cases h'
  | cons e rest ih =>
    obtain ⟨p, hp, ⟨hb, he⟩ | ⟨b, fuel', rest', hb, rfl, hr, he⟩⟩ := chainFrom_ok hch
    · obtain ⟨rfl, rfl⟩ := cons.inj he
      exact ⟨.root (by rw [ptr_of_lookup hp, hb]), by simp⟩
    · obtain ⟨rfl, rfl⟩ := cons.inj he
      obtain ⟨hc, hlen⟩ := ih hr
      exact ⟨.link (by rw [ptr_of_lookup hp, hb]) hc, by simpa using hlen⟩

/-! ## The invariant -/

/-- a pointer's data is the bytes its hash names; a delta's, over the bytes its base's hash names -/
def DataOk (s : Store H) (h : H) (p : Pointer H) : Prop :=
  ∃ c, hash c = h ∧ p.size = c.length ∧
    match p.body with
    | .inline bytes => bytes = c
    | .whole segment leaves => s.segs segment = some (.whole c) ∧ s.segs leaves = some (.leaves h)
    | .delta segment leaves base => s.segs leaves = some (.leaves h) ∧
        ∃ ops cBase, s.segs segment = some (.frames ops) ∧ hash cBase = base ∧ applyOps cBase ops = some c

structure Inv (cfg : Config) (s : Store H) : Prop where
  data : ∀ h p, s.idx.lookup h = some p → DataOk hash s h p
  chains : ∀ h ∈ s.idx, ∃ l, Chain s.ptr h l ∧ l.length ≤ cfg.deltaMaxDepth + 2
  own : ∀ h p h' p', s.idx.lookup h = some p → s.idx.lookup h' = some p' → ∀ n ∈ p.names, n ∈ p'.names → h = h'
  names : ∀ h p, s.idx.lookup h = some p → p.names.Nodup ∧ ∀ n ∈ p.names, n < s.next ∧ n ∉ s.uploads
  uploads : s.uploads.Nodup ∧ ∀ n ∈ s.uploads, n < s.next

variable {hash} {cfg : Config} {s s' : Store H}

omit [DecidableEq H] in
theorem DataOk.congr (hd : DataOk hash s h p) (hs : ∀ n ∈ p.names, s'.segs n = s.segs n) : DataOk hash s' h p := by
  obtain ⟨c, hc, hsize, hbody⟩ := hd
  refine ⟨c, hc, hsize, ?_⟩
  obtain ⟨size, body⟩ := p
  cases body <;> simp_all [Pointer.names]

omit [DecidableEq H] in
theorem DataOk.segs_some (hd : DataOk hash s h p) {n : Name} (hn : n ∈ p.names) : (s.segs n).isSome := by
  obtain ⟨c, -, -, hbody⟩ := hd
  obtain ⟨size, body⟩ := p
  cases body with
  | inline => cases hn
  | whole segment leaves =>
    obtain ⟨h1, h2⟩ := hbody
    rcases mem_pair.1 hn with rfl | rfl
    · simp [h1]
    · simp [h2]
  | delta segment leaves base =>
    obtain ⟨h1, ops, cBase, h2, -⟩ := hbody
    rcases mem_pair.1 hn with rfl | rfl
    · simp [h2]
    · simp [h1]

/-- the bytes at the head of a chain are those its hash names: each delta is right over its base's bytes, and the base's
bytes are the only ones with its hash -/
theorem sourceFor_chain (hinj : Function.Injective hash) (hdata : ∀ h p, s.idx.lookup h = some p → DataOk hash s h p)
    (hch : chainFrom s fuel h = .ok ch) : ∃ c, hash c = h ∧ sourceFor s ch = some c := by
  induction ch generalizing h fuel with
  | nil => obtain ⟨p, -, ⟨-, h'⟩ | ⟨_, _, _, _, _, _, h'⟩⟩ := chainFrom_ok hch <;> cases h'
  | cons e rest ih =>
    obtain ⟨⟨size, body⟩, hp, hcase⟩ := chainFrom_ok hch
    obtain ⟨c, hc, hsize, hbody⟩ := hdata h _ hp
    refine ⟨c, hc, ?_⟩
    rcases hcase with ⟨hb, he⟩ | ⟨b, fuel', rest', hb, rfl, hr, he⟩ <;> obtain ⟨rfl, rfl⟩ := cons.inj he
    · cases body <;> simp_all [sourceFor, Pointer.base]
    · obtain ⟨cb, hcb, hsrc⟩ := ih hr
      cases body with
      | delta segment leaves base =>
        obtain ⟨-, ops, cb', hseg, hcb', happ⟩ := hbody
        obtain rfl : base = b := by simpa [Pointer.base] using hb
        obtain rfl := hinj (hcb.trans hcb'.symm)
        simpa [sourceFor, hseg, hsrc, happ] using hsize.symm
      | inline => simp [Pointer.base] at hb
      | whole => simp [Pointer.base] at hb

theorem verifyLeaves_of_data (hd : DataOk hash s h p) : verifyLeaves s h p = true := by
  obtain ⟨c, -, -, hbody⟩ := hd
  obtain ⟨size, body⟩ := p
  cases body <;> simp_all [verifyLeaves]

theorem Inv.read_ok (hinj : Function.Injective hash) (hi : Inv hash cfg s) (hh : h ∈ s.idx) :
    ∃ c, hash c = h ∧ read hash cfg s h = .ok c := by
  unfold read
  split_ifs with he
  · exact ⟨[], he.symm, rfl⟩
  obtain ⟨l, hc, hl⟩ := hi.chains h hh
  obtain ⟨ch, hch, -⟩ := chainFrom_eq hc hl
  obtain ⟨c, hc', hsrc⟩ := sourceFor_chain hinj hi.data hch
  obtain ⟨p, hp, hcase⟩ := chainFrom_ok hch
  obtain ⟨rest, rfl⟩ : ∃ rest, ch = (h, p) :: rest := by
    rcases hcase with ⟨-, rfl⟩ | ⟨_, _, rest, -, -, -, rfl⟩
    · exact ⟨[], rfl⟩
    · exact ⟨rest, rfl⟩
  exact ⟨c, hc', by simp [resolveLocked, hch, hsrc, verifyLeaves_of_data (hi.data h p hp), hc']⟩

/-- the pointers stay and the segments they name; what is under construction was before, or has a new name -/
theorem Inv.frame (hi : Inv hash cfg s) (hidx : ∀ h, s'.idx.lookup h = s.idx.lookup h) (hnext : s.next ≤ s'.next)
    (hsegs : ∀ h p, s.idx.lookup h = some p → ∀ n ∈ p.names, s'.segs n = s.segs n)
    (hup : s'.uploads.Nodup ∧ ∀ n ∈ s'.uploads, n < s'.next)
    (hnew : ∀ n ∈ s'.uploads, n ∈ s.uploads ∨ s.next ≤ n) : Inv hash cfg s' := by
  have hptr : s'.ptr = s.ptr := by funext h; simp [Store.ptr, hidx]
  refine ⟨?_, ?_, ?_, ?_, hup⟩
  · intro h p hp
    rw [hidx] at hp
    exact (hi.data h p hp).congr (hsegs h p hp)
  · intro h hh
    rw [hptr]
    exact hi.chains h (AList.lookup_isSome.1 (hidx h ▸ AList.lookup_isSome.2 hh))
  · intro h p h' p' hp hp'
    rw [hidx] at hp hp'
    exact hi.own h p h' p' hp hp'
  · intro h p hp
    rw [hidx] at hp
    refine ⟨(hi.names h p hp).1, fun n hn => ?_⟩
    obtain ⟨hlt, hnot⟩ := (hi.names h p hp).2 n hn
    refine ⟨hlt.trans_le hnext, fun hu => ?_⟩
    rcases hnew n hu with h' | h'
    · exact hnot h'
    · exact absurd hlt (not_lt.2 h')

/-- nothing new is under construction -/
theorem Inv.congr (hi : Inv hash cfg s) (hidx : ∀ h, s'.idx.lookup h = s.idx.lookup h) (hnext : s.next ≤ s'.next)
    (hsegs : ∀ h p, s.idx.lookup h = some p → ∀ n ∈ p.names, s'.segs n = s.segs n) (hup : s'.uploads.Sublist s.uploads) :
    Inv hash cfg s' :=
  hi.frame hidx hnext hsegs ⟨hi.uploads.1.sublist hup, fun n hn => (hi.uploads.2 n (hup.subset hn)).trans_le hnext⟩
    fun _ hn => .inl (hup.subset hn)

/-- segments under names handed out just now are under construction -/
theorem Inv.start (hi : Inv hash cfg s) (new : List Name) (hidx : ∀ h, s'.idx.lookup h = s.idx.lookup h)
    (hnext : s.next ≤ s'.next) (hsegs : s'.segs = s.segs) (hup : s'.uploads.Perm (new ++ s.uploads)) (hnodup : new.Nodup)
    (hnew : ∀ n ∈ new, s.next ≤ n ∧ n < s'.next) : Inv hash cfg s' := by
  have hmem : ∀ n ∈ s'.uploads, n ∈ new ∨ n ∈ s.uploads := fun n hn => mem_append.1 (hup.mem_iff.1 hn)
  refine hi.frame hidx hnext (fun _ _ _ _ _ => congrFun hsegs _) ⟨hup.nodup_iff.2 (hnodup.append hi.uploads.1 ?_), ?_⟩
    fun n hn => (hmem n hn).symm.imp_right fun h => (hnew n h).1
  · exact fun n hn hu => absurd (hi.uploads.2 n hu) (not_lt.2 (hnew n hn).1)
  · exact fun n hn => (hmem n hn).elim (fun h => (hnew n h).2) fun h => (hi.uploads.2 n h).trans_le hnext

theorem ptr_insert (hidx : s'.idx = s.idx.insert h p) : s'.ptr = update s.ptr h (some p.base) := by
  funext x
  by_cases hx : x = h
  · subst hx; simp [Store.ptr, hidx]
  · simp [Store.ptr, hidx, hx]

theorem lookup_of_insert {o : H} {p' q : Pointer H} (hidx : s'.idx = s.idx.insert o p') (hq : s'.idx.lookup h = some q) :
    (h = o ∧ q = p') ∨ (h ≠ o ∧ s.idx.lookup h = some q) := by
  rw [hidx] at hq
  by_cases hh : h = o
  · subst hh; rw [AList.lookup_insert] at hq; exact .inl ⟨rfl, (Option.some.inj hq).symm⟩
  · rw [AList.lookup_insert_ne hh] at hq; exact .inr ⟨hh, hq⟩

/-- **A pointer is set.** Its segments are its own, nobody else's change, and every chain stays within the reader's bound. -/
theorem Inv.insert (hi : Inv hash cfg s) {o : H} {p' : Pointer H} (hidx : s'.idx = s.idx.insert o p') (hnext : s.next ≤ s'.next)
    (hup : s'.uploads.Sublist s.uploads)
    (hsegs : ∀ h q, h ≠ o → s.idx.lookup h = some q → ∀ m ∈ q.names, s'.segs m = s.segs m) (hdata : DataOk hash s' o p')
    (hnodup : p'.names.Nodup)
    (hnames : ∀ n ∈ p'.names, n < s'.next ∧ n ∉ s'.uploads ∧ ∀ h q, h ≠ o → s.idx.lookup h = some q → n ∉ q.names)
    (hchains : ∀ h ∈ s'.idx, ∃ l, Chain s'.ptr h l ∧ l.length ≤ cfg.deltaMaxDepth + 2) : Inv hash cfg s' := by
  refine ⟨fun h q hq => ?_, hchains, fun h q h' q' hq hq' m hm hm' => ?_, fun h q hq => ?_, ?_⟩
  · obtain ⟨rfl, rfl⟩ | ⟨hh, hq⟩ := lookup_of_insert hidx hq
    · exact hdata
    · exact (hi.data h q hq).congr (hsegs h q hh hq)
  · obtain ⟨rfl, rfl⟩ | ⟨hh, hq⟩ := lookup_of_insert hidx hq <;> obtain ⟨rfl, rfl⟩ | ⟨hh', hq'⟩ := lookup_of_insert hidx hq'
    · rfl
    · exact absurd hm' ((hnames m hm).2.2 h' q' hh' hq')
    · exact absurd hm ((hnames m hm').2.2 h q hh hq)
    · exact hi.own h q h' q' hq hq' m hm hm'
  · obtain ⟨rfl, rfl⟩ | ⟨-, hq⟩ := lookup_of_insert hidx hq
    · exact ⟨hnodup, fun n hn => ⟨(hnames n hn).1, (hnames n hn).2.1⟩⟩
    · obtain ⟨hnd, hlt⟩ := hi.names h q hq
      exact ⟨hnd, fun n hn => ⟨(hlt n hn).1.trans_le hnext, fun hu => (hlt n hn).2 (hup.subset hu)⟩⟩
  · exact ⟨hi.uploads.1.sublist hup, fun n hn => (hi.uploads.2 n (hup.subset hn)).trans_le hnext⟩

/-- **Swap.** `o` moves from segment `seg` to the finished segment `n`, keeping its leaves. Chains that pass through `o`
continue along its new chain, and must stay within the reader's bound. -/
theorem Inv.swap (hi : Inv hash cfg s) {o : H} (p' : Pointer H) (l' : List H) {seg lv n : Name}
    (hp : s.idx.lookup o = some p) (hpn : p.names = [seg, lv]) (hpn' : p'.names = [n, lv]) (hn : n ∈ s.uploads)
    (hidx : s'.idx = s.idx.insert o p') (hnext : s'.next = s.next)
    (hsegs : ∀ m, m ≠ seg → m ∉ s.uploads → s'.segs m = s.segs m) (hup : s'.uploads.Sublist s.uploads)
    (hn' : n ∉ s'.uploads) (hdata : DataOk hash s' o p') (hl' : Chain s'.ptr o l')
    (hlen : ∀ h l₁ l₂, Chain s.ptr h (l₁ ++ l₂) → Chain s.ptr o l₂ → o ∉ l₁ → l₁.length + l'.length ≤ cfg.deltaMaxDepth + 2) :
    Inv hash cfg s' := by
  have hlv : lv ∈ p.names := by simp [hpn]
  obtain ⟨hlt, hnu⟩ := (hi.names o p hp).2 lv hlv
  have hown : ∀ h q, h ≠ o → s.idx.lookup h = some q → ∀ m ∈ q.names, m ≠ seg ∧ m ≠ lv := by
    intro h q hh hq m hm
    refine ⟨fun he => hh (hi.own h q o p hq hp m hm (by simp [hpn, he])), fun he => ?_⟩
    exact hh (hi.own h q o p hq hp m hm (he ▸ hlv))
  have hptr := ptr_insert hidx
  refine hi.insert hidx hnext.ge hup
    (fun h q hh hq m hm => hsegs m (hown h q hh hq m hm).1 ((hi.names h q hq).2 m hm).2) hdata ?_ ?_ fun h hh => ?_
  · have hne : n ≠ lv := by rintro rfl; exact hnu hn
    rw [hpn']
    simpa using hne
  · intro m hm
    rw [hpn'] at hm
    rcases mem_pair.1 hm with rfl | rfl
    · exact ⟨hnext ▸ hi.uploads.2 _ hn, hn', fun h q _ hq hm => ((hi.names h q hq).2 _ hm).2 hn⟩
    · exact ⟨hnext ▸ hlt, fun hu => hnu (hup.subset hu), fun h q hh hq hm => (hown h q hh hq _ hm).2 rfl⟩
  · have hh' : h ∈ s.idx := by
      rw [hidx, AList.mem_insert] at hh
      exact hh.elim (fun he => he ▸ AList.lookup_isSome.1 (by simp [hp])) id
    obtain ⟨l, hc, hl⟩ := hi.chains h hh'
    by_cases ho : o ∈ l
    · obtain ⟨l₁, l₂, rfl, hnl, hco⟩ := hc.split ho
      refine ⟨l₁ ++ l', hc.redirect hco (fun x hx => ?_) hl', by simpa using hlen h l₁ l₂ hc hco hnl⟩
      rw [hptr, update_of_ne (by rintro rfl; exact hnl hx)]
    · refine ⟨l, hc.congr fun x hx => ?_, hl⟩
      rw [hptr, update_of_ne (by rintro rfl; exact ho hx)]

/-! ## Steps that move no pointer -/

/-- jobs were abandoned: the pointers stay, and the segments except the jobs' own -/
structure Dropped (s s' : Store H) : Prop where
  idx : s'.idx = s.idx
  next : s'.next = s.next
  uploads : s'.uploads.Sublist s.uploads
  segs : ∀ m, s'.segs m = s.segs m ∨ (s'.segs m = none ∧ m ∈ s.uploads)

section

omit [DecidableEq H]

theorem Dropped.refl (s : Store H) : Dropped s s := ⟨rfl, rfl, Sublist.refl _, fun _ => .inl rfl⟩

theorem Dropped.trans {s'' : Store H} (h : Dropped s s') (h' : Dropped s' s'') : Dropped s s'' := by
  refine ⟨h'.idx.trans h.idx, h'.next.trans h.next, h'.uploads.trans h.uploads, fun m => ?_⟩
  rcases h'.segs m with hm | ⟨hm, hup⟩
  · rw [hm]
    exact h.segs m
  · exact .inr ⟨hm, h.uploads.subset hup⟩

theorem Dropped.delete {m : Name} (h : Dropped s s') (hm : m ∈ s.uploads) : Dropped s (s'.deleteSegment m) := by
  refine ⟨h.idx, h.next, h.uploads, fun k => ?_⟩
  by_cases hk : k = m
  · subst hk
    exact .inr ⟨update_self _ _ _, hm⟩
  · have hsame : (s'.deleteSegment m).segs k = s'.segs k := update_of_ne hk _ _
    rw [hsame]
    exact h.segs k

theorem dropJobLocked_dropped (s : Store H) : Dropped s (dropJobLocked s) := by
  unfold dropJobLocked
  split
  · exact Dropped.refl s
  · rename_i j hj
    have hdrop : Dropped s { s with job := none } :=
      ⟨rfl, rfl, List.Sublist.append (nil_sublist _) (Sublist.refl _), fun _ => .inl rfl⟩
    exact (hdrop.delete (by simp [Store.uploads, hj])).delete (by simp [Store.uploads, hj])

theorem dropInflateLocked_dropped (s : Store H) : Dropped s (dropInflateLocked s) := by
  unfold dropInflateLocked
  split
  · exact Dropped.refl s
  · rename_i j hj
    have hdrop : Dropped s { s with inflate := none } :=
      ⟨rfl, rfl, List.Sublist.append (Sublist.refl _) (nil_sublist _), fun _ => .inl rfl⟩
    exact hdrop.delete (by simp [Store.uploads, hj])

theorem dropDeadJobs_dropped (s : Store H) (lv : H → Bool) : Dropped s (dropDeadJobs s lv) := by
  have hjob : Dropped s (match s.job with | some j => if lv j.old && lv j.base then s else dropJobLocked s | none => s) := by
    split
    · split
      · exact Dropped.refl s
      · exact dropJobLocked_dropped s
    · exact Dropped.refl s
  have hinflate : ∀ t : Store H,
      Dropped t (match t.inflate with | some j => if lv j.h then t else dropInflateLocked t | none => t) := by
    intro t
    split
    · split
      · exact Dropped.refl t
      · exact dropInflateLocked_dropped t
    · exact Dropped.refl t
  exact hjob.trans (hinflate _)

end

theorem Inv.dropped (hi : Inv hash cfg s) (hd : Dropped s s') : Inv hash cfg s' := by
  refine hi.congr (fun _ => by rw [hd.idx]) hd.next.ge (fun h p hp n hn => ?_) hd.uploads
  exact (hd.segs n).resolve_right fun hgone => ((hi.names h p hp).2 n hn).2 hgone.2

theorem Inv.dropJob (hi : Inv hash cfg s) : Inv hash cfg (dropJobLocked s) := hi.dropped (dropJobLocked_dropped s)

/-! ## Swapping in a delta -/

theorem chainFrom_congr (hidx : s'.idx = s.idx) (fuel : ℕ) (h : H) : chainFrom s' fuel h = chainFrom s fuel h := by
  induction fuel generalizing h with
  | zero => unfold chainFrom; rw [hidx]
  | succ fuel ih => unfold chainFrom; simp only [hidx, ih]

/-- the nodes `resolveLocked` visits from `h`, when it succeeds -/
def chainOf (cfg : Config) (s : Store H) (h : H) : Option (List H) :=
  match resolveLocked cfg s h with
  | .ok ch => some (ch.map Prod.fst)
  | .error _ => none

/-- re-basing `old` on `base` keeps every chain readable: `old` is not on the base's chain, and no blob above `old` ends
up further from a whole copy than the reader follows -/
def rebasable (cfg : Config) (s : Store H) (old base : H) : Bool :=
  (chainOf cfg s base).all fun lb => !lb.contains old && s.idx.keys.all fun h =>
    (chainOf cfg s h).all fun lh =>
      !lh.contains old || decide (lh.idxOf old + 1 + lb.length ≤ cfg.deltaMaxDepth + 2)

theorem rebasable_congr (hidx : s'.idx = s.idx) (old base : H) :
    rebasable cfg s' old base = rebasable cfg s old base := by
  simp only [rebasable, chainOf, resolveLocked, chainFrom_congr hidx, hidx]

theorem chainOf_of_chain (hc : Chain s.ptr h l) (hl : l.length ≤ cfg.deltaMaxDepth + 2) : chainOf cfg s h = some l := by
  obtain ⟨ch, hch, rfl⟩ := chainFrom_eq hc hl
  simp [chainOf, resolveLocked, hch]

/-- what `rebasable` says of the chains themselves -/
theorem rebasable_chains (hi : Inv hash cfg s) {old base : H} {lb : List H} (hr : rebasable cfg s old base = true)
    (hb : chainOf cfg s base = some lb) :
    old ∉ lb ∧ ∀ h l₁ l₂, Chain s.ptr h (l₁ ++ l₂) → Chain s.ptr old l₂ → old ∉ l₁ →
      l₁.length + 1 + lb.length ≤ cfg.deltaMaxDepth + 2 := by
  simp only [rebasable, hb, Option.all_some, Bool.and_eq_true, Bool.not_eq_true', contains_eq_mem,
    decide_eq_false_iff_not, all_eq_true] at hr
  refine ⟨hr.1, fun h l₁ l₂ hc hco hn => ?_⟩
  have hh : h ∈ s.idx := ptr_ne_none.1 (hc.present hc.head_mem)
  obtain ⟨l, hc', hl⟩ := hi.chains h hh
  obtain rfl := hc'.unique hc
  have := hr.2 h (AList.mem_keys.1 hh)
  simp only [chainOf_of_chain hc hl, Option.all_some, Bool.or_eq_true, Bool.not_eq_true', decide_eq_false_iff_not,
    decide_eq_true_eq] at this
  have hidx : (l₁ ++ l₂).idxOf old = l₁.length := by
    rw [idxOf_append_of_notMem hn]
    cases hco <;> simp
  rw [hidx] at this
  exact this.resolve_left fun hnot => hnot (mem_append_right _ hco.head_mem)

theorem read_hash (hr : read hash cfg s h = .ok c) : hash c = h := by
  unfold read at hr
  split_ifs at hr with he
  · obtain rfl := Except.ok.inj hr; exact he.symm
  · split at hr
    · cases hr
    · cases hr
    · split at hr
      · cases hr
      · split_ifs at hr with hv
        cases hr
        simpa using (Bool.and_eq_true_iff.1 hv).2

/-- sealing the delta of the job: only segments under construction change -/
theorem Inv.seal (hi : Inv hash cfg s) (hj : s.job = some j) (ops : List DeltaOp) :
    Inv hash cfg ((s.writeSegment j.seg (.frames ops)).deleteSegment j.framesSeg) := by
  refine hi.congr (fun _ => rfl) le_rfl (fun h p hp n hn => ?_) (Sublist.refl _)
  have hnot := ((hi.names h p hp).2 n hn).2
  have hmem : n ≠ j.seg ∧ n ≠ j.framesSeg := by
    constructor <;> rintro rfl <;> exact hnot (by simp [Store.uploads, hj])
  simp [Store.deleteSegment, Store.writeSegment, hmem.1, hmem.2]

section

variable (hinj : Function.Injective hash)
include hinj

theorem Inv.finish (hi : Inv hash cfg s) (hj : s.job = some j) {ops : List DeltaOp}
    (happ : applyOps cBase ops = some c) (hcb : hash cBase = j.base) (hc : hash c = j.old)
    (hr : rebasable cfg s j.old j.base = true) :
    Inv hash cfg (finishJob cfg ((s.writeSegment j.seg (.frames ops)).deleteSegment j.framesSeg) j).1 := by
  have ht := hi.seal hj ops
  generalize htd : (s.writeSegment j.seg (.frames ops)).deleteSegment j.framesSeg = t at ht ⊢
  have hidx : t.idx = s.idx := by rw [← htd]; rfl
  have hup : t.uploads = [j.seg, j.framesSeg] ++ (match t.inflate with | some j => [j.seg] | none => []) := by
    rw [← htd]; simp [Store.uploads, Store.deleteSegment, Store.writeSegment, hj]
  have hne : j.seg ≠ j.framesSeg := by
    have := ht.uploads.1
    simp_all
  have hframes : t.segs j.seg = some (.frames ops) := by
    rw [← htd]; simp [Store.deleteSegment, Store.writeSegment, hne]
  unfold finishJob
  split
  swap
  · exact ht.dropJob
  rename_i size segment leaves chain hold hbase
  split_ifs with hcond
  swap
  · exact ht.dropJob
  -- the swap: `j.old` moves to `j.seg`, over the base's chain
  obtain ⟨hlb, hlen⟩ := rebasable_chains ht (by rw [rebasable_congr hidx]; exact hr)
    (by simp [chainOf, hbase] : chainOf cfg t j.base = some (chain.map Prod.fst))
  obtain ⟨hchain, -⟩ := chain_of_chainFrom hbase
  obtain ⟨hnd, hfresh⟩ := ht.names _ _ hold
  have hseg : segment ∉ t.uploads := (hfresh segment (by simp [Pointer.names])).2
  have hsl : segment ≠ leaves := by simpa [Pointer.names] using hnd
  have hjs : j.seg ≠ segment := by rintro h; exact hseg (h ▸ by simp [hup])
  set t' := ({ t with job := none }.setPointer j.old ⟨size, .delta j.seg leaves j.base⟩).deleteSegment segment with ht'
  have hptr : t'.ptr = update t.ptr j.old (some (some j.base)) :=
    ptr_insert (rfl : t'.idx = t.idx.insert j.old ⟨size, .delta j.seg leaves j.base⟩)
  refine ht.swap ⟨size, .delta j.seg leaves j.base⟩ (j.old :: chain.map Prod.fst) hold rfl rfl
    (by simp [hup]) rfl rfl (fun m hm _ => by simp [ht', Store.deleteSegment, Store.setPointer, hm]) ?_ ?_ ?_ ?_ ?_
  · rw [hup]; simp [ht', Store.uploads, Store.deleteSegment, Store.setPointer]
  · have := ht.uploads.1
    simp_all [Store.uploads, Store.deleteSegment, Store.setPointer]
  · obtain ⟨c', hc', hsize, -, hlv⟩ := ht.data _ _ hold
    obtain rfl := hinj (hc'.trans hc.symm)
    refine ⟨c', hc', hsize, ?_, ops, cBase, ?_, hcb, happ⟩
    · simpa [ht', Store.deleteSegment, Store.setPointer, hsl.symm] using hlv
    · simpa [ht', Store.deleteSegment, Store.setPointer, hjs] using hframes
  · refine .link (b := j.base) (by simp [hptr]) (hchain.congr fun x hx => ?_)
    rw [hptr, update_of_ne (by rintro rfl; exact hlb hx)]
  · intro h l₁ l₂ h1 h2 h3
    have := hlen h l₁ l₂ h1 h2 h3
    simp only [length_cons]
    omega

theorem Inv.runEncoded (hi : Inv hash cfg s) (hj : s.job = some j)
    (hcb : hash cBase = j.base) (ops : List DeltaOp) (hr : rebasable cfg s j.old j.base = true) :
    Inv hash cfg (runEncoded hash cfg s j cBase ops).1 := by
  unfold AttachStore.runEncoded
  split
  · exact hi.dropJob
  · rename_i c happ
    split_ifs with hc
    · exact hi.finish hinj hj happ hcb hc hr
    · exact hi.dropJob

theorem Inv.runJob (hi : Inv hash cfg s) (hj : s.job = some j)
    (hcb : hash cBase = j.base) (w : Work) (hr : ∀ ops, w = .encoded ops → rebasable cfg s j.old j.base = true) :
    Inv hash cfg (runJob hash cfg s j cBase w).1 := by
  cases w with
  | pending => exact hi
  | tooBig => exact hi.dropJob
  | encoded ops => exact hi.runEncoded hinj hj hcb ops (hr ops rfl)

end

theorem Inv.startJob (hi : Inv hash cfg s) (hj : s.job = none) (old base : H) (oldSeg : Name) :
    Inv hash cfg (startJob s old base oldSeg) := by
  refine hi.start [s.next, s.next + 1] (fun _ => rfl) (Nat.le_add_right _ 2) rfl (.of_eq ?_) (by simp) ?_
  · simp [Store.uploads, AttachStore.startJob, newJob, hj]
  · simp [AttachStore.startJob]

/-- a job that goes on is for the pair of the step -/
theorem keepJob_spec (hi : Inv hash cfg s) (old base : H) (oldSeg : Option Name) (baseLarge : Bool) :
    Inv hash cfg (keepJob s old base oldSeg baseLarge) ∧ (keepJob s old base oldSeg baseLarge).idx = s.idx ∧
      ∀ j, (keepJob s old base oldSeg baseLarge).job = some j → j.old = old ∧ j.base = base := by
  unfold keepJob
  split
  · rename_i hj; exact ⟨hi, rfl, fun j h => by simp [hj] at h⟩
  · rename_i j hj
    split_ifs with hc
    · refine ⟨hi, rfl, fun j' h => ?_⟩
      obtain rfl : j = j' := by simpa [hj] using h
      simp only [Bool.and_eq_true, decide_eq_true_eq] at hc
      exact ⟨hc.1.1.1, hc.1.1.2⟩
    · refine ⟨hi.dropJob, (dropJobLocked_dropped s).idx, fun j' h => ?_⟩
      simp [dropJobLocked, hj, Store.deleteSegment] at h

theorem Inv.deltaStep (hinj : Function.Injective hash) (hi : Inv hash cfg s) (old base : H) (w : Work)
    (hr : ∀ ops, w = .encoded ops → rebasable cfg s old base = true) :
    Inv hash cfg (deltaStep hash cfg s old base w).1 := by
  unfold AttachStore.deltaStep
  split_ifs
  · exact hi
  dsimp only
  obtain ⟨hk, hidx, hpair⟩ := keepJob_spec hi old base ((s.idx.lookup old).bind Pointer.segment)
    (resolveLocked cfg s base).isOk
  generalize keepJob s old base ((s.idx.lookup old).bind Pointer.segment) (resolveLocked cfg s base).isOk = t at hk hidx hpair ⊢
  split
  swap
  · exact hk
  split_ifs
  · exact hk
  split
  swap
  · exact hk
  rename_i hbase
  have hreb : ∀ ops, w = .encoded ops → rebasable cfg t old base = true := fun ops h => by
    rw [rebasable_congr hidx]; exact hr ops h
  split
  · rename_i j hj
    obtain ⟨rfl, rfl⟩ := hpair j hj
    exact hk.runJob hinj hj (read_hash hbase) w hreb
  · rename_i hj
    have hst : ∀ n, (AttachStore.startJob t old base n).idx = t.idx := fun _ => rfl
    exact (hk.startJob hj _ _ _).runJob hinj rfl (read_hash hbase) w fun ops h =>
      (rebasable_congr (hst _) old base).trans (hreb ops h)

/-! ## Uploads, inflating, collecting -/

section

variable (hi : Inv hash cfg s)
include hi

/-- a new blob, stored inline or under names no pointer and no job has: no chain passes through it -/
theorem Inv.insertOwned (hh : h ∉ s.idx) (hb : p.base = none) (hidx : s'.idx = s.idx.insert h p)
    (hnext : s.next ≤ s'.next) (hsegs : ∀ x q, s.idx.lookup x = some q → ∀ n ∈ q.names, s'.segs n = s.segs n)
    (hup : s'.uploads = s.uploads) (hdata : DataOk hash s' h p) (hnodup : p.names.Nodup)
    (hnames : ∀ n ∈ p.names, n < s'.next ∧ n ∉ s.uploads ∧ ∀ x q, s.idx.lookup x = some q → n ∉ q.names) :
    Inv hash cfg s' := by
  have hptr := ptr_insert hidx
  refine hi.insert hidx hnext (hup ▸ Sublist.refl _) (fun x q _ => hsegs x q) hdata hnodup
    (fun n hn => ⟨(hnames n hn).1, hup ▸ (hnames n hn).2.1, fun x q _ => (hnames n hn).2.2 x q⟩) fun x hx => ?_
  rw [hidx, AList.mem_insert] at hx
  rcases hx with rfl | hx
  · exact ⟨[x], .root (by simp [hptr, hb]), by simp⟩
  · obtain ⟨l, hc, hl⟩ := hi.chains x hx
    refine ⟨l, hc.congr fun y hy => ?_, hl⟩
    rw [hptr, update_of_ne (by rintro rfl; exact hh (ptr_ne_none.1 (hc.present hy)))]

/-- the same under names handed out just now -/
theorem Inv.insertNew (hh : h ∉ s.idx) (hb : p.base = none) (hidx : s'.idx = s.idx.insert h p)
    (hnext : s.next ≤ s'.next) (hsegs : ∀ n < s.next, s'.segs n = s.segs n) (hup : s'.uploads = s.uploads)
    (hdata : DataOk hash s' h p) (hnames : p.names.Nodup ∧ ∀ n ∈ p.names, s.next ≤ n ∧ n < s'.next) : Inv hash cfg s' := by
  refine hi.insertOwned hh hb hidx hnext (fun x q hq n hn => hsegs n ((hi.names x q hq).2 n hn).1) hup hdata hnames.1 ?_
  intro n hn
  obtain ⟨hle, hlt⟩ := hnames.2 n hn
  refine ⟨hlt, fun hu => ?_, fun x q hq hnq => ?_⟩
  · exact absurd (hi.uploads.2 n hu) (not_lt.2 hle)
  · exact absurd ((hi.names x q hq).2 n hnq).1 (not_lt.2 hle)

theorem Inv.upload (c : Bytes) : Inv hash cfg (upload hash cfg s c) := by
  unfold AttachStore.upload
  dsimp only
  split_ifs with h1 h2 h3 h4
  · exact hi
  · exact hi
  · exact hi.insertNew h3 rfl rfl le_rfl (fun n _ => rfl) rfl ⟨c, rfl, rfl, rfl⟩ ⟨by simp [Pointer.names], by simp [Pointer.names]⟩
  · exact hi.congr (fun _ => rfl) (Nat.le_add_right _ 2) (fun _ _ _ _ _ => rfl) (Sublist.refl _)
  · refine hi.insertNew h4 rfl rfl (Nat.le_add_right _ 2) (fun n hn => ?_) rfl
      ⟨c, rfl, rfl, by simp [Store.setPointer, Store.writeSegment], by simp [Store.setPointer, Store.writeSegment]⟩
      ⟨by simp [Pointer.names], fun n hn => ?_⟩
    · have hne : n ≠ s.next ∧ n ≠ s.next + 1 := ⟨hn.ne, (hn.trans (Nat.lt_succ_self _)).ne⟩
      simp [Store.setPointer, Store.writeSegment, hne.1, hne.2]
    · rcases mem_pair.1 hn with rfl | rfl
      · exact ⟨le_rfl, Nat.lt_add_of_pos_right (by decide)⟩
      · exact ⟨Nat.le_succ _, Nat.lt_succ_self _⟩

theorem keepInflate_spec (h : H) (deltaSeg : Option Name) :
    Inv hash cfg (keepInflate s h deltaSeg) ∧ (keepInflate s h deltaSeg).idx = s.idx := by
  unfold keepInflate
  split
  · exact ⟨hi, rfl⟩
  · split_ifs
    · exact ⟨hi, rfl⟩
    · exact ⟨hi.dropped (dropInflateLocked_dropped s), (dropInflateLocked_dropped s).idx⟩

theorem Inv.startInflate (h : H) (deltaSeg : Name) :
    ∃ t, (if s.inflate.isNone then { s with inflate := some ⟨h, deltaSeg, s.next⟩, next := s.next + 1 } else s) = t ∧
      Inv hash cfg t ∧ t.idx = s.idx := by
  split_ifs with hj
  · refine ⟨_, rfl, ?_, rfl⟩
    refine hi.start [s.next] (fun _ => rfl) (Nat.le_succ _) rfl (.trans (.of_eq ?_) perm_append_comm) (by simp) (by simp)
    simp [Store.uploads, Option.isNone_iff_eq_none.1 hj]
  · exact ⟨s, rfl, hi, rfl⟩

end

/-- the finished copy takes the delta's place: every chain through `h` now ends at `h` -/
theorem Inv.finishInflate (hinj : Function.Injective hash) (hi : Inv hash cfg s) {j : InflateJob H}
    (hj : s.inflate = some j) {size : ℕ} {segment leaves : Name} {base : H}
    (hp : s.idx.lookup h = some ⟨size, .delta segment leaves base⟩) (hc : hash c = h) :
    Inv hash cfg ((({ s with inflate := none }.writeSegment j.seg (.whole c)).setPointer h
      ⟨size, .whole j.seg leaves⟩).deleteSegment segment) := by
  set t := ((({ s with inflate := none }.writeSegment j.seg (.whole c)).setPointer h
    ⟨size, .whole j.seg leaves⟩).deleteSegment segment) with ht
  have hup : s.uploads = t.uploads ++ [j.seg] := by
    simp [ht, Store.uploads, Store.deleteSegment, Store.setPointer, Store.writeSegment, hj]
  have hju : j.seg ∈ s.uploads := by simp [hup]
  obtain ⟨hnd, hfresh⟩ := hi.names _ _ hp
  have hsl : segment ≠ leaves := by simpa [Pointer.names] using hnd
  have hjs : j.seg ≠ segment := by
    intro he; exact (hfresh segment (by simp [Pointer.names])).2 (he ▸ hju)
  have hjl : leaves ≠ j.seg := by
    intro he; exact (hfresh leaves (by simp [Pointer.names])).2 (he ▸ hju)
  refine hi.swap ⟨size, .whole j.seg leaves⟩ [h] hp rfl rfl hju rfl rfl (fun m hm hmu => ?_) ?_ ?_ ?_ ?_ ?_
  · have : m ≠ j.seg := by rintro rfl; exact hmu hju
    simp [ht, Store.deleteSegment, Store.setPointer, Store.writeSegment, hm, this]
  · rw [hup]; exact sublist_append_left _ _
  · have := hi.uploads.1
    rw [hup, nodup_append] at this
    exact fun hm => this.2.2 _ hm _ (mem_singleton.2 rfl) rfl
  · obtain ⟨c', hc', hsize, hlv, -⟩ := hi.data _ _ hp
    obtain rfl := hinj (hc'.trans hc.symm)
    refine ⟨c', hc', hsize, ?_, ?_⟩
    · simp [ht, Store.deleteSegment, Store.setPointer, Store.writeSegment, hjs]
    · simpa [ht, Store.deleteSegment, Store.setPointer, Store.writeSegment, hsl.symm, hjl] using hlv
  · have hptr := ptr_insert (rfl : t.idx = s.idx.insert h ⟨size, .whole j.seg leaves⟩)
    exact .root (by simp [hptr, Pointer.base])
  · intro x l₁ l₂ hx hh _
    obtain ⟨l, hc', hl⟩ := hi.chains x (ptr_ne_none.1 (hx.present hx.head_mem))
    obtain rfl := hc'.unique hx
    have := length_pos_of_mem hh.head_mem
    simp only [length_append, length_singleton] at hl ⊢
    omega

theorem Inv.inflateStep (hinj : Function.Injective hash) (hi : Inv hash cfg s) (h : H) (done : Bool) :
    Inv hash cfg (inflateStep hash cfg s h done) := by
  unfold AttachStore.inflateStep
  dsimp only
  obtain ⟨hk, hidx⟩ := keepInflate_spec hi h ((s.idx.lookup h).bind Pointer.segment)
  generalize keepInflate s h ((s.idx.lookup h).bind Pointer.segment) = t at hk hidx ⊢
  split
  swap
  · exact hk
  rename_i size segment leaves base hp
  obtain ⟨u, hu, hstart, hidx'⟩ := hk.startInflate h segment
  rw [hu]
  split
  · rename_i j c hj hread
    split_ifs
    · exact hstart.finishInflate hinj hj (by rw [hidx', hidx]; exact hp) (read_hash hread)
    · exact hstart
  · exact hstart.dropped (dropInflateLocked_dropped _)

section Collect

variable {keep held : H → Bool}

variable {r r' : List H}

theorem live_mono (hr : ∀ x ∈ r, x ∈ r') (hl : live s keep held r h = true) : live s keep held r' h = true := by
  simp only [live, Bool.or_eq_true, contains_eq_mem, decide_eq_true_eq] at hl ⊢
  exact hl.imp_left (Or.imp_right (hr h))

/-- the base of every rescued delta is live -/
def RescueClosed (s : Store H) (keep held : H → Bool) (r : List H) (h : H) : Prop :=
  ∀ b, (s.idx.lookup h).bind Pointer.base = some b → live s keep held r b = true

/-- at a stored blob the walk goes on exactly when nothing keeps the blob yet -/
theorem rescue_succ {b : H} (hp : s.idx.lookup b = some p) (fuel : ℕ) (r : List H) :
    rescue s keep held (fuel + 1) r b =
      if live s keep held r b then r
      else match p.base with
        | none => b :: r
        | some b' => rescue s keep held fuel (b :: r) b' := by
  have hmem : b ∈ s.idx := AList.lookup_isSome.1 (by simp [hp])
  by_cases h1 : b ∈ r
  · simp [rescue, live, h1]
  by_cases h2 : keep b = true
  · simp [rescue, live, h2]
  by_cases h3 : held b = true
  · simp [rescue, live, h2, h3, hp, hmem]
  · simp [rescue, live, h2, h3, hp]

variable (keep held) in
theorem rescue_spec {b : H} (hb : Chain s.ptr b l) (hl : l.length ≤ fuel) (r : List H) :
    (∀ x ∈ r, x ∈ rescue s keep held fuel r b) ∧ live s keep held (rescue s keep held fuel r b) b = true ∧
      ∀ x ∈ rescue s keep held fuel r b, x ∈ r ∨ RescueClosed s keep held (rescue s keep held fuel r b) x := by
  induction hb generalizing fuel r with
  | @root b hr =>
    obtain ⟨p, hp, hbase⟩ := Option.map_eq_some_iff.1 hr
    obtain ⟨fuel, rfl⟩ : ∃ n, fuel = n + 1 := ⟨fuel - 1, by simp at hl; omega⟩
    rw [rescue_succ hp, hbase]
    split_ifs with h
    · exact ⟨fun x hx => hx, h, fun x hx => .inl hx⟩
    · refine ⟨fun x hx => .tail _ hx, by simp [live], fun x hx => ?_⟩
      rcases mem_cons.1 hx with rfl | hx
      · exact .inr fun b' hb' => by simp [hp, hbase] at hb'
      · exact .inl hx
  | @link b b' l hlk hc ih =>
    obtain ⟨p, hp, hbase⟩ := Option.map_eq_some_iff.1 hlk
    obtain ⟨fuel, rfl⟩ : ∃ n, fuel = n + 1 := ⟨fuel - 1, by simp at hl; omega⟩
    rw [rescue_succ hp, hbase]
    split_ifs with h
    · exact ⟨fun x hx => hx, h, fun x hx => .inl hx⟩
    · -- `b` itself becomes rescued, and the walk below makes its base live
      obtain ⟨i1, i2, i3⟩ := ih (by simpa using hl : l.length ≤ fuel) (b :: r)
      refine ⟨fun x hx => i1 x (.tail _ hx), by simp [live, i1 b mem_cons_self], fun x hx => ?_⟩
      rcases i3 x hx with hx' | hx'
      · rcases mem_cons.1 hx' with rfl | hx'
        · refine .inr fun y hy => ?_
          obtain rfl : b' = y := by simpa [hp, hbase] using hy
          exact i2
        · exact .inl hx'
      · exact .inr hx'

theorem rescueClosed_mono (hr : ∀ x ∈ r, x ∈ r') (hc : RescueClosed s keep held r h) :
    RescueClosed s keep held r' h := fun b hb => live_mono hr (hc b hb)

variable (keep held) in
/-- after the first pass of `Collect` every rescued, kept or held delta has a live base -/
theorem rescuedBy_closed (hi : Inv hash cfg s) (hs : List H) :
    (∀ x ∈ rescuedBy cfg s keep held hs, RescueClosed s keep held (rescuedBy cfg s keep held hs) x) ∧
      ∀ h ∈ hs, (keep h || held h) = true → RescueClosed s keep held (rescuedBy cfg s keep held hs) h := by
  -- over the blobs already visited; the last blob of the list is visited last
  induction hs using List.reverseRecOn with
  | nil => simp [rescuedBy]
  | append_singleton hs h ih =>
    obtain ⟨ih1, ih2⟩ := ih
    have heq : rescuedBy cfg s keep held (hs ++ [h]) = match (s.idx.lookup h).bind Pointer.base with
        | none => rescuedBy cfg s keep held hs
        | some b =>
          if keep h || held h then
            rescue s keep held (s.idx.keys.length + cfg.deltaMaxDepth + 2) (rescuedBy cfg s keep held hs) b
          else rescuedBy cfg s keep held hs := by
      simp [rescuedBy]
    rw [heq]
    cases hb : (s.idx.lookup h).bind Pointer.base with
    | none =>
      refine ⟨ih1, forall_mem_append.2 ⟨ih2, forall_mem_singleton.2 fun _ b hb' => ?_⟩⟩
      simp [hb] at hb'
    | some b =>
      split_ifs with hk
      · obtain ⟨p, hp, hbase⟩ := Option.bind_eq_some_iff.1 hb
        have hmem : h ∈ s.idx := AList.lookup_isSome.1 (by simp [hp])
        obtain ⟨l, hc, hl⟩ := hi.chains h hmem
        obtain ⟨lb, hcb, hlb⟩ : ∃ lb, Chain s.ptr b lb ∧ lb.length ≤ s.idx.keys.length + cfg.deltaMaxDepth + 2 := by
          cases hc with
          | root hr => rw [ptr_of_lookup hp, hbase] at hr; simp at hr
          | @link _ b' lb hlk hcb =>
            obtain rfl : b = b' := by simpa [ptr_of_lookup hp, hbase] using hlk
            exact ⟨lb, hcb, by simp at hl; omega⟩
        obtain ⟨h1, h2, h3⟩ := rescue_spec keep held hcb hlb (rescuedBy cfg s keep held hs)
        refine ⟨fun x hx => (h3 x hx).elim (fun hx' => rescueClosed_mono h1 (ih1 x hx')) id, forall_mem_append.2
          ⟨fun x hx hkx => rescueClosed_mono h1 (ih2 x hx hkx), forall_mem_singleton.2 fun _ b' hb' => ?_⟩⟩
        obtain rfl : b = b' := by simpa [hb] using hb'
        exact h2
      · exact ⟨ih1, forall_mem_append.2 ⟨ih2, forall_mem_singleton.2 fun hkx => absurd hkx hk⟩⟩

theorem lookup_foldl_erase {α : Type} {β : α → Type} [DecidableEq α] (m : AList β) (kept : α → Bool) (k : α) :
    ((m.keys.filter fun k => !kept k).foldl (fun m k => m.erase k) m).lookup k = if kept k then m.lookup k else none := by
  rw [Entries.lookup_eraseAll]
  by_cases hm : k ∈ m
  · cases hk : kept k <;> simp [hk, AList.mem_keys.1 hm]
  · simp [AList.lookup_eq_none.2 hm]

/-- what a collection does to the pointers and the segments -/
structure Swept (s s' : Store H) (lv : H → Bool) : Prop where
  next : s'.next = s.next
  uploads : s'.uploads.Sublist s.uploads
  lookup : ∀ h, s'.idx.lookup h = if lv h then s.idx.lookup h else none
  segs : ∀ m, s'.segs m = s.segs m ∨ s'.segs m = none
  named : ∀ h p, s'.idx.lookup h = some p → ∀ m ∈ p.names, m ∉ s.uploads → s'.segs m = s.segs m

theorem collect_swept (cfg : Config) (s : Store H) (keep held : H → Bool) :
    Swept s (collect cfg s keep held) (live s keep held (rescuedBy cfg s keep held s.idx.keys)) := by
  set lv := live s keep held (rescuedBy cfg s keep held s.idx.keys)
  have hdrop := dropDeadJobs_dropped s lv
  set s₁ := dropDeadJobs s lv
  have hcollect : collect cfg s keep held = { s₁ with
        idx := removePointers s₁.idx (s₁.idx.keys.filter fun h => !lv h)
        segs := fun m =>
          if m ∈ ((removePointers s₁.idx (s₁.idx.keys.filter fun h => !lv h)).entries.flatMap fun e => e.2.names) ||
            m ∈ s₁.uploads then s₁.segs m else none } := rfl
  rw [hcollect]
  refine ⟨hdrop.next, hdrop.uploads, fun h => ?_, fun m => ?_, fun h p hlook m hm hnot => ?_⟩
  · rw [removePointers, lookup_foldl_erase, hdrop.idx]
  · dsimp only
    split
    · exact (hdrop.segs m).imp_right And.left
    · exact .inr rfl
  · have href : m ∈ (removePointers s₁.idx (s₁.idx.keys.filter fun h => !lv h)).entries.flatMap fun e => e.2.names :=
      mem_flatMap.2 ⟨⟨h, p⟩, AList.mem_lookup_iff.1 hlook, hm⟩
    dsimp only
    rw [if_pos (by simp [href])]
    exact (hdrop.segs m).resolve_right fun hgone => hnot hgone.2

theorem Swept.old {lv : H → Bool} (hs : Swept s s' lv) (hp : s'.idx.lookup h = some p) :
    lv h = true ∧ s.idx.lookup h = some p := by
  rw [hs.lookup] at hp
  split_ifs at hp with hl
  exact ⟨hl, hp⟩

/-- **Collect.** Pointers are dropped only where nothing live stands on them, and their segments with them. -/
theorem Inv.swept (hi : Inv hash cfg s) {lv : H → Bool} (hs : Swept s s' lv)
    (hlv : ∀ h b, lv h = true → (s.idx.lookup h).bind Pointer.base = some b → lv b = true) : Inv hash cfg s' := by
  refine ⟨fun h p hp => ?_, fun h hh => ?_, fun h p h' p' hp hp' => hi.own h p h' p' (hs.old hp).2 (hs.old hp').2,
    fun h p hp => ?_, hi.uploads.1.sublist hs.uploads, fun n hn => hs.next ▸ hi.uploads.2 n (hs.uploads.subset hn)⟩
  · have hold := (hs.old hp).2
    exact (hi.data h p hold).congr fun n hn => hs.named h p hp n hn ((hi.names h p hold).2 n hn).2
  · obtain ⟨p, hp⟩ := Option.isSome_iff_exists.1 (AList.lookup_isSome.2 hh)
    obtain ⟨hl, hp'⟩ := hs.old hp
    obtain ⟨l, hc, hlen⟩ := hi.chains h (AList.lookup_isSome.1 (by simp [hp']))
    refine ⟨l, ?_, hlen⟩
    -- every node of the chain of a live blob is live
    have hall : ∀ x ∈ l, lv x = true := by
      clear hlen hp hp' hh
      induction hc with
      | root => intro x hx; rwa [mem_singleton.1 hx]
      | @link a b l hlk hc ih =>
        obtain ⟨q, hq, hb⟩ := Option.map_eq_some_iff.1 hlk
        exact forall_mem_cons.2 ⟨hl, ih (hlv a b hl (by simp [hq, hb]))⟩
    exact hc.congr fun x hx => by simp [Store.ptr, hs.lookup, hall x hx]
  · obtain ⟨hnd, hlt⟩ := hi.names h p (hs.old hp).2
    exact ⟨hnd, fun n hn => ⟨hs.next ▸ (hlt n hn).1, fun hu => (hlt n hn).2 (hs.uploads.subset hu)⟩⟩

theorem Inv.collect (hi : Inv hash cfg s) (keep held : H → Bool) : Inv hash cfg (collect cfg s keep held) := by
  obtain ⟨hc1, hc2⟩ := rescuedBy_closed keep held hi s.idx.keys
  refine hi.swept (collect_swept cfg s keep held) fun h b hl hb => ?_
  -- a live delta is kept, held or rescued, and each of the three keeps its base
  have hmem : h ∈ s.idx := by
    obtain ⟨p, hp, -⟩ := Option.bind_eq_some_iff.1 hb
    exact AList.lookup_isSome.1 (by simp [hp])
  simp only [live, Bool.or_eq_true, Bool.and_eq_true, contains_eq_mem, decide_eq_true_eq] at hl
  rcases hl with (hk | hr) | ⟨-, hh⟩
  · exact hc2 h (AList.mem_keys.1 hmem) (by simp [hk]) b hb
  · exact hc1 h hr b hb
  · exact hc2 h (AList.mem_keys.1 hmem) (by simp [hh]) b hb

end Collect

/-! ## Runs -/

theorem inv_init : Inv hash cfg (init : Store H) :=
  ⟨fun h p hp => by simp [init] at hp, fun h hh => by simp [init] at hh, fun h p h' p' hp => by simp [init] at hp,
    fun h p hp => by simp [init] at hp, by simp [init, Store.uploads]⟩

/-- the guard of a run: a completed delta respects the chains above its old version -/
def Rebases (cfg : Config) (s : Store H) : Op H → Prop
  | .deltaStep old base (.encoded _) => rebasable cfg s old base = true
  | _ => True

instance (cfg : Config) (s : Store H) (o : Op H) : Decidable (Rebases cfg s o) := by
  unfold Rebases; split <;> infer_instance

theorem inv_step (hinj : Function.Injective hash) (o : Op H) (ho : Rebases cfg s o) (hi : Inv hash cfg s) :
    Inv hash cfg (step hash cfg s o) := by
  cases o with
  | upload c => exact hi.upload c
  | deltaStep old base w =>
    refine hi.deltaStep hinj old base w fun ops hw => ?_
    subst hw; exact ho
  | inflateStep h done => exact hi.inflateStep hinj h done
  | collect keep held => exact hi.collect keep held

/-- **A stored attachment stays readable when swaps mind the chains.** In every run whose completed deltas are all
`rebasable`, every blob in the store reads back as the bytes its hash names, through a chain without repetition that the
reader follows to its end. -/
theorem stored_blob_readable (hinj : Function.Injective hash) (cfg : Config) (ops : List (Op H))
    (hops : Along (step hash cfg) (Rebases cfg) init ops) (h : H) (hh : h ∈ (run (step hash cfg) init ops).idx) :
    (∃ c, hash c = h ∧ read hash cfg (run (step hash cfg) init ops) h = .ok c) ∧
      ∃ l, chainOf cfg (run (step hash cfg) init ops) h = some l ∧ l.Nodup ∧ l.length ≤ cfg.deltaMaxDepth + 2 := by
  have hi : Inv hash cfg (run (step hash cfg) init ops) := run_of_step (fun _ => inv_step hinj) hops inv_init
  obtain ⟨l, hc, hl⟩ := hi.chains h hh
  exact ⟨hi.read_ok hinj hh, l, chainOf_of_chain hc hl, hc.nodup, hl⟩

/-- the `k`-th version of a 201 byte attachment: the last byte changes -/
def version (k : UInt8) : Bytes := List.replicate 200 0 ++ [k]

/-- the delta between any two versions -/
def versionDelta (k : UInt8) : List DeltaOp := [.copy 0 200, .literal [k]]

/-- blobs are named by their own bytes, segments are used from two bytes on, the depth is the default -/
def smallConfig : Config := { smallMaxBytes := 1 }

/-- store version `k` as a delta against version `m` -/
def storeAsDelta (k m : UInt8) : Op Bytes := .deltaStep (version k) (version m) (.encoded (versionDelta k))

/-- two versions, the first replaced by the second, a collection that keeps only the first -/
def replacedRun : List (Op Bytes) :=
  [.upload (version 1), .upload (version 2), storeAsDelta 1 2, .collect (fun h => h = version 1) fun _ => false]

theorem stored_blob_readable_replacedRun :
    version 1 ∈ (run (step id smallConfig) init replacedRun).idx ∧
      ∃ c, id c = version 1 ∧ read id smallConfig (run (step id smallConfig) init replacedRun) (version 1) = .ok c :=
  ⟨by decide +kernel,
    (stored_blob_readable Function.injective_id smallConfig replacedRun (by decide +kernel) _ (by decide +kernel)).1⟩

/-- **Two ways to lose a version.** Storing each of two versions as a delta against the other leaves a cycle and no whole
copy. With a depth of two, replacing four versions, oldest first, each as a delta against its successor, leaves the
oldest behind four deltas, one more than the reader follows, although every swap saw a base stored whole. -/
theorem rebased_blobs_unreadable :
    let cycle := run (step id smallConfig) init
      [.upload (version 1), .upload (version 2), storeAsDelta 1 2, storeAsDelta 2 1]
    let chained := run (step id { smallConfig with deltaMaxDepth := 2 }) init
      ([1, 2, 3, 4, 5].map (fun k => .upload (version k)) ++ [1, 2, 3, 4].map fun k => storeAsDelta k (k + 1))
    (version 1 ∈ cycle.idx ∧ version 2 ∈ cycle.idx ∧
      read id smallConfig cycle (version 1) = .error .tooDeep ∧ read id smallConfig cycle (version 2) = .error .tooDeep) ∧
    version 1 ∈ chained.idx ∧
      read id { smallConfig with deltaMaxDepth := 2 } chained (version 1) = .error .tooDeep := by
  decide +kernel

end Kdb.AttachStore
