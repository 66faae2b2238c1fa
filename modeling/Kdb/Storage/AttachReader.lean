/-
Reading an attachment (`storage/attachstore/reader.go`): `Open` resolves a blob's pointers to a source of bytes and checks
its leaves against the content hash; the reader checks each chunk against its leaf before it hands it out, and keeps the
last chunk in a buffer it uses again.

- `reader_bytes_right`: every byte a reader hands out is the byte at that offset of the content whose hash was opened,
  when the opened pointer is sound and the cached chunk intact.
- `reader_hands_out_wrong_bytes`: otherwise bytes are handed out that were refused, checked for another blob, or not
  checked.
A `Source` is any answer of storage to a read: it may fail, stop short, and change from one load to the next. So damaged
and adversarial data, base versions and delta instructions are all sources (`openDelta` is what parsing a delta yields).
Leaves are read again for each chunk and stay as they were at `Open`. Pins and leases are the flag `expired`. `Reader` has
no `Seek`; `ReadAt` reads anywhere.
-/
import Kdb.Lib.Machine
import Kdb.Document.AttachmentHash

namespace Kdb.AttachReader

open Machine AttachmentHash List

/-! ## Sources and pointers -/

/-- a segment name; `none` is the empty name -/
abbrev Name := Option ℕ

/-- `source`: for the number of the load, the offset and the length, the bytes put into the buffer and whether that was
all of them -/
structure Source where
  size : ℤ
  readAt : ℕ → ℕ → ℕ → Bytes × Bool

def memSource (b : Bytes) : Source :=
  ⟨b.length, fun _ off len => if off + len ≤ b.length then (Bytes.slice b off (off + len), true) else ([], false)⟩

structure Pointer (H : Type) where
  segment : Name
  leaves : Name
  size : ℤ
  delta : Bool
  base : H
  inline : Option Bytes

/-- what is stored: pointers, segments read as bytes and as leaves, deltas as they parse, and the ordinary blob store -/
structure Stored (H : Type) where
  pointers : H → Option (Pointer H)
  segments : Name → ℕ → ℕ → ℕ → Bytes × Bool
  leaves : ℕ → List H
  leafFails : ℕ → Bool
  openDelta : Pointer H → Source → Option Source
  small : H → Option Bytes

/-- a leaves segment; nothing is stored under the empty name -/
def Stored.leavesAt {H : Type} (st : Stored H) : Name → List H
  | none => []
  | some n => st.leaves n

inductive ReadError where
  | notFound
  | corrupt
  | deltaCorrupt
  | tooDeep
  | io
  | leaseExpired
  | closed
  | negativeOffset
  | eof
  deriving DecidableEq

variable {H : Type} [DecidableEq H] (X : AttachmentHash.Hasher H)

/-! ## Open -/

variable (st : Stored H)

/-- `getLocked`: a pointer that holds the bytes itself has them checked when it is read -/
def getLocked (h : H) : Except ReadError (Option (Pointer H)) :=
  match st.pointers h with
  | none => .ok none
  | some p =>
    match p.inline with
    | none => .ok (some p)
    | some b => if (b.length : ℤ) = p.size ∧ attachmentContentHash X b = h then .ok (some p) else .error .corrupt

/-- the loop of `resolveLocked` below the first pointer; `fuel` is the number of deltas it still follows -/
def chainFrom (st : Stored H) : ℕ → H → Except ReadError (List (Pointer H))
  | fuel, h =>
    match getLocked X st h with
    | .error e => .error e
    | .ok none => .error .notFound
    | .ok (some p) =>
      if p.delta then
        match fuel with
        | 0 => .error .tooDeep
        | fuel + 1 => (chainFrom st fuel p.base).map (p :: ·)
      else .ok [p]

/-- the source of a version with no base -/
def baseSource (p : Pointer H) : Source :=
  match p.inline with
  | none => ⟨p.size, st.segments p.segment⟩
  | some b => memSource b

def sourceFor (st : Stored H) : List (Pointer H) → Except ReadError Source
  | [] => .error .notFound
  | [p] => .ok (baseSource st p)
  | p :: q :: rest =>
    match sourceFor st (q :: rest) with
    | .error e => .error e
    | .ok src =>
      match st.openDelta p src with
      | none => .error .deltaCorrupt
      | some d => if d.size ≠ p.size then .error .deltaCorrupt else .ok d

/-- the leaves of a pointer hash to `h` -/
def leavesVerify (h : H) (p : Pointer H) : Prop :=
  ((st.leavesAt p.leaves).take (chunkCount p.size)).length = chunkCount p.size ∧
    X.attachmentIdentity (merkleRoot X ((st.leavesAt p.leaves).take (chunkCount p.size))) p.size = h

instance (st : Stored H) (h : H) (p : Pointer H) : Decidable (leavesVerify X st h p) := inferInstanceAs (Decidable (_ ∧ _))

/-- `verifyLeaves`, with the leaves segments it remembers -/
def verifyLeaves (verified : List Name) (h : H) (p : Pointer H) : Except ReadError (List Name) :=
  if p.leaves ∈ verified then .ok verified
  else if leavesVerify X st h p then .ok (p.leaves :: verified) else .error .corrupt

/-- `Reader`. `buf` is the array behind the buffer and `len` how much of it the buffer is. -/
structure Reader where
  n : ℤ
  src : Source
  leaves : Name
  off : ℕ
  cached : Option ℕ
  buf : Bytes
  len : ℕ
  closed : Bool
  expired : Bool
  loads : ℕ

/-- a reader as `Open` makes it -/
def Reader.new (n : ℤ) (src : Source) (leaves : Name) : Reader := ⟨n, src, leaves, 0, none, [], 0, false, false, 0⟩

/-- `Open`, with the leaves segments remembered after it -/
def openBlob (depth : ℕ) (st : Stored H) (verified : List Name) (h : H) : Except ReadError (Reader × List Name) :=
  if h = attachmentContentHash X [] then .ok (.new 0 (memSource []) none, verified)
  else
    match getLocked X st h with
    | .error e => .error e
    | .ok none =>
      match st.small h with
      | none => .error .notFound
      | some b =>
        if attachmentContentHash X b ≠ h then .error .corrupt else .ok (.new b.length (memSource b) none, verified)
    | .ok (some p) =>
      match (chainFrom X st (depth + 1) h).bind (sourceFor st) with
      | .error e => .error e
      | .ok src =>
        match p.inline with
        | some _ => .ok (.new p.size src none, verified)
        | none =>
          match verifyLeaves X st verified h p with
          | .error e => .error e
          | .ok verified' => .ok (.new p.size src p.leaves, verified')

/-! ## Reading -/

/-- bytes copied over the beginning of a buffer of `n` -/
def fill (buf : Bytes) (n : ℕ) (b : Bytes) : Bytes := b.take n ++ buf.drop (min n b.length)

variable (r : Reader)

/-- the buffer a chunk of `n` bytes is read into: the one at hand, or a new one when that is too short -/
def Reader.room (n : ℕ) : Reader :=
  if r.buf.length < n then { r with buf := Bytes.zeros chunk, len := chunk } else r

/-- reading chunk `i` of `n` bytes over the buffer, and whether it can be handed out -/
def Reader.load (i n : ℕ) : Except ReadError Unit × Reader :=
  let answer := r.src.readAt r.loads (i * chunk) n
  let r' := { r.room n with buf := fill (r.room n).buf n answer.1, loads := r.loads + 1 }
  if answer.2 then
    if r.leaves = none then (.ok (), r')
    else if st.leafFails r.loads then (.error .io, r')
    else
      -- `ChunkLeaf`
      match (st.leavesAt r.leaves)[i]? with
      | none => (.error .io, r')
      | some want => if X.chunkLeafHash (r'.buf.take n) ≠ want then (.error .corrupt, r') else (.ok (), r')
  else (.error .io, r')

def Reader.chunkAt (i : ℕ) : Except ReadError Bytes × Reader :=
  if r.expired then (.error .leaseExpired, r)
  else if r.closed then (.error .closed, r)
  else if r.cached = some i then (.ok (r.buf.take r.len), r)
  else
    let n := min chunk (r.n - i * chunk).toNat
    match r.load X st i n with
    | (.error e, r') => (.error e, r')
    | (.ok (), r') => (.ok (r'.buf.take n), { r' with len := n, cached := some i })

/-- `Read`: the bytes, the error, and the reader after it -/
def Reader.read (len : ℕ) : Bytes × Option ReadError × Reader :=
  if (r.off : ℤ) ≥ r.n then ([], some .eof, r)
  else
    match r.chunkAt X st (r.off / chunk) with
    | (.error e, r') => ([], some e, r')
    | (.ok c, r') =>
      let b := (c.drop (r.off % chunk)).take len
      (b, none, { r' with off := r.off + b.length })

/-- the loop of `ReadAt`; a pass that copies nothing would go round for ever -/
def Reader.readLoop (st : Stored H) : ℕ → Reader → Bytes → ℕ → ℕ → Bytes × Option ReadError × Reader
  | 0, r, done, _, _ => (done, none, r)
  | fuel + 1, r, done, off, left =>
    if left = 0 then (done, none, r)
    else if (off : ℤ) ≥ r.n then (done, some .eof, r)
    else
      match r.chunkAt X st (off / chunk) with
      | (.error e, r') => (done, some e, r')
      | (.ok c, r') =>
        let b := (c.drop (off % chunk)).take left
        readLoop st fuel r' (done ++ b) (off + b.length) (left - b.length)

def Reader.readAt (len : ℕ) (off : ℤ) : Bytes × Option ReadError × Reader :=
  if off < 0 then ([], some .negativeOffset, r) else r.readLoop X st (len + 1) [] off.toNat len

/-- a reader in use, with what it handed out and at which offset -/
structure Session where
  reader : Reader
  out : List (ℕ × Bytes)

inductive Call where
  | read (len : ℕ)
  | readAt (len : ℕ) (off : ℤ)
  | close
  | expire

def Call.start : Call → ℕ
  | .readAt _ off => off.toNat
  | _ => r.off

def step (s : Session) : Call → Session
  | .read len =>
    let answer := s.reader.read X st len
    ⟨answer.2.2, s.out ++ [(s.reader.off, answer.1)]⟩
  | .readAt len off =>
    let answer := s.reader.readAt X st len off
    ⟨answer.2.2, s.out ++ [(off.toNat, answer.1)]⟩
  | .close => ⟨{ s.reader with closed := true }, s.out⟩
  | .expire => ⟨{ s.reader with expired := true }, s.out⟩

/-- the buffer is the chunk it was checked as -/
def Reader.Intact : Prop :=
  ∀ i ∈ r.cached, r.leaves ≠ none → some (X.chunkLeafHash (r.buf.take r.len)) = (st.leavesAt r.leaves)[i]?

instance (st : Stored H) (r : Reader) : Decidable (r.Intact X st) :=
  inferInstanceAs (Decidable (∀ i ∈ r.cached, _))

/-- a call that starts in the cached chunk finds the buffer intact -/
def Sound (s : Session) (call : Call) : Prop :=
  s.reader.cached = some (call.start s.reader / chunk) → s.reader.Intact X st

instance (st : Stored H) (s : Session) (call : Call) : Decidable (Sound X st s call) :=
  inferInstanceAs (Decidable (_ → _))

/-- the pointer opened is not inline and a delta at once, and its leaves are remembered only if they hash to `h` -/
def OpenSound (verified : List Name) (h : H) : Prop :=
  ∀ p ∈ st.pointers h, (p.inline ≠ none → p.delta = false) ∧
    (p.inline = none → p.leaves ∈ verified → leavesVerify X st h p)

instance (st : Stored H) (verified : List Name) (h : H) : Decidable (OpenSound X st verified h) :=
  inferInstanceAs (Decidable (∀ p ∈ st.pointers h, _))

/-! ## What a reader of `c` keeps -/

/-- the reader reads `c`: its leaves are those of `c`, or it reads `c` from memory and has a chunk of it in its buffer -/
structure Faithful (c : Bytes) (r : Reader) : Prop where
  size : r.n = c.length
  leaves : r.leaves ≠ none → ∀ i < chunkCount c.length,
    (st.leavesAt r.leaves)[i]? = some (X.chunkLeafHash (chunkOf c i))
  memory : r.leaves = none → r.src = memSource c ∧ ∀ i ∈ r.cached, r.buf.take r.len = chunkOf c i

variable {X} {st : Stored H} {c : Bytes} {r r' : Reader} {i : ℕ}

omit [DecidableEq H] in
theorem length_chunkOf (c : Bytes) (i : ℕ) : (chunkOf c i).length = min chunk (c.length - i * chunk) := by
  rw [chunkOf, length_take, length_drop]

variable {b : Bytes} {n depth : ℕ} {h : H} {p : Pointer H} {verified verified' : List Name}

theorem take_fill {buf : Bytes} (hb : b.length = n) : (fill buf n b).take n = b := by
  rw [fill, take_of_length_le hb.le, take_left' hb]

/-- what stays when a chunk is read -/
structure SameReader (r r' : Reader) : Prop where
  n : r'.n = r.n
  src : r'.src = r.src
  leaves : r'.leaves = r.leaves
  off : r'.off = r.off
  cached : r'.cached = r.cached

theorem Reader.room_same (r : Reader) (n : ℕ) : SameReader r (r.room n) := by
  rw [Reader.room]
  split <;> exact ⟨rfl, rfl, rfl, rfl, rfl⟩

theorem Reader.load_snd (st : Stored H) (r : Reader) (i n : ℕ) : (r.load X st i n).2 = { r.room n with
      buf := fill (r.room n).buf n (r.src.readAt r.loads (i * chunk) n).1, loads := r.loads + 1 } := by
  rw [Reader.load]
  split
  · split
    · rfl
    · split
      · rfl
      · split
        · rfl
        · split <;> rfl
  · rfl

theorem Reader.load_same (st : Stored H) (r : Reader) (i n : ℕ) : SameReader r (r.load X st i n).2 := by
  have hroom := r.room_same n
  rw [Reader.load_snd]
  exact ⟨hroom.n, hroom.src, hroom.leaves, hroom.off, hroom.cached⟩

/-- a load that succeeds against leaves has read the chunk its leaf names -/
theorem load_checked (hl : r.leaves ≠ none) (hok : (r.load X st i n).1 = .ok ()) :
    (st.leavesAt r.leaves)[i]? = some (X.chunkLeafHash ((r.load X st i n).2.buf.take n)) := by
  rw [Reader.load_snd]
  rw [Reader.load] at hok
  split at hok
  · split at hok
    · cases hok
    · split at hok
      · cases hok
      · rename_i want hwant
        split at hok
        · cases hok
        · rename_i heq
          rw [hwant, ← not_not.1 heq]
  · cases hok

/-- a load from memory succeeds, and has read the chunk -/
theorem load_memory (hl : r.leaves = none) (hsrc : r.src = memSource c) (hi : i * chunk < c.length) :
    (r.load X st i (min chunk (c.length - i * chunk))).1 = .ok () ∧
      (r.load X st i (min chunk (c.length - i * chunk))).2.buf.take (min chunk (c.length - i * chunk)) = chunkOf c i := by
  set n := min chunk (c.length - i * chunk) with hn
  have hanswer : r.src.readAt r.loads (i * chunk) n = (chunkOf c i, true) := by
    have hle : i * chunk + n ≤ c.length := by omega
    have hslice : Bytes.slice c (i * chunk) (i * chunk + n) = chunkOf c i := by
      rw [Bytes.slice, Nat.add_sub_cancel_left, hn, ← length_drop]
      exact take_eq_take_min.symm
    rw [hsrc]
    simp only [memSource, if_pos hle, hslice]
  constructor
  · rw [Reader.load]
    simp only [hanswer, if_true, hl]
  · rw [Reader.load_snd, hanswer]
    exact take_fill (length_chunkOf c i)

/-- **A chunk handed out is the chunk of the content**, if the cached one was intact. -/
theorem Faithful.chunkAt (hX : CollisionFree X) (hf : Faithful X st c r) (hi : i * chunk < c.length)
    (hintact : r.cached = some i → r.Intact X st) :
    Faithful X st c (r.chunkAt X st i).2 ∧ (r.chunkAt X st i).2.off = r.off ∧
      ∀ b, (r.chunkAt X st i).1 = .ok b → b = chunkOf c i ∧ (r.chunkAt X st i).2.Intact X st := by
  have hcount : i < chunkCount c.length := by
    have hdiv := div_lt_chunkCount (n := (c.length : ℤ)) (j := i * chunk) (by exact_mod_cast hi)
    rwa [Nat.mul_div_cancel _ chunk_pos] at hdiv
  rw [Reader.chunkAt]
  split
  · exact ⟨hf, rfl, fun b hb => by cases hb⟩
  · split
    · exact ⟨hf, rfl, fun b hb => by cases hb⟩
    · split_ifs with hcached
      · refine ⟨hf, rfl, fun b hb => ?_⟩
        obtain rfl : r.buf.take r.len = b := Except.ok.inj hb
        refine ⟨?_, hintact hcached⟩
        by_cases hl : r.leaves = none
        · exact (hf.memory hl).2 i hcached
        · -- the buffer hashes to the leaf of this chunk
          have hleaf := hintact hcached i hcached hl
          rw [hf.leaves hl i hcount] at hleaf
          exact hX.leaf (Option.some.inj hleaf)
      · have hn : min chunk (r.n - i * chunk).toNat = min chunk (c.length - i * chunk) := by
          rw [hf.size]
          omega
        dsimp only
        rw [hn]
        set n := min chunk (c.length - i * chunk) with hnset
        have hsame := Reader.load_same (X := X) st r i n
        cases hload : r.load X st i n with
        | mk result r' =>
          have hr' : (r.load X st i n).2 = r' := by rw [hload]
          rw [hr'] at hsame
          -- the chunk in the buffer, when the load succeeded
          have hread : result = .ok () → r'.buf.take n = chunkOf c i := by
            rintro rfl
            by_cases hl : r.leaves = none
            · rw [← hr']
              exact (load_memory hl (hf.memory hl).1 hi).2
            · have hok : (r.load X st i n).1 = .ok () := by rw [hload]
              have hleaf := load_checked hl hok
              rw [hr', hf.leaves hl i hcount] at hleaf
              exact (hX.leaf (Option.some.inj hleaf)).symm
          have hsize : r'.n = c.length := hsame.n.trans hf.size
          have hleaves : r'.leaves ≠ none → ∀ j < chunkCount c.length,
              (st.leavesAt r'.leaves)[j]? = some (X.chunkLeafHash (chunkOf c j)) := by
            rw [hsame.leaves]
            exact hf.leaves
          cases result with
          | error e =>
            refine ⟨⟨hsize, hleaves, ?_⟩, hsame.off, fun b hb => by cases hb⟩
            intro hl
            -- memory does not fail
            rw [hsame.leaves] at hl
            have hok : (r.load X st i n).1 = .ok () := (load_memory hl (hf.memory hl).1 hi).1
            rw [hload] at hok
            cases hok
          | ok _ =>
            refine ⟨⟨hsize, hleaves, ?_⟩, hsame.off, fun b hb => ?_⟩
            · intro hl
              refine ⟨hsame.src.trans (hf.memory (hsame.leaves ▸ hl)).1, fun j hj => ?_⟩
              obtain rfl : i = j := Option.some.inj hj
              exact hread rfl
            · obtain rfl : r'.buf.take n = b := Except.ok.inj hb
              refine ⟨hread rfl, fun j hj hl => ?_⟩
              obtain rfl : i = j := Option.some.inj hj
              rw [hread rfl, hleaves hl i hcount]

/-! ## Calls -/

omit [DecidableEq H] in
theorem mul_div_lt {off : ℕ} (h : off < c.length) : off / chunk * chunk < c.length :=
  (Nat.div_mul_le_self off chunk).trans_lt h

omit [DecidableEq H] in
theorem isPrefix_append {a : Bytes} {o : ℕ} (ha : a <+: c.drop o) (hb : b <+: c.drop (o + a.length)) :
    a ++ b <+: c.drop o := by
  obtain ⟨rest, hrest⟩ := ha
  have hdrop : c.drop (o + a.length) = rest := by
    rw [← drop_drop, ← hrest, drop_left]
  rw [hdrop] at hb
  rw [← hrest]
  exact (prefix_append_right_inj a).2 hb

theorem Faithful.read (hX : CollisionFree X) (hf : Faithful X st c r)
    (hintact : r.cached = some (r.off / chunk) → r.Intact X st) (len : ℕ) :
    Faithful X st c (r.read X st len).2.2 ∧ (r.read X st len).1 <+: c.drop r.off := by
  rw [Reader.read]
  split_ifs with hoff
  · exact ⟨hf, nil_prefix⟩
  · have hlt : r.off < c.length := by
      rw [hf.size] at hoff
      exact_mod_cast not_le.1 hoff
    obtain ⟨hf', -, hok⟩ := hf.chunkAt hX (mul_div_lt hlt) hintact
    cases hchunk : r.chunkAt X st (r.off / chunk) with
    | mk result r' =>
      rw [hchunk] at hf' hok
      cases result with
      | error e => exact ⟨hf', nil_prefix⟩
      | ok b =>
        obtain ⟨rfl, -⟩ := hok b rfl
        exact ⟨⟨hf'.size, hf'.leaves, hf'.memory⟩, ( take_prefix _ _).trans (isPrefix_drop_chunkOf c r.off)⟩

/-- the loop of `ReadAt`, from what it has read so far -/
theorem Faithful.readLoop (hX : CollisionFree X) (start : ℕ) (fuel : ℕ) (hf : Faithful X st c r) {done : Bytes} {left : ℕ}
    (hintact : r.cached = some ((start + done.length) / chunk) → r.Intact X st) (hdone : done <+: c.drop start) :
    Faithful X st c (r.readLoop X st fuel done (start + done.length) left).2.2 ∧
      (r.readLoop X st fuel done (start + done.length) left).1 <+: c.drop start := by
  induction fuel generalizing r done left with
  | zero => exact ⟨hf, hdone⟩
  | succ fuel ih =>
    rw [Reader.readLoop]
    split
    · exact ⟨hf, hdone⟩
    · split_ifs with hoff
      · exact ⟨hf, hdone⟩
      · have hlt : start + done.length < c.length := by
          rw [hf.size] at hoff
          exact_mod_cast not_le.1 hoff
        obtain ⟨hf', -, hok⟩ := hf.chunkAt hX (mul_div_lt hlt) hintact
        cases hchunk : r.chunkAt X st ((start + done.length) / chunk) with
        | mk result r' =>
          rw [hchunk] at hf' hok
          cases result with
          | error e => exact ⟨hf', hdone⟩
          | ok b =>
            obtain ⟨rfl, hintact'⟩ := hok b rfl
            set b := ((chunkOf c ((start + done.length) / chunk)).drop ((start + done.length) % chunk)).take left with hb
            have hnext : done ++ b <+: c.drop start :=
              isPrefix_append hdone (( take_prefix _ _).trans (isPrefix_drop_chunkOf c (start + done.length)))
            have hmore := @ih r' hf' (done ++ b) (left - b.length) (fun _ => hintact') hnext
            rw [length_append, ← Nat.add_assoc] at hmore
            exact hmore

/-- **One call.** -/
theorem faithful_step (hX : CollisionFree X) (s : Session) (call : Call) (hsound : Sound X st s call)
    (hs : Faithful X st c s.reader ∧ ∀ o ∈ s.out, o.2 <+: c.drop o.1) :
    Faithful X st c (step X st s call).reader ∧ ∀ o ∈ (step X st s call).out, o.2 <+: c.drop o.1 := by
  obtain ⟨hf, hout⟩ := hs
  have hsnoc : ∀ (off : ℕ) (b : Bytes), b <+: c.drop off → ∀ o ∈ s.out ++ [(off, b)], o.2 <+: c.drop o.1 := by
    intro off b hb
    exact forall_mem_append.2 ⟨hout, forall_mem_singleton.2 hb⟩
  cases call with
  | read len =>
    obtain ⟨hf', hb⟩ := hf.read hX hsound len
    exact ⟨hf', hsnoc _ _ hb⟩
  | readAt len off =>
    have hread : Faithful X st c (s.reader.readAt X st len off).2.2 ∧
        (s.reader.readAt X st len off).1 <+: c.drop off.toNat := by
      rw [Reader.readAt]
      split
      · exact ⟨hf, nil_prefix⟩
      · exact @Faithful.readLoop _ _ _ _ _ _ hX off.toNat (len + 1) hf [] len hsound nil_prefix
    exact ⟨hread.1, hsnoc _ _ hread.2⟩
  | close => exact ⟨⟨hf.size, hf.leaves, hf.memory⟩, hout⟩
  | expire => exact ⟨⟨hf.size, hf.leaves, hf.memory⟩, hout⟩

/-! ## Opening -/

theorem getLocked_some (hget : getLocked X st h = .ok (some p)) :
    st.pointers h = some p ∧ ∀ b ∈ p.inline, (b.length : ℤ) = p.size ∧ attachmentContentHash X b = h := by
  rw [getLocked] at hget
  split at hget
  · cases hget
  · rename_i q hq
    split at hget
    · rename_i hinline
      obtain rfl : q = p := Option.some.inj (Except.ok.inj hget)
      exact ⟨hq, fun b hb => by rw [hinline] at hb; cases hb⟩
    · rename_i b hinline
      split at hget
      · rename_i hcheck
        obtain rfl : q = p := Option.some.inj (Except.ok.inj hget)
        refine ⟨hq, fun b' hb' => ?_⟩
        obtain rfl : b = b' := Option.some.inj (hinline.symm.trans hb')
        exact hcheck
      · cases hget

theorem source_of_not_delta (hget : getLocked X st h = .ok (some p)) (hp : p.delta = false) (fuel : ℕ) :
    (chainFrom X st fuel h).bind (sourceFor st) = .ok (baseSource st p) := by
  have hchain : chainFrom X st fuel h = .ok [p] := by
    unfold chainFrom
    simp [hget, hp]
  rw [hchain]
  rfl

/-- leaves that were checked, now or before, hash to `h` -/
theorem verifyLeaves_ok (hremembered : p.leaves ∈ verified → leavesVerify X st h p)
    (hok : verifyLeaves X st verified h p = .ok verified') : leavesVerify X st h p := by
  rw [verifyLeaves] at hok
  split at hok
  · rename_i hmem
    exact hremembered hmem
  · split at hok
    · rename_i hcheck
      exact hcheck
    · cases hok

/-- opening a blob stored in segments -/
theorem openBlob_stored {src : Source} (hne : h ≠ attachmentContentHash X []) (hget : getLocked X st h = .ok (some p))
    (hsrc : (chainFrom X st (depth + 1) h).bind (sourceFor st) = .ok src) (hinline : p.inline = none)
    (hleaves : verifyLeaves X st verified h p = .ok verified') :
    openBlob X depth st verified h = .ok (.new p.size src p.leaves, verified') := by
  rw [openBlob, if_neg hne]
  simp only [hget, hsrc, hinline, hleaves]

/-- **A reader that `Open` made reads the content.** -/
theorem faithful_openBlob (hX : CollisionFree X) (hsound : OpenSound X st verified h)
    (hc : attachmentContentHash X c = h) (hopen : openBlob X depth st verified h = .ok (r, verified')) : Faithful X st c r := by
  have hmemory : ∀ b, attachmentContentHash X b = h → Faithful X st c (.new b.length (memSource b) none) := by
    intro b hb
    obtain rfl : b = c := attachmentContentHash_injective hX (hb.trans hc.symm)
    exact ⟨rfl, fun hl => absurd rfl hl, fun _ => ⟨rfl, fun i hi => by cases hi⟩⟩
  rw [openBlob] at hopen
  split_ifs at hopen with hempty
  · obtain ⟨rfl, -⟩ := Prod.mk.inj (Except.ok.inj hopen)
    exact hmemory [] hempty.symm
  · have hne : c ≠ [] := by
      rintro rfl
      exact hempty hc.symm
    split at hopen
    · cases hopen
    · split at hopen
      · cases hopen
      · split at hopen
        · cases hopen
        · rename_i b _ hcheck
          obtain ⟨rfl, -⟩ := Prod.mk.inj (Except.ok.inj hopen)
          exact hmemory b (not_not.1 hcheck)
    · rename_i p hget
      obtain ⟨hp, hinline⟩ := getLocked_some hget
      obtain ⟨hdelta, hremembered⟩ := hsound p hp
      split at hopen
      · cases hopen
      · rename_i src hsrc
        split at hopen
        · rename_i b hb
          obtain ⟨rfl, -⟩ := Prod.mk.inj (Except.ok.inj hopen)
          -- the bytes are in the pointer, and the source is these bytes
          have hsrc' := source_of_not_delta hget (hdelta (by simp [hb])) (depth + 1)
          rw [hsrc, baseSource, hb] at hsrc'
          obtain rfl : src = memSource b := Except.ok.inj hsrc'
          obtain ⟨hsize, hhash⟩ := hinline b hb
          rw [← hsize]
          exact hmemory b hhash
        · rename_i hnone
          split at hopen
          · cases hopen
          · rename_i verified₁ hverify
            obtain ⟨rfl, -⟩ := Prod.mk.inj (Except.ok.inj hopen)
            obtain ⟨hlen, hroot⟩ := verifyLeaves_ok (hremembered hnone) hverify
            obtain ⟨hsize, hleaves⟩ := leaves_of_identity hX hne hlen (hroot.trans hc.symm)
            refine ⟨hsize, fun _ i hi => ?_, fun hl => ?_⟩
            · have hget := getElem?_leavesOf X c hi
              rw [← hleaves, List.getElem?_take_of_lt (hsize ▸ hi)] at hget
              exact hget
            · -- nothing is stored under the empty name, and the content has leaves
              have hpos : 0 < chunkCount p.size := by
                rw [hsize]
                exact chunkCount_pos (by exact_mod_cast length_pos_of_ne_nil hne)
              have hnil : p.leaves = none := hl
              rw [hnil, Stored.leavesAt, take_nil] at hlen
              exact absurd hlen hpos.ne

/-- **A reader hands out the content it was opened for.** Whatever is stored and however storage answers: when the opened
pointer is sound and every call that starts in the cached chunk finds the buffer intact, each byte handed out, with an error
or without, is the byte at its offset of any content with the hash that was opened. -/
theorem reader_bytes_right (hX : CollisionFree X) (depth : ℕ) (st : Stored H) (verified verified' : List Name) (h : H)
    (r : Reader) (hopen : openBlob X depth st verified h = .ok (r, verified')) (hsound : OpenSound X st verified h)
    (calls : List Call) (hcalls : Along (step X st) (Sound X st) ⟨r, []⟩ calls) (content : Bytes)
    (hc : attachmentContentHash X content = h) (o : ℕ × Bytes) (ho : o ∈ (run (step X st) ⟨r, []⟩ calls).out) (j : ℕ) (x : UInt8)
    (hx : o.2[j]? = some x) : content[o.1 + j]? = some x := by
  have hf : Faithful X st content r := faithful_openBlob hX hsound hc hopen
  have hinit : Faithful X st content (⟨r, []⟩ : Session).reader ∧ ∀ o ∈ (⟨r, []⟩ : Session).out, o.2 <+: content.drop o.1 :=
    ⟨hf, fun o ho => by cases ho⟩
  obtain ⟨-, hout⟩ := run_of_step (faithful_step hX) hcalls hinit
  obtain ⟨rest, hrest⟩ := hout o ho
  have hlt : j < o.2.length := (List.getElem?_eq_some_iff.1 hx).1
  calc content[o.1 + j]? = (content.drop o.1)[j]? := (List.getElem?_drop).symm
    _ = (o.2 ++ rest)[j]? := by rw [hrest]
    _ = o.2[j]? := List.getElem?_append_left hlt
    _ = some x := hx

/-! ## Witness and counterexample -/

/-- digests that say what was hashed -/
inductive Digest where
  | leaf (b : Bytes)
  | node (l r : Digest)
  | identity (t : Digest) (n : ℤ)
  deriving DecidableEq

/-- hashes without collisions -/
def free : AttachmentHash.Hasher Digest := ⟨.leaf, .node, .identity⟩

theorem free_collisionFree : CollisionFree free :=
  ⟨fun _ _ h => Digest.leaf.inj h, fun _ _ _ _ h => Digest.node.inj h, fun _ _ _ _ h => Digest.identity.inj h⟩

/-- the segments: bytes at name 0, leaves at name 1 -/
def storedAs (pointers : Digest → Option (Pointer Digest)) (readAt : ℕ → ℕ → ℕ → Bytes × Bool) (leaves : List Digest) :
    Stored Digest :=
  ⟨pointers, fun _ => readAt, fun _ => leaves, fun _ => false, fun p src => some ⟨p.size, src.readAt⟩, fun _ => none⟩

/-- a blob stored in segments 0 and 1 -/
def blobPointer (size : ℤ) : Pointer Digest := ⟨some 0, some 1, size, false, .leaf [], none⟩

/-- `[1, 2, 3]`, as it should be -/
def honest : Stored Digest :=
  storedAs (fun h => if h = attachmentContentHash free [1, 2, 3] then some (blobPointer 3) else none)
    (memSource [1, 2, 3]).readAt [.leaf [1, 2, 3]]

def honestReader : Reader := .new 3 (memSource [1, 2, 3]) (some 1)

def honestCalls : List Call := [.read 2, .readAt 2 1, .read 5, .close]

theorem reader_bytes_right_honest :
    openBlob free 8 honest [] (attachmentContentHash free [1, 2, 3]) = .ok (honestReader, [some 1]) ∧
      (run (step free honest) ⟨honestReader, []⟩ honestCalls).out = [(0, [1, 2]), (1, [2, 3]), (2, [3])] ∧
      ∀ o ∈ (run (step free honest) ⟨honestReader, []⟩ honestCalls).out, ∀ j x, o.2[j]? = some x →
        ([1, 2, 3] : Bytes)[o.1 + j]? = some x :=
  ⟨by rfl, by decide +kernel, fun o ho j x => reader_bytes_right free_collisionFree 8 honest [] [some 1] _ honestReader (by rfl)
    (by decide +kernel) honestCalls (by decide +kernel) [1, 2, 3] rfl o ho j x⟩

/-! The first failure: a chunk and one byte behind it, and that byte damaged. -/

/-- a chunk of 0, then 1 -/
def twoChunks : Bytes := Bytes.zeros chunk ++ [1]

theorem length_twoChunks : twoChunks.length = chunk + 1 := by simp [twoChunks, Bytes.zeros]

theorem leavesOf_twoChunks : leavesOf free twoChunks = [.leaf (Bytes.zeros chunk), .leaf [1]] := by
  have hcount : max 1 (chunkCount twoChunks.length) = 2 := by
    rw [length_twoChunks]
    decide
  have hlen : (Bytes.zeros chunk).length = chunk := length_replicate
  have h0 : chunkOf twoChunks 0 = Bytes.zeros chunk := by
    rw [chunkOf, Nat.zero_mul, drop_zero, twoChunks, take_left' hlen]
  have h1 : chunkOf twoChunks 1 = [1] := by
    rw [chunkOf, Nat.one_mul, twoChunks, drop_left' hlen]
    rfl
  rw [leavesOf, hcount, range_succ, range_one, singleton_append, map_cons, map_singleton, h0, h1]
  rfl

/-- the chunk is stored as it was, the byte behind it reads 2 -/
def damaged : Stored Digest :=
  storedAs (fun _ => some (blobPointer (chunk + 1))) (fun _ off len => (List.replicate len (if off = 0 then 0 else 2), true))
    [.leaf (Bytes.zeros chunk), .leaf [1]]

def damagedReader : Reader :=
  .new (chunk + 1) ⟨chunk + 1, fun _ off len => (List.replicate len (if off = 0 then 0 else 2), true)⟩ (some 1)

theorem damaged_opens : openBlob free 8 damaged [] (attachmentContentHash free twoChunks) = .ok (damagedReader, [some 1]) := by
  have hne : attachmentContentHash free twoChunks ≠ attachmentContentHash free [] := by
    intro h
    have hnil := attachmentContentHash_injective free_collisionFree h
    have hlen := length_twoChunks
    rw [hnil] at hlen
    cases hlen
  have hverify : leavesVerify free damaged (attachmentContentHash free twoChunks) (blobPointer (chunk + 1)) := by
    rw [attachmentContentHash, leavesOf_twoChunks, length_twoChunks]
    have hcount : chunkCount (blobPointer (chunk + 1)).size = 2 := by decide
    exact ⟨rfl, rfl⟩
  have hleaves : verifyLeaves free damaged [] (attachmentContentHash free twoChunks) (blobPointer (chunk + 1)) =
      .ok [some 1] := by
    rw [verifyLeaves, if_pos hverify]
    rfl
  have hget : getLocked free damaged (attachmentContentHash free twoChunks) = .ok (some (blobPointer (chunk + 1))) := rfl
  exact openBlob_stored hne hget (source_of_not_delta hget rfl _) rfl hleaves

def chunkRead : Reader := { damagedReader with cached := some 0, buf := Bytes.zeros chunk, len := chunk, loads := 1 }

/-- the reader after the byte behind it was read and refused -/
def byteRefused : Reader := { chunkRead with buf := 2 :: Bytes.zeros (chunk - 1), loads := 2 }

/-- `ReadAt` of the first byte -/
theorem readAt_first {b : UInt8} {rest : Bytes} (hn : 0 < r.n) (hchunk : r.chunkAt X st 0 = (.ok (b :: rest), r')) :
    r.readAt X st 1 0 = ([b], none, r') := by
  have hoff : ¬ ((0 : ℕ) : ℤ) ≥ r.n := not_le.2 hn
  rw [Reader.readAt, if_neg (lt_irrefl 0), Int.toNat_zero, Reader.readLoop, if_neg Nat.one_ne_zero, if_neg hoff, Nat.zero_div]
  simp only [hchunk, Nat.zero_mod, drop_zero, take_succ_cons, take_zero, nil_append]
  rw [Reader.readLoop, if_pos (show 1 - [b].length = 0 from rfl)]

/-- what reading a chunk against leaves comes to, when storage answers with the whole chunk -/
theorem chunkAt_against {want : H} (hopen : r.expired = false ∧ r.closed = false) (hcached : r.cached ≠ some i)
    (hn : min chunk (r.n - i * chunk).toNat = n) (hl : r.leaves ≠ none)
    (hanswer : r.src.readAt r.loads (i * chunk) n = (b, true)) (hb : b.length = n)
    (hfails : st.leafFails r.loads = false) (hwant : (st.leavesAt r.leaves)[i]? = some want) : r.chunkAt X st i =
      if X.chunkLeafHash b ≠ want then
        (.error .corrupt, { r.room n with buf := fill (r.room n).buf n b, loads := r.loads + 1 })
      else (.ok b, { r.room n with buf := fill (r.room n).buf n b, loads := r.loads + 1, len := n, cached := some i }) := by
  have hload : r.load X st i n = (if X.chunkLeafHash b ≠ want then .error .corrupt else .ok (),
      { r.room n with buf := fill (r.room n).buf n b, loads := r.loads + 1 }) := by
    rw [Reader.load, hanswer]
    simp only [if_true, if_neg hl, hfails, Bool.false_eq_true, if_false, hwant, take_fill hb]
    split <;> rfl
  rw [Reader.chunkAt, hopen.1, hopen.2, if_neg Bool.false_ne_true, if_neg Bool.false_ne_true, if_neg hcached, hn]
  by_cases hleaf : X.chunkLeafHash b ≠ want
  · simp only [hload, if_pos hleaf]
  · simp only [hload, if_neg hleaf, take_fill hb]

theorem length_zeros : (Bytes.zeros chunk).length = chunk := length_replicate

theorem zeros_cons : Bytes.zeros chunk = 0 :: Bytes.zeros (chunk - 1) := by
  rfl

theorem damaged_answer (load off len : ℕ) :
    damagedReader.src.readAt load off len = (List.replicate len (if off = 0 then 0 else 2), true) := rfl

theorem chunkAt_first : damagedReader.chunkAt free damaged 0 = (.ok (Bytes.zeros chunk), chunkRead) := by
  have hn : min chunk (damagedReader.n - (0 : ℕ) * chunk).toNat = chunk := by decide
  have hroom : damagedReader.room chunk = { damagedReader with buf := Bytes.zeros chunk, len := chunk } :=
    if_pos chunk_pos
  have hfill : fill (Bytes.zeros chunk) chunk (Bytes.zeros chunk) = Bytes.zeros chunk := by
    rw [fill, length_zeros, Nat.min_self, take_of_length_le length_zeros.le, drop_of_length_le length_zeros.le,
      append_nil]
  have hanswer : damagedReader.src.readAt damagedReader.loads (0 * chunk) chunk = (Bytes.zeros chunk, true) := by
    rw [damaged_answer, Nat.zero_mul, if_pos rfl, Bytes.zeros]
  have hread := @chunkAt_against _ _ free damaged damagedReader 0 _ chunk (.leaf (Bytes.zeros chunk)) ⟨rfl, rfl⟩ (by decide) hn
    (by decide) hanswer length_zeros rfl rfl
  have hleaf : ¬ free.chunkLeafHash (Bytes.zeros chunk) ≠ .leaf (Bytes.zeros chunk) := not_not.2 rfl
  rw [hread, hroom, hfill, if_neg hleaf]
  rfl

theorem chunkAt_second : chunkRead.chunkAt free damaged 1 = (.error .corrupt, byteRefused) := by
  have hn : min chunk (chunkRead.n - (1 : ℕ) * chunk).toNat = 1 := by decide
  have hroom : chunkRead.room 1 = chunkRead := by
    rw [Reader.room, if_neg]
    exact not_lt.2 (length_zeros.symm ▸ chunk_pos)
  have hanswer : chunkRead.src.readAt chunkRead.loads (1 * chunk) 1 = ([2], true) := by
    rfl
  have hread := @chunkAt_against _ _ free damaged chunkRead 1 _ 1 (.leaf [1]) ⟨rfl, rfl⟩ (by decide) hn (by decide) hanswer
    rfl rfl rfl
  have hfill : fill chunkRead.buf 1 [2] = 2 :: Bytes.zeros (chunk - 1) := by
    rfl
  rw [hread, hroom]
  rfl

/-- the refused byte stands where the chunk began -/
theorem chunkAt_again : byteRefused.chunkAt free damaged 0 = (.ok (2 :: Bytes.zeros (chunk - 1)), byteRefused) := by
  have hlen : (2 :: Bytes.zeros (chunk - 1)).length = chunk := by
    rw [length_cons, Bytes.zeros, length_replicate, Nat.sub_add_cancel chunk_pos]
  have htake : byteRefused.buf.take byteRefused.len = 2 :: Bytes.zeros (chunk - 1) := take_of_length_le hlen.le
  rw [Reader.chunkAt, if_neg (by decide), if_neg (by decide), if_pos (by decide), htake]

theorem damaged_run : (run (step free damaged) ⟨damagedReader, []⟩ [.readAt 1 0, .readAt 1 chunk, .readAt 1 0]).out =
      [(0, [0]), (chunk, []), (0, [2])] := by
  have h1 : damagedReader.readAt free damaged 1 0 = ([0], none, chunkRead) := by
    have hread := chunkAt_first
    exact readAt_first (by decide) hread
  have h2 : chunkRead.readAt free damaged 1 chunk = ([], some .corrupt, byteRefused) := by
    rw [Reader.readAt, if_neg (by omega), Int.toNat_natCast, Reader.readLoop, if_neg Nat.one_ne_zero, if_neg (by decide),
      Nat.div_self chunk_pos]
    simp only [chunkAt_second]
  have h3 : byteRefused.readAt free damaged 1 0 = ([2], none, byteRefused) := readAt_first (by decide) chunkAt_again
  rw [run, foldl_cons, step]
  simp only [h1]
  rw [foldl_cons, step]
  simp only [h2]
  rw [foldl_cons]
  rfl

/-! The second and the third: leaves remembered for another blob, and a pointer that is inline and a delta. -/

/-- `[2]` has a pointer to the segments of `[1]` -/
def borrowed : Stored Digest := storedAs (fun _ => some (blobPointer 1)) (memSource [1]).readAt [.leaf [1]]

/-- `[2]` has a pointer with these bytes and, as a delta, with `[1]` for its content -/
def twofold : Stored Digest :=
  storedAs (fun h => if h = attachmentContentHash free [2] then some ⟨some 0, none, 1, true, .leaf [], some [2]⟩
    else some (blobPointer 1)) (memSource [1]).readAt [.leaf [1]]

/-- **Wrong bytes.** A byte that was read and refused is handed out as the first byte of the chunk it was written over; and
`[1]` is handed out for `[2]`, once because its leaves were checked before, once because nothing is. -/
theorem reader_hands_out_wrong_bytes :
    (openBlob free 8 damaged [] (attachmentContentHash free twoChunks) = .ok (damagedReader, [some 1]) ∧
      OpenSound free damaged [] (attachmentContentHash free twoChunks) ∧ twoChunks[0]? = some 0 ∧
      (run (step free damaged) ⟨damagedReader, []⟩ [.readAt 1 0, .readAt 1 chunk, .readAt 1 0]).out =
        [(0, [0]), (chunk, []), (0, [2])]) ∧
    (openBlob free 8 borrowed [] (attachmentContentHash free [1]) = .ok (.new 1 (memSource [1]) (some 1), [some 1]) ∧
      openBlob free 8 borrowed [some 1] (attachmentContentHash free [2]) =
        .ok (.new 1 (memSource [1]) (some 1), [some 1]) ∧
      (run (step free borrowed) ⟨.new 1 (memSource [1]) (some 1), []⟩ [.read 1]).out = [(0, [1])]) ∧
    openBlob free 8 twofold [] (attachmentContentHash free [2]) = .ok (.new 1 (memSource [1]) none, []) ∧
      (run (step free twofold) ⟨.new 1 (memSource [1]) none, []⟩ [.read 1]).out = [(0, [1])] := by
  refine ⟨⟨damaged_opens, ?_, ?_, damaged_run⟩, ⟨by rfl, by rfl, by decide +kernel⟩, by rfl, by decide +kernel⟩
  · intro p hp
    obtain rfl : blobPointer (chunk + 1) = p := Option.some.inj hp
    exact ⟨fun h => absurd rfl h, fun _ h => absurd h not_mem_nil⟩
  · rfl

end Kdb.AttachReader
