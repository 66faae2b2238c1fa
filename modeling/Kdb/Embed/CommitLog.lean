/-
The commit log writer (`embed/commit_log.go`): callers check the failure latch, send a request on a bounded channel and
wait; one goroutine drains what is queued, appends it to the delta segment, flushes, latches a failure and completes
every request of the batch.

What runs between two synchronisation points is one step: the latch check (`check`), the send (`send`), a drained batch
with its appends, flush, latch and completions (`batch`), the flush timer (`timer`), a fence, `Close` and the end of the
loop (`stop`). A failed append or sync is part of the label (`Outcome`). `RotateIfNeeded`, whose failure the code only
logs, changes nothing here.

A request is numbered by its place in the send order (its ticket). A request is acknowledged when its batch completes
without an error; a request without an ack channel (an ordinary record under `async`) gets the same verdict, nobody
reads it.

- `failstop_of_unlatched`: the log is fail-stop in every run in which no batch starts once the failure is latched.
- `queued_record_written_after_failure`: the loop does not look at the latch, so a request past its check is written
  behind the hole.
-/
import Kdb.Lib.Machine

namespace Kdb.CommitLog

open Kdb.Machine List

/-- `storage.Durability`; `DurabilityMemoryOnly` has no log -/
inductive Durability
  | sync
  | async
deriving DecidableEq, Repr

inductive LogError
  | appending (ticket : ℕ)
  | flushing
  | fenced
deriving DecidableEq, Repr

/-- `logRequest`: `ack` tells whether an ack channel was made, `force` asks for a flush before the ack -/
structure LogRequest (ρ : Type) where
  record : ρ
  ack : Bool
  force : Bool
deriving DecidableEq, Repr

def maxLogBatch : ℕ := 256

/-- what the segment writer answers: the number of records appended before an append fails, and whether a flush fails -/
structure Outcome where
  appendFails : Option ℕ
  flushFails : Bool
deriving DecidableEq, Repr

def Outcome.ok : Outcome := ⟨none, false⟩

/-- `commitLogWriter`, and what it has done: `next` tickets handed out, `written` to the segment, a verdict per
completed request, and whether an append or a sync has failed -/
structure CommitLogWriter (ρ : Type) where
  durability : Durability
  senders : List (LogRequest ρ) := []
  reqs : List (ℕ × LogRequest ρ) := []
  next : ℕ := 0
  failure : Option LogError := none
  closed : Bool := false
  stopped : Bool := false
  dirty : Bool := false
  written : List (ℕ × ρ) := []
  verdicts : List (ℕ × Option LogError) := []
  ioFailed : Bool := false
deriving DecidableEq, Repr

variable {ρ : Type} (s : CommitLogWriter ρ)

/-- the tickets of the records appended, in order -/
def CommitLogWriter.appended : List ℕ := s.written.map Prod.fst

/-- the tickets acknowledged, in order -/
def CommitLogWriter.acked : List ℕ := (s.verdicts.filter fun v => v.2 = none).map Prod.fst

inductive Op (ρ : Type)
  | check (record : ρ) (durable : Bool)
  | send (i : ℕ)
  | batch (o : Outcome)
  | timer (flushFails : Bool)
  | fence
  | close
  | stop (flushFails : Bool)
deriving DecidableEq, Repr

/-! ## The writer -/

/-- the first half of `EnqueueAsync` (`durable = false`) and `EnqueueDurableAsync`: refused once a failure is latched -/
def enqueueCheck (record : ρ) (durable : Bool) : CommitLogWriter ρ :=
  match s.failure with
  | some _ => s
  | none =>
    let ack := durable || s.durability == .sync
    { s with senders := s.senders ++ [⟨record, ack, durable⟩] }

/-- the second half: the send on `reqs`, which waits while the channel is full and is refused once it is closed -/
def enqueueSend (i : ℕ) : CommitLogWriter ρ :=
  match s.senders[i]? with
  | none => s
  | some r =>
    if s.closed then { s with senders := s.senders.eraseIdx i }
    else if s.reqs.length < maxLogBatch then
      { s with senders := s.senders.eraseIdx i, reqs := s.reqs ++ [(s.next, r)], next := s.next + 1 }
    else s

variable (batch : List (ℕ × LogRequest ρ))

/-- `appendBatch`: the records written, and the error of the first append that failed -/
def appendBatch (fails : Option ℕ) : List (ℕ × ρ) × Option LogError :=
  let recs := batch.map fun r => (r.1, r.2.record)
  match fails with
  | none => (recs, none)
  | some k =>
    match batch[k]? with
    | none => (recs, none)
    | some r => (recs.take k, some (.appending r.1))

variable (o : Outcome)

/-- `writeBatch`: append, then one flush for the batch -/
def writeBatch : List (ℕ × ρ) × Option LogError :=
  match appendBatch batch o.appendFails with
  | (w, some e) => (w, some e)
  | (w, none) => (w, if o.flushFails then some .flushing else none)

/-- `latch`: the first failure stays -/
def latch (failure err : Option LogError) : Option LogError := failure <|> err

def complete (err : Option LogError) : List (ℕ × Option LogError) :=
  batch.map fun r => (r.1, err)

/-- one turn of `run` under `DurabilitySync` -/
def runBatchSync (batch : List (ℕ × LogRequest ρ)) (o : Outcome) : CommitLogWriter ρ :=
  let (w, err) := writeBatch batch o
  { s with reqs := s.reqs.drop batch.length, written := s.written ++ w, failure := latch s.failure err,
           verdicts := s.verdicts ++ complete batch err, ioFailed := s.ioFailed || err.isSome }

/-- one turn of `runAsync`: append; a batch with a forced record is flushed at once and completes with the latch,
any other leaves the flush to the timer -/
def runBatchAsync (batch : List (ℕ × LogRequest ρ)) (o : Outcome) : CommitLogWriter ρ :=
  let (w, err) := appendBatch batch o.appendFails
  let s := { s with reqs := s.reqs.drop batch.length, written := s.written ++ w, failure := latch s.failure err }
  if err.isNone && batch.any (fun r => r.2.force) then
    let failure := latch s.failure (if o.flushFails then some .flushing else none)
    { s with failure, dirty := false, verdicts := s.verdicts ++ complete batch failure,
             ioFailed := s.ioFailed || o.flushFails }
  else
    { s with dirty := true, verdicts := s.verdicts ++ complete batch err, ioFailed := s.ioFailed || err.isSome }

/-- a turn of the loop: `drain` takes everything queued, up to `maxLogBatch` -/
def runBatch : CommitLogWriter ρ :=
  let batch := s.reqs.take maxLogBatch
  if batch.isEmpty || s.stopped then s
  else match s.durability with
    | .sync => runBatchSync s batch o
    | .async => runBatchAsync s batch o

/-- the `flush` closure of `runAsync` -/
def flush (fails : Bool) : CommitLogWriter ρ :=
  { s with failure := latch s.failure (if fails then some .flushing else none), dirty := false,
           ioFailed := s.ioFailed || fails }

def step : Op ρ → CommitLogWriter ρ
  | .check record durable => enqueueCheck s record durable
  | .send i => enqueueSend s i
  | .batch o => runBatch s o
  | .timer fails => if s.dirty && !s.stopped then flush s fails else s
  | .fence => { s with failure := latch s.failure (some .fenced) }
  | .close => { s with closed := true }
  -- the loop returns once the closed channel is drained; only the async loop still has a flush to do
  | .stop fails =>
    if s.closed && s.reqs.isEmpty && !s.stopped then
      let s := if s.dirty then flush s fails else s
      { s with stopped := true }
    else s

def init (durability : Durability) : CommitLogWriter ρ := { durability }

/-! ## What one turn of the loop does -/

theorem latch_none (err : Option LogError) : latch none err = err := rfl

theorem latch_of_some {failure : Option LogError} (h : failure ≠ none) (err : Option LogError) :
    latch failure err = failure := by
  cases failure with
  | none => exact absurd rfl h
  | some e => rfl

/-- the records written are a prefix of the batch, all of it when no append failed -/
theorem appendBatch_written (fails : Option ℕ) : (appendBatch batch fails).1.map Prod.fst <+: batch.map Prod.fst ∧
      ((appendBatch batch fails).2 = none → (appendBatch batch fails).1.map Prod.fst = batch.map Prod.fst) := by
  unfold appendBatch
  cases fails with
  | none => simp [Function.comp_def]
  | some k =>
    dsimp only
    split
    · simp [Function.comp_def]
    · simpa [Function.comp_def] using take_prefix k (batch.map Prod.fst)

/-- a turn that drained `batch`: a prefix of it was written, all of it got the verdict `v` -/
structure Turn (s s' : CommitLogWriter ρ) (batch : List (ℕ × LogRequest ρ)) (v : Option LogError) : Prop where
  drained : s.reqs = batch ++ s'.reqs
  next : s'.next = s.next
  written : ∃ w, s'.appended = s.appended ++ w ∧ w <+: batch.map Prod.fst ∧ (v = none → w = batch.map Prod.fst)
  verdicts : s'.verdicts = s.verdicts ++ complete batch v
  failure : s.failure = none → s'.failure = v
  io : s'.ioFailed = true → s.ioFailed = true ∨ s'.failure ≠ none

theorem writeBatch_written : (writeBatch batch o).1.map Prod.fst <+: batch.map Prod.fst ∧
      ((writeBatch batch o).2 = none → (writeBatch batch o).1.map Prod.fst = batch.map Prod.fst) := by
  obtain ⟨hpre, hall⟩ := appendBatch_written batch o.appendFails
  unfold writeBatch
  split <;> simp_all

theorem runBatchSync_turn (batch rest : List (ℕ × LogRequest ρ)) (o : Outcome)
    (h : s.reqs = batch ++ rest) : ∃ v, Turn s (runBatchSync s batch o) batch v := by
  obtain ⟨hpre, hall⟩ := writeBatch_written batch o
  refine ⟨(writeBatch batch o).2, by simp [runBatchSync, h], rfl, ?_, rfl, fun hf => ?_, fun hio => ?_⟩
  · exact ⟨_, by simp [runBatchSync, CommitLogWriter.appended], hpre, hall⟩
  · simp [runBatchSync, hf, latch_none]
  · simp only [runBatchSync] at hio ⊢
    cases hf : s.failure <;> simp_all [latch, Option.isSome_iff_ne_none]

theorem runBatchAsync_turn (batch rest : List (ℕ × LogRequest ρ)) (o : Outcome)
    (h : s.reqs = batch ++ rest) : ∃ v, Turn s (runBatchAsync s batch o) batch v := by
  obtain ⟨hpre, hall⟩ := appendBatch_written batch o.appendFails
  unfold runBatchAsync
  dsimp only
  by_cases hc : ((appendBatch batch o.appendFails).2.isNone && batch.any fun r => r.2.force) = true
  · -- a forced record: the flush runs now and the batch completes with whatever is latched
    obtain ⟨hnone, -⟩ := Bool.and_eq_true_iff.1 hc
    have he := Option.isNone_iff_eq_none.1 hnone
    rw [if_pos hc]
    refine ⟨_, by simp [h], rfl, ⟨_, by simp [CommitLogWriter.appended], hpre, fun _ => hall he⟩, rfl, fun _ => rfl,
      fun hio => ?_⟩
    simp only at hio
    cases hf : s.failure <;> simp_all [latch]
  · rw [if_neg hc]
    refine ⟨(appendBatch batch o.appendFails).2, by simp [h], rfl,
      ⟨_, by simp [CommitLogWriter.appended], hpre, hall⟩, rfl, fun hf => by simp [hf, latch_none], fun hio => ?_⟩
    simp only at hio
    cases hf : s.failure <;> simp_all [latch, Option.isSome_iff_ne_none]

theorem runBatch_turn : runBatch s o = s ∨ ∃ batch v, Turn s (runBatch s o) batch v := by
  unfold runBatch
  dsimp only
  split_ifs
  · exact Or.inl rfl
  · refine Or.inr ⟨s.reqs.take maxLogBatch, ?_⟩
    have hsplit := (take_append_drop maxLogBatch s.reqs).symm
    cases s.durability with
    | sync => exact runBatchSync_turn s _ _ o hsplit
    | async => exact runBatchAsync_turn s _ _ o hsplit

/-! ## Fail-stop -/

/-- the writer loop starts no batch once a failure is latched -/
def Unlatched : Op ρ → Prop
  | .batch _ => s.failure = none
  | _ => True

instance (s : CommitLogWriter ρ) (o : Op ρ) : Decidable (Unlatched s o) := by
  cases o <;> unfold Unlatched <;> infer_instance

/-- tickets are appended and acknowledged in order, and until a failure nothing is appended without its ack -/
structure Inv : Prop where
  io : s.ioFailed = true → s.failure ≠ none
  order : ∃ a w, s.acked = List.range a ∧ s.appended = List.range w ∧ a ≤ w ∧
    (s.failure = none → a = w ∧ s.reqs.map Prod.fst = List.range' w s.reqs.length ∧ s.next = w + s.reqs.length)

variable {s s' : CommitLogWriter ρ} {batch : List (ℕ × LogRequest ρ)} {v : Option LogError}

/-- a step that writes and completes nothing, and touches the queue only behind a latched failure -/
theorem Inv.of_same (h : Inv s) (hw : s'.written = s.written) (hv : s'.verdicts = s.verdicts)
    (hio : s'.ioFailed = true → s'.failure ≠ none)
    (hf : s'.failure = none → s.failure = none ∧ s'.reqs = s.reqs ∧ s'.next = s.next) : Inv s' := by
  obtain ⟨a, w, ha, hwr, hle, hrest⟩ := h.order
  refine ⟨hio, a, w, by simpa [CommitLogWriter.acked, hv] using ha,
    by simpa [CommitLogWriter.appended, hw] using hwr, hle, fun hnone => ?_⟩
  obtain ⟨h1, h2, h3⟩ := hf hnone
  simpa [h2, h3] using hrest h1

theorem inv_send (h : Inv s) (r : LogRequest ρ) (senders : List (LogRequest ρ)) :
    Inv { s with senders, reqs := s.reqs ++ [(s.next, r)], next := s.next + 1 } := by
  obtain ⟨a, w, ha, hwr, hle, hrest⟩ := h.order
  refine ⟨h.io, a, w, ha, hwr, hle, fun hnone => ?_⟩
  obtain ⟨h1, h2, h3⟩ := hrest hnone
  refine ⟨h1, ?_, by simp; omega⟩
  simp [h2, h3, List.range'_concat]

theorem inv_flush (h : Inv s) (fails : Bool) : Inv (flush s fails) := by
  refine h.of_same rfl rfl (fun hio => ?_) fun hf => ?_
  · simp only [flush, Bool.or_eq_true] at hio ⊢
    rcases hio with hio | hio
    · rw [latch_of_some (h.io hio)]; exact h.io hio
    · cases s.failure <;> simp [latch, hio]
  · cases hs : s.failure <;> simp_all [flush, latch]

theorem acked_turn (t : Turn s s' batch v) : s'.acked = s.acked ++ if v = none then batch.map Prod.fst else [] := by
  rw [CommitLogWriter.acked, t.verdicts, filter_append, map_append]
  congr 1
  by_cases hv : v = none <;> simp [complete, filter_map, Function.comp_def, hv]

theorem inv_turn (h : Inv s) (hnone : s.failure = none) (t : Turn s s' batch v) : Inv s' := by
  obtain ⟨a, w, ha, hwr, -, hrest⟩ := h.order
  obtain ⟨rfl, htick, hnext⟩ := hrest hnone
  obtain ⟨x, hx, hpre, hall⟩ := t.written
  have hio : s'.ioFailed = true → s'.failure ≠ none := fun hi =>
    (t.io hi).elim (fun h' => absurd hnone (h.io h')) id
  -- the batch holds the next tickets, and so does the prefix of it that was written
  rw [t.drained, map_append, length_append, ← List.range'_append_1] at htick
  obtain ⟨hb, hr⟩ := append_inj htick (by simp)
  have hx' : x = List.range' a x.length := by
    rw [hb] at hpre
    conv_lhs => rw [prefix_iff_eq_take.1 hpre]
    exact take_range'_of_length_ge (by simpa using hpre.length_le)
  have happ : s'.appended = List.range (a + x.length) := by
    rw [hx, hwr, hx', range_eq_range', range_eq_range', ← List.range'_append_1]
    simp
  cases v with
  | some e =>
    refine ⟨hio, a, a + x.length, by simp [acked_turn t, ha], happ, by omega, fun hf => ?_⟩
    exact absurd ((t.failure hnone).symm.trans hf) (by simp)
  | none =>
    have hlen : x.length = batch.length := by rw [hall rfl]; simp
    refine ⟨hio, a + x.length, a + x.length, ?_, happ, le_rfl, fun _ => ⟨rfl, by rw [hr, hlen], ?_⟩⟩
    · rw [acked_turn t, ha, ← hwr, if_pos rfl, ← hall rfl, ← hx, happ]
    · rw [t.next, hnext, t.drained, length_append]; omega

/-- **Step.** Every step that starts no batch behind a latched failure keeps the order of tickets. -/
theorem inv_step (o : Op ρ) (ho : Unlatched s o) (h : Inv s) : Inv (step s o) := by
  cases o with
  | check record durable =>
    simp only [step, enqueueCheck]
    split
    · exact h
    · exact h.of_same rfl rfl h.io fun hf => ⟨hf, rfl, rfl⟩
  | send i =>
    simp only [step, enqueueSend]
    split
    · exact h
    · split_ifs
      · exact h.of_same rfl rfl h.io fun hf => ⟨hf, rfl, rfl⟩
      · exact inv_send h _ _
      · exact h
  | batch oc =>
    rcases runBatch_turn s oc with heq | ⟨batch, v, t⟩
    · simpa only [step, heq] using h
    · exact inv_turn h ho t
  | timer fails =>
    simp only [step]
    split_ifs
    · exact inv_flush h fails
    · exact h
  | fence =>
    refine h.of_same rfl rfl (fun _ => ?_) fun hf => ?_
    · simp only [step]; cases s.failure <;> simp [latch]
    · simp only [step] at hf; cases hs : s.failure <;> simp_all [latch]
  | close => exact h.of_same rfl rfl h.io fun hf => ⟨hf, rfl, rfl⟩
  | stop fails =>
    simp only [step]
    split_ifs
    · exact (inv_flush h fails).of_same rfl rfl (inv_flush h fails).io fun hf => ⟨hf, rfl, rfl⟩
    · exact h.of_same rfl rfl h.io fun hf => ⟨hf, rfl, rfl⟩
    · exact h

theorem inv_init (durability : Durability) : Inv (init durability : CommitLogWriter ρ) :=
  ⟨by simp [init], 0, 0, rfl, rfl, le_rfl, fun _ => ⟨rfl, rfl, rfl⟩⟩

/-- behind a latched failure every step but a batch leaves the segment, the verdicts and the latch alone -/
theorem step_latched (o : Op ρ) (ho : Unlatched s o) (hf : s.failure ≠ none) :
    (step s o).failure ≠ none ∧ (step s o).written = s.written ∧ (step s o).verdicts = s.verdicts := by
  cases o with
  | check record durable =>
    obtain ⟨e, he⟩ := Option.ne_none_iff_exists'.1 hf
    simp [step, enqueueCheck, he]
  | send i =>
    simp only [step, enqueueSend]
    split
    · exact ⟨hf, rfl, rfl⟩
    · split_ifs <;> exact ⟨hf, rfl, rfl⟩
  | batch oc => exact absurd ho hf
  | timer fails =>
    simp only [step]
    split_ifs
    · exact ⟨by simpa [flush, latch_of_some hf] using hf, rfl, rfl⟩
    · exact ⟨hf, rfl, rfl⟩
  | fence => exact ⟨by simpa [step, latch_of_some hf] using hf, rfl, rfl⟩
  | close => exact ⟨hf, rfl, rfl⟩
  | stop fails =>
    simp only [step]
    split_ifs
    · exact ⟨by simpa [flush, latch_of_some hf] using hf, rfl, rfl⟩
    · exact ⟨hf, rfl, rfl⟩
    · exact ⟨hf, rfl, rfl⟩

theorem run_latched {ops : List (Op ρ)} (hops : Along step Unlatched s ops) (hf : s.failure ≠ none) :
    (run step s ops).written = s.written ∧ (run step s ops).verdicts = s.verdicts := by
  induction ops generalizing s with
  | nil => exact ⟨rfl, rfl⟩
  | cons o ops ih =>
    obtain ⟨h1, h2, h3⟩ := step_latched o hops.1 hf
    obtain ⟨i1, i2⟩ := ih hops.2 h1
    exact ⟨i1.trans h2, i2.trans h3⟩

/-- an acknowledged record has every record enqueued before it appended before it and acknowledged -/
def OrderedAcks (s : CommitLogWriter ρ) : Prop :=
  ∀ n ∈ s.acked, ∀ m < n, m ∈ s.acked ∧ [m, n].Sublist s.appended

theorem Inv.orderedAcks (h : Inv s) : OrderedAcks s := by
  obtain ⟨a, w, ha, hw, hle, -⟩ := h.order
  intro n hn m hm
  rw [ha, mem_range] at hn
  refine ⟨by rw [ha, mem_range]; omega, ?_⟩
  have hpair : [m, n].Sublist (List.range (n + 1)) := by
    rw [range_succ]
    exact (singleton_sublist.2 (mem_range.2 hm)).append (Sublist.refl [n])
  rw [hw]
  exact hpair.trans (range_sublist.2 (by omega))

/-- **The log is fail-stop when its loop minds the latch.** In every run in which no batch starts behind a latched
failure, acknowledgements are in order, and once an append or a sync has failed nothing is written or acknowledged. -/
theorem failstop_of_unlatched (durability : Durability) (pre post : List (Op ρ))
    (h : Along step Unlatched (init durability) (pre ++ post)) :
    OrderedAcks (run step (init durability) (pre ++ post)) ∧
      ((run step (init durability) pre).ioFailed = true →
        (run step (init durability) (pre ++ post)).written = (run step (init durability) pre).written ∧
        (run step (init durability) (pre ++ post)).acked = (run step (init durability) pre).acked) := by
  have hinv := fun ops (hops : Along step Unlatched (init durability) ops) =>
    run_of_step (fun (s : CommitLogWriter ρ) o => inv_step o) hops (inv_init durability)
  refine ⟨(hinv _ h).orderedAcks, fun hio => ?_⟩
  obtain ⟨hpre, hpost⟩ := (along_append _ _ _ _ _).1 h
  obtain ⟨h1, h2⟩ := run_latched hpost ((hinv _ hpre).io hio)
  rw [run_append]
  exact ⟨h1, by rw [CommitLogWriter.acked, h2]; rfl⟩

/-- two records acknowledged, the sync of a third fails, a fourth is refused by the latch -/
def failingRun : List (Op ℕ) :=
  [.check 10 false, .send 0, .check 11 false, .send 0, .batch .ok, .check 12 false, .send 0, .batch ⟨none, true⟩]

theorem failstop_of_unlatched_failingRun :
    (run step (init .sync) failingRun).ioFailed = true ∧ (run step (init .sync) failingRun).acked = [0, 1] ∧
      (run step (init .sync) (failingRun ++ [.check 13 false, .send 0])).acked = [0, 1] :=
  ⟨by decide, by decide,
    ((failstop_of_unlatched .sync failingRun [.check 13 false, .send 0] (by decide)).2 (by decide)).2.trans (by decide)⟩

/-- **A record is written and acknowledged behind the hole.** Two callers pass the latch check; the first one's append
fails and latches; the second one's record, sent afterwards, is drained, written and acknowledged all the same. -/
theorem queued_record_written_after_failure :
    let failed := run step (init .sync : CommitLogWriter ℕ)
      [.check 10 false, .check 11 false, .send 0, .batch ⟨some 0, false⟩]
    let later := run step failed [.send 0, .batch .ok]
    failed.ioFailed = true ∧ failed.written = [] ∧ later.written = [(1, 11)] ∧ later.acked = [1] ∧
      ¬ OrderedAcks later := by
  refine ⟨by decide, by decide, by decide, by decide, fun h => ?_⟩
  exact absurd (h 1 (by decide) 0 (by decide)).1 (by decide)

end Kdb.CommitLog
