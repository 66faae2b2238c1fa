/-
Group commit (`storage/wal/group_commit.go`): `SyncTo` calls that share the syncs of one goroutine, `runRounds`.

A label is one hold of the lock, one channel send or the start or end of an append or a `doSync` call, so labels in any
order are the interleavings. Appends get the log's next sequence and return in any order; `SyncTo` is called with the
sequence of one that has returned.
- `sync_covers_answers`: in every interleaving a `SyncTo` that returned nil is covered by a sync, and no waiter is
  stranded.
-/
import Kdb.Lib.Machine

namespace Kdb.GroupCommitter

open Machine List

/-- where `runRounds` is: about to take the waiters, about to sync, in `doSync` (called when the appends `seen` had
returned), back from it, or answering its batch -/
inductive Round where
  | idle
  | collecting
  | taken (batch : List ℕ)
  | syncing (batch seen : List ℕ)
  | synced (batch : List ℕ) (ok : Bool)
  | answering (batch : List ℕ) (ok : Bool)

/-- the committer, the log's counter and appends, and what has happened: the `doSync` calls without error, each as the
appends that had returned when it started, and the answers of `SyncTo` (is it nil?) -/
structure World where
  syncedSeq : ℕ := 0
  inFlight : Bool := false
  waiters : List ℕ := []
  round : Round := .idle
  sequenceCounter : ℕ := 0
  appending : List ℕ := []
  returned : List ℕ := []
  successes : List (List ℕ) := []
  answers : List (ℕ × Bool) := []

inductive Label where
  | append
  | appendReturns (seq : ℕ)
  | syncTo (seq : ℕ)
  | collect
  | startSync
  | endSync (ok : Bool)
  | record
  | answer

/-- `SyncTo` up to its wait -/
def syncTo (w : World) (seq : ℕ) : World :=
  if w.syncedSeq ≥ seq then { w with answers := (seq, true) :: w.answers }
  else if w.inFlight then { w with waiters := w.waiters ++ [seq] }
  else { w with waiters := w.waiters ++ [seq], inFlight := true, round := .collecting }

def maxSeq (batch : List ℕ) : ℕ := batch.foldl (fun m seq => if seq > m then seq else m) 0

/-- one step; one that is not due changes nothing -/
def step (w : World) : Label → World
  | .append => { w with sequenceCounter := w.sequenceCounter + 1, appending := (w.sequenceCounter + 1) :: w.appending }
  | .appendReturns seq => if seq ∈ w.appending then { w with returned := seq :: w.returned } else w
  | .syncTo seq => if seq ∈ w.returned then syncTo w seq else w
  | .collect =>
    match w.round with
    | .collecting =>
      if w.waiters = [] then { w with inFlight := false, round := .idle }
      else { w with waiters := [], round := .taken w.waiters }
    | _ => w
  | .startSync =>
    match w.round with
    | .taken batch => { w with round := .syncing batch w.returned }
    | _ => w
  | .endSync ok =>
    match w.round with
    | .syncing batch seen =>
      { w with round := .synced batch ok, successes := if ok then seen :: w.successes else w.successes }
    | _ => w
  | .record =>
    match w.round with
    | .synced batch ok =>
      { w with
        round := .answering batch ok
        syncedSeq := if ok ∧ maxSeq batch > w.syncedSeq then maxSeq batch else w.syncedSeq }
    | _ => w
  | .answer =>
    match w.round with
    | .answering [] _ => { w with round := .collecting }
    | .answering (seq :: batch) ok => { w with round := .answering batch ok, answers := (seq, ok) :: w.answers }
    | _ => w

/-- a sync without error started after an append with this sequence or a later one had returned -/
def Covered (successes : List (List ℕ)) (seq : ℕ) : Prop := ∃ seen ∈ successes, ∃ s ∈ seen, seq ≤ s

/-- what a round knows of its batch -/
def BatchOk (returned : List ℕ) (successes : List (List ℕ)) : Round → Prop
  | .idle | .collecting => True
  | .taken batch => batch ⊆ returned
  | .syncing batch seen => batch ⊆ seen
  | .synced batch ok | .answering batch ok => ok = true → ∀ seq ∈ batch, Covered successes seq

structure Inv (w : World) : Prop where
  positive : ∀ seq ∈ w.appending ++ w.returned, 0 < seq
  queued : w.waiters ⊆ w.returned
  running : w.inFlight = true ↔ w.round ≠ .idle
  idle : w.round = .idle → w.waiters = []
  batch : BatchOk w.returned w.successes w.round
  synced : w.syncedSeq = 0 ∨ Covered w.successes w.syncedSeq
  answered : ∀ a ∈ w.answers, a.2 = true → Covered w.successes a.1

variable {w : World} {seq : ℕ} {successes : List (List ℕ)}

theorem Covered.cons (h : Covered successes seq) (seen : List ℕ) : Covered (seen :: successes) seq := by
  obtain ⟨seen', hseen, hcovers⟩ := h
  exact ⟨seen', .tail _ hseen, hcovers⟩

theorem Covered.of_le {seq' : ℕ} (h : Covered successes seq') (hle : seq ≤ seq') : Covered successes seq := by
  obtain ⟨seen, hseen, s, hs, hcovers⟩ := h
  exact ⟨seen, hseen, s, hs, hle.trans hcovers⟩

theorem maxSeq_mem (batch : List ℕ) : maxSeq batch = 0 ∨ maxSeq batch ∈ batch := by
  induction batch using List.reverseRecOn with
  | nil => exact .inl rfl
  | append_singleton batch seq ih =>
    rw [maxSeq, foldl_append, foldl_cons]
    split_ifs with h
    · exact .inr (by simp)
    · exact ih.imp_right (mem_append_left _)

theorem inv_syncTo (h : Inv w) (hseq : seq ∈ w.returned) : Inv (syncTo w seq) := by
  unfold syncTo
  split_ifs with hle hflight
  · -- sequences start at one, so something was synced
    have hpos := h.positive seq (mem_append_right _ hseq)
    have hcovered := h.synced.resolve_left (by omega)
    exact ⟨h.positive, h.queued, h.running, h.idle, h.batch, h.synced,
      forall_mem_cons.2 ⟨fun _ => hcovered.of_le hle, h.answered⟩⟩
  · have hround := h.running.1 hflight
    exact ⟨h.positive, append_subset.2 ⟨h.queued, by simpa using hseq⟩, h.running,
      fun hidle => absurd hidle hround, h.batch, h.synced, h.answered⟩
  · exact ⟨h.positive, append_subset.2 ⟨h.queued, by simpa using hseq⟩, by simp, by simp, trivial, h.synced, h.answered⟩

theorem inv_step (w : World) (l : Label) (h : Inv w) : Inv (step w l) := by
  obtain ⟨hpos, hqueued, hrunning, hidle, hbatch, hsynced, hanswered⟩ := id h
  cases l with
  | append => exact ⟨forall_mem_cons.2 ⟨Nat.succ_pos _, hpos⟩, hqueued, hrunning, hidle, hbatch, hsynced, hanswered⟩
  | appendReturns seq =>
    rw [step]
    split_ifs with hseq
    · have hgrows : w.returned ⊆ seq :: w.returned := subset_cons_self _ _
      refine ⟨?_, fun x hx => hgrows (hqueued hx), hrunning, hidle, ?_, hsynced, hanswered⟩
      · rw [forall_mem_append] at hpos ⊢
        exact ⟨hpos.1, forall_mem_cons.2 ⟨hpos.1 seq hseq, hpos.2⟩⟩
      · cases hr : w.round <;> rw [hr] at hbatch
        case taken => exact fun x hx => hgrows (hbatch hx)
        all_goals exact hbatch
    · exact h
  | syncTo seq =>
    rw [step]
    split_ifs with hseq
    · exact inv_syncTo h hseq
    · exact h
  | collect =>
    rw [step]
    split
    · split_ifs with hnone
      · exact ⟨hpos, hqueued, by simp, fun _ => hnone, trivial, hsynced, hanswered⟩
      · exact ⟨hpos, nil_subset _, by simp_all, by simp, hqueued, hsynced, hanswered⟩
    · exact h
  | startSync =>
    rw [step]
    split
    · rename_i batch hr
      rw [hr] at hbatch
      exact ⟨hpos, hqueued, by simp_all, by simp, hbatch, hsynced, hanswered⟩
    · exact h
  | endSync ok =>
    rw [step]
    split
    · rename_i batch seen hr
      rw [hr] at hbatch
      cases ok with
      | false => exact ⟨hpos, hqueued, by simp_all, by simp, nofun, hsynced, hanswered⟩
      | true =>
        exact ⟨hpos, hqueued, by simp_all, by simp, fun _ seq hseq => ⟨seen, .head _, seq, hbatch hseq, le_rfl⟩,
          hsynced.imp_right (·.cons seen), fun a ha hok => (hanswered a ha hok).cons seen⟩
    · exact h
  | record =>
    rw [step]
    split
    · rename_i batch ok hr
      rw [hr] at hbatch
      refine ⟨hpos, hqueued, by simp_all, by simp, hbatch, ?_, hanswered⟩
      split_ifs with hnew
      · exact (maxSeq_mem batch).imp_right (hbatch hnew.1 _)
      · exact hsynced
    · exact h
  | answer =>
    rw [step]
    split
    · exact ⟨hpos, hqueued, by simp_all, by simp, trivial, hsynced, hanswered⟩
    · rename_i seq batch ok hr
      rw [hr] at hbatch
      exact ⟨hpos, hqueued, by simp_all, by simp, fun hok => (forall_mem_cons.1 (hbatch hok)).2, hsynced,
        forall_mem_cons.2 ⟨fun hok => hbatch hok seq (.head _), hanswered⟩⟩
    · exact h

theorem inv_new : Inv {} := ⟨by simp, nil_subset _, by simp, fun _ => rfl, trivial, .inl rfl, by simp⟩

/-- **No write is acknowledged unsynced and no waiter is stranded.** In every interleaving, for every `SyncTo` that returned
nil some `doSync` that came back without error was called after an append with its sequence or a later one had returned; and
while no round is running nobody is queued. -/
theorem sync_covers_answers (ls : List Label) :
    (∀ seq, (seq, true) ∈ (run step {} ls).answers → Covered (run step {} ls).successes seq) ∧
      ((run step {} ls).round = .idle → (run step {} ls).waiters = []) := by
  have hinv : Inv (run step {} ls) := run_of_step_all inv_step ls inv_new
  exact ⟨fun seq hseq => hinv.answered (seq, true) hseq rfl, hinv.idle⟩

/-- two calls, the second one while the first one's sync fails; the second round succeeds -/
example :
    let w := run step {} [.append, .append, .appendReturns 2, .syncTo 2, .collect, .startSync, .appendReturns 1, .syncTo 1,
      .endSync false, .record, .answer, .answer, .collect, .startSync, .endSync true, .record, .answer, .answer, .collect]
    w.answers = [(1, true), (2, false)] ∧ w.successes = [[1, 2]] ∧ w.waiters = [] := by
  decide

end Kdb.GroupCommitter
