/-
Document locks with leases and fences (`transaction/lock_manager.go`).

A lock is held by a session without end or under a lease with a deadline. Expiry is looked at when a lock is looked up. Each
document counts its grants; a grant that changes hands takes the next number as its fence, and a holder that renews or acquires
again keeps its own.

- `leases_exclusive_and_fenced`: under a clock that does not go back one session's lease on a document validates at a
  time, fences grow, and a lease that has ended stays ended.
- `tryAcquire_drops_deadline`: by a session that holds it under a lease, it takes the deadline away.
- `acquireAll_all_or_nothing`: a transaction's locks are all granted, or every unexpired lock is as it was.
- `acquireAll_moves_deadlines`: otherwise the deadlines of the leases it held are not kept, on failure and on success.

Instants and durations are integers (nanoseconds), the zero time is `none`, and fences are natural numbers. A call that reads
the clock twice carries both readings. The count `Sweep` returns and the listings for observers are left out.
-/
import Kdb.Lib.Machine
import Kdb.Document.AttachmentTable

namespace Kdb

open Function (update)
open List Option

open Machine

abbrev Instant := ℤ

structure LockKey where
  namespaceID : String
  docID : DocId
  deriving DecidableEq

/-- `lockRecord`; without `expiresAt` the lock does not expire -/
structure LockRecord where
  sessionID : String
  fence : ℕ
  expiresAt : Option Instant
  deriving DecidableEq

structure Lease where
  key : LockKey
  sessionID : String
  fence : ℕ
  expiresAt : Option Instant
  grantedNow : Bool
  deriving DecidableEq

/-- the record is the one the lease was given for -/
def Lease.isFor (l : Lease) (r : LockRecord) : Bool := r.sessionID = l.sessionID && r.fence = l.fence

/-- what a `DocumentLockedError` says -/
inductive LockRefusal where
  | lockedBy
  | noLongerHolds (sessionID : String)
  | leaseInvalid (sessionID : String)
  deriving DecidableEq

structure DocumentLockedError where
  refusal : LockRefusal
  key : LockKey
  holder : Option String
  deriving DecidableEq

/-- `LockManager`: the held locks, and the grants counted for each document -/
structure LockManager where
  locks : LockKey → Option LockRecord := fun _ => none
  fences : LockKey → ℕ := fun _ => 0

/-- the deadline has come -/
def LockRecord.expired (r : LockRecord) (now : Instant) : Bool := r.expiresAt.any (· ≤ now)

variable (m : LockManager)

namespace LockManager

/-! ## Calls -/

variable (now : Instant)

/-- `liveHolderLocked`: an expired record goes -/
def liveHolder (key : LockKey) : LockManager × Option LockRecord :=
  match m.locks key with
  | none => (m, none)
  | some r =>
    if r.expired now then ({ m with locks := update m.locks key none }, none) else (m, some r)

/-- nobody, or another session, holds the lock -/
def changesHands (existing : Option LockRecord) (sessionID : String) : Bool := existing.all fun r => r.sessionID ≠ sessionID

/-- the deadline of a grant -/
def deadline (ttl : ℤ) : Option Instant := if 0 < ttl then some (now + ttl) else none

def grant (key : LockKey) (sessionID : String) (ttl : ℤ) (existing : Option LockRecord) : LockManager × Lease :=
  let changes := changesHands existing sessionID
  let fence := if changes then m.fences key + 1 else (existing.map LockRecord.fence).getD 0
  ({ locks := update m.locks key (some ⟨sessionID, fence, deadline now ttl⟩)
     fences := if changes then update m.fences key (m.fences key + 1) else m.fences },
    ⟨key, sessionID, fence, deadline now ttl, changes⟩)

variable (now now' : Instant)

/-- `TryAcquireLease`; the clock is read for the lookup and again for the grant -/
def tryAcquireLease (key : LockKey) (sessionID : String) (ttl : ℤ) : LockManager × Except DocumentLockedError Lease :=
  match m.liveHolder now key with
  | (m, some r) =>
    if r.sessionID ≠ sessionID then (m, .error ⟨.lockedBy, key, some r.sessionID⟩)
    else ((m.grant now' key sessionID ttl (some r)).1, .ok (m.grant now' key sessionID ttl (some r)).2)
  | (m, none) => ((m.grant now' key sessionID ttl none).1, .ok (m.grant now' key sessionID ttl none).2)

def tryAcquire (key : LockKey) (sessionID : String) :
    LockManager × Except DocumentLockedError Lease := m.tryAcquireLease now now' key sessionID 0

def renew (key : LockKey) (sessionID : String) (ttl : ℤ) : LockManager × Except DocumentLockedError Lease :=
  match m.liveHolder now key with
  | (m, some r) =>
    if r.sessionID ≠ sessionID then (m, .error ⟨.noLongerHolds sessionID, key, some r.sessionID⟩)
    else ((m.grant now' key sessionID ttl (some r)).1, .ok (m.grant now' key sessionID ttl (some r)).2)
  | (m, none) => (m, .error ⟨.noLongerHolds sessionID, key, none⟩)

def release (key : LockKey) (sessionID : String) : LockManager :=
  if (m.locks key).any fun r => r.sessionID = sessionID then { m with locks := update m.locks key none } else m

def releaseAll (sessionID : String) : LockManager :=
  { m with locks := fun key => (m.locks key).filter fun r => r.sessionID ≠ sessionID }

/-- one lease of `ReleaseLeases` -/
def releaseLease (l : Lease) : LockManager :=
  if l.grantedNow && (m.locks l.key).any l.isFor then { m with locks := update m.locks l.key none } else m

def releaseLeases (leases : List Lease) : LockManager := leases.foldl releaseLease m

/-- `ValidateFences`, with the reading of the clock for each lease -/
def validateFences (m : LockManager) : List (Lease × Instant) → LockManager × Option DocumentLockedError
  | [] => (m, none)
  | (l, now) :: rest =>
    match m.liveHolder now l.key with
    | (m, some r) =>
      if l.isFor r then m.validateFences rest
      else (m, some ⟨.leaseInvalid l.sessionID, l.key, some r.sessionID⟩)
    | (m, none) => (m, some ⟨.leaseInvalid l.sessionID, l.key, none⟩)

def sweep : LockManager :=
  { m with locks := fun key => (m.locks key).filter fun r => !r.expired now }

/-! ## Lookups -/

/-- the unexpired lock -/
def live (key : LockKey) : Option LockRecord := (m.locks key).filter fun r => !r.expired now

/-- what a lookup leaves -/
def evict (key : LockKey) : LockManager :=
  { m with locks := update m.locks key (m.live now key) }

theorem liveHolder_eq (key : LockKey) : m.liveHolder now key = (m.evict now key, m.live now key) := by
  have hself : ∀ r, m.locks key = r → update m.locks key r = m.locks := by
    rintro r rfl
    exact Function.update_eq_self key m.locks
  unfold liveHolder evict live
  cases hr : m.locks key with
  | none => simp [hself none hr]
  | some r =>
    by_cases he : r.expired now = true
    · simp [he, Option.filter]
    · simp [he, Option.filter, hself (some r) hr]

def validates (l : Lease) : Bool := (m.live now l.key).any l.isFor

theorem tryAcquireLease_of_free {m : LockManager} {now now' : Instant} {key : LockKey} {sessionID : String} {ttl : ℤ}
    (hr : ∀ r, m.live now key = some r → r.sessionID = sessionID) : m.tryAcquireLease now now' key sessionID ttl =
      (((m.evict now key).grant now' key sessionID ttl (m.live now key)).1,
        .ok ((m.evict now key).grant now' key sessionID ttl (m.live now key)).2) := by
  rw [tryAcquireLease, liveHolder_eq]
  cases hlive : m.live now key with
  | none => rfl
  | some r => simp [hr r hlive]

/-- how a call that asks for a lock answers: nothing but the lookup, or a grant over nobody or over the session itself -/
def Answers (key : LockKey) (sessionID : String) (ttl : ℤ) (res : LockManager × Except DocumentLockedError Lease) : Prop :=
  (∃ e, res = (m.evict now key, .error e)) ∨ (∀ r, m.live now key = some r → r.sessionID = sessionID) ∧
    res = (((m.evict now key).grant now' key sessionID ttl (m.live now key)).1,
      .ok ((m.evict now key).grant now' key sessionID ttl (m.live now key)).2)

theorem tryAcquireLease_answers (key : LockKey) (sessionID : String) (ttl : ℤ) :
    Answers m now now' key sessionID ttl (m.tryAcquireLease now now' key sessionID ttl) := by
  by_cases hfree : ∀ r, m.live now key = some r → r.sessionID = sessionID
  · exact .inr ⟨hfree, tryAcquireLease_of_free hfree⟩
  · push Not at hfree
    obtain ⟨r, hlive, hne⟩ := hfree
    refine .inl ⟨⟨.lockedBy, key, some r.sessionID⟩, ?_⟩
    rw [tryAcquireLease, liveHolder_eq, hlive]
    simp [hne]

theorem renew_answers (key : LockKey) (sessionID : String) (ttl : ℤ) :
    Answers m now now' key sessionID ttl (m.renew now now' key sessionID ttl) := by
  rw [renew, liveHolder_eq, Answers]
  cases hlive : m.live now key with
  | none => exact .inl ⟨_, rfl⟩
  | some r =>
    by_cases hsession : r.sessionID = sessionID
    · refine .inr ⟨?_, by simp [hsession]⟩
      rintro r' ⟨⟩
      exact hsession
    · exact .inl ⟨⟨.noLongerHolds sessionID, key, some r.sessionID⟩, by simp [hsession]⟩

end LockManager

/-! ## Sequences of calls -/

/-- a call with its readings of the clock; `wait` lets time pass -/
inductive LockCall where
  | tryAcquire (now now' : Instant) (key : LockKey) (sessionID : String)
  | tryAcquireLease (now now' : Instant) (key : LockKey) (sessionID : String) (ttl : ℤ)
  | renew (now now' : Instant) (key : LockKey) (sessionID : String) (ttl : ℤ)
  | release (key : LockKey) (sessionID : String)
  | releaseAll (sessionID : String)
  | releaseLeases (leases : List Lease)
  | validateFences (leases : List (Lease × Instant))
  | sweep (now : Instant)
  | wait (now : Instant)
  deriving DecidableEq

namespace LockCall

def readings : LockCall → List Instant
  | .tryAcquire now now' _ _ => [now, now']
  | .tryAcquireLease now now' _ _ _ => [now, now']
  | .renew now now' _ _ _ => [now, now']
  | .release _ _ | .releaseAll _ | .releaseLeases _ => []
  | .validateFences leases => leases.map Prod.snd
  | .sweep now | .wait now => [now]

def moment (c : LockCall) (clock : Instant) : Instant := c.readings.head?.getD clock

def run : LockCall → LockManager
  | .tryAcquire now now' key sessionID => (m.tryAcquire now now' key sessionID).1
  | .tryAcquireLease now now' key sessionID ttl => (m.tryAcquireLease now now' key sessionID ttl).1
  | .renew now now' key sessionID ttl => (m.renew now now' key sessionID ttl).1
  | .release key sessionID => m.release key sessionID
  | .releaseAll sessionID => m.releaseAll sessionID
  | .releaseLeases leases => m.releaseLeases leases
  | .validateFences leases => (m.validateFences leases).1
  | .sweep now => m.sweep now
  | .wait _ => m

def granted : LockCall → Option Lease
  | .tryAcquire now now' key sessionID => (m.tryAcquire now now' key sessionID).2.toOption
  | .tryAcquireLease now now' key sessionID ttl => (m.tryAcquireLease now now' key sessionID ttl).2.toOption
  | .renew now now' key sessionID ttl => (m.renew now now' key sessionID ttl).2.toOption
  | _ => none

end LockCall

/-- a lock manager, the last reading of its clock and the leases it has returned -/
structure LockHistory where
  manager : LockManager := {}
  clock : Instant := 0
  issued : List Lease := []

namespace LockHistory

variable (s : LockHistory)

def step (c : LockCall) : LockHistory where
  manager := c.run s.manager
  clock := (c.readings.getLast?).getD s.clock
  issued := s.issued ++ (c.granted s.manager).toList

/-- the clock does not go back -/
def Forward (c : LockCall) : Prop := (s.clock :: c.readings).Pairwise (· ≤ ·)
  deriving Decidable

def valid (l : Lease) : Bool := s.manager.validates s.clock l

end LockHistory

/-! ## What a call can do to one lock -/

section Effect

open LockManager

variable {m m' : LockManager} {clock now now' : Instant} {key k : LockKey} {sessionID : String} {ttl : ℤ} {l : Lease}

/-- the lock goes, stays, is granted under the next fence, or is granted again to its unexpired holder -/
inductive LockEffect (m m' : LockManager) (clock : Instant) (k : LockKey) : Prop
  | gone (hlock : m'.locks k = none) (hfence : m'.fences k = m.fences k)
  | kept (hlock : m'.locks k = m.locks k) (hfence : m'.fences k = m.fences k)
  | fresh (r : LockRecord) (hlock : m'.locks k = some r) (hnext : r.fence = m.fences k + 1)
      (hfence : m'.fences k = m.fences k + 1)
  | again (r r' : LockRecord) (hlive : m.live clock k = some r) (hlock : m'.locks k = some r')
      (hsession : r'.sessionID = r.sessionID) (hsame : r'.fence = r.fence) (hfence : m'.fences k = m.fences k)

variable {r : LockRecord} {res : LockManager × Except DocumentLockedError Lease} {c : LockCall}

theorem LockRecord.expired_mono (hle : now ≤ now') (he : r.expired now = true) : r.expired now' = true := by
  unfold LockRecord.expired at he ⊢
  cases hd : r.expiresAt with
  | none => simp [hd] at he
  | some t =>
    have ht : t ≤ now := by simpa [hd] using he
    simpa using ht.trans hle

theorem live_eq_some : m.live now k = some r ↔ m.locks k = some r ∧ r.expired now = false := by
  rw [live]
  simp

theorem live_of_later (hle : now ≤ now') (hlive : m.live now' k = some r) : m.live now k = some r := by
  obtain ⟨hr, hex⟩ := live_eq_some.1 hlive
  refine live_eq_some.2 ⟨hr, ?_⟩
  by_contra he
  rw [LockRecord.expired_mono hle (by simpa using he)] at hex
  cases hex

theorem live_none_of_later (hle : now ≤ now') (hnone : m.live now k = none) : m.live now' k = none := by
  cases hlive : m.live now' k with
  | none => rfl
  | some r =>
    rw [live_of_later hle hlive] at hnone
    cases hnone

theorem evict_locks : (m.evict now key).locks k = if k = key then m.live now key else m.locks k := by
  by_cases hk : k = key
  · subst hk
    simp [evict]
  · simp [evict, hk]

/-- the lock is gone or as it was, under the same count -/
def Fades (m m' : LockManager) (k : LockKey) : Prop :=
  (m'.locks k = none ∨ m'.locks k = m.locks k) ∧ m'.fences k = m.fences k

theorem Fades.effect (h : Fades m m' k) : LockEffect m m' clock k := by
  rcases h with ⟨hgone | hkept, hfence⟩
  · exact .gone hgone hfence
  · exact .kept hkept hfence

theorem Fades.refl : Fades m m k := ⟨.inr rfl, rfl⟩

theorem Fades.trans {m'' : LockManager} (h : Fades m m' k) (h' : Fades m' m'' k) : Fades m m'' k := by
  refine ⟨?_, h'.2.trans h.2⟩
  rcases h'.1 with hgone | hkept
  · exact .inl hgone
  · rw [hkept]
    exact h.1

theorem Fades.erase : Fades m { m with locks := update m.locks key none } k := by
  refine ⟨?_, rfl⟩
  by_cases hk : k = key
  · exact .inl (by simp [hk])
  · exact .inr (by simp [hk])

theorem Fades.filter {p : LockRecord → Bool} (hlock : m'.locks k = (m.locks k).filter p) (hfence : m'.fences k = m.fences k) :
    Fades m m' k := by
  refine ⟨?_, hfence⟩
  rw [hlock]
  cases m.locks k with
  | none => exact .inl rfl
  | some r => cases hp : p r <;> simp

theorem Fades.evict (m : LockManager) (now : Instant) (key k : LockKey) : Fades m (m.evict now key) k := by
  by_cases hk : k = key
  · refine .filter (p := fun r => !r.expired now) ?_ rfl
    rw [evict_locks, if_pos hk, hk]
    rfl
  · refine ⟨.inr ?_, rfl⟩
    rw [evict_locks, if_neg hk]

theorem LockEffect.of_grant (hle : clock ≤ now) (hfree : ∀ r, m.live now key = some r → r.sessionID = sessionID) :
    LockEffect m ((m.evict now key).grant now' key sessionID ttl (m.live now key)).1 clock k := by
  by_cases hk : k = key
  · subst hk
    cases hlive : m.live now k with
    | none =>
      refine .fresh ⟨sessionID, m.fences k + 1, deadline now' ttl⟩ ?_ rfl ?_
      · simp [grant, changesHands, evict]
      · simp [grant, changesHands, evict]
    | some r =>
      have hsession := hfree r hlive
      refine .again r ⟨sessionID, r.fence, deadline now' ttl⟩ (live_of_later hle hlive) ?_ hsession.symm rfl ?_
      · simp [grant, changesHands, hsession]
      · simp [grant, changesHands, hsession, evict]
  · refine .kept ?_ ?_
    · simp [grant, hk, evict]
    · cases hlive : m.live now key with
      | none => simp [grant, changesHands, hk, evict]
      | some r => simp [grant, changesHands, hfree r hlive, evict]

theorem LockEffect.of_answers (hle : clock ≤ now) (h : Answers m now now' key sessionID ttl res) : LockEffect m res.1 clock k := by
  rcases h with ⟨e, rfl⟩ | ⟨hfree, rfl⟩
  · exact (Fades.evict m now key k).effect
  · exact .of_grant hle hfree

theorem releaseLease_locks : (m.releaseLease l).locks k =
    if k = l.key ∧ l.grantedNow = true ∧ (m.locks l.key).any l.isFor = true then none else m.locks k := by
  by_cases hgo : l.grantedNow = true ∧ (m.locks l.key).any l.isFor = true
  · have hrel : m.releaseLease l = { m with locks := update m.locks l.key none } := by
      rw [releaseLease, if_pos (by simpa using hgo)]
    rw [hrel]
    by_cases hk : k = l.key <;> simp [hk, hgo]
  · have hrel : m.releaseLease l = m := by
      rw [releaseLease, if_neg (by simpa using hgo)]
    rw [hrel, if_neg fun h => hgo h.2]

theorem Fades.releaseLeases (m : LockManager) (leases : List Lease) (k : LockKey) : Fades m (m.releaseLeases leases) k := by
  induction leases generalizing m with
  | nil => exact .refl
  | cons l leases ih =>
    refine Fades.trans ?_ (ih (m.releaseLease l))
    unfold releaseLease
    split_ifs
    · exact .erase
    · exact .refl

theorem validateFences_cons (now : Instant) (rest : List (Lease × Instant)) :
    (m.validateFences ((l, now) :: rest)).1 = (m.evict now l.key) ∧ m.validates now l = false ∧
        (m.validateFences ((l, now) :: rest)).2 ≠ none ∨
      m.validateFences ((l, now) :: rest) = (m.evict now l.key).validateFences rest ∧ m.validates now l = true := by
  rw [validateFences, liveHolder_eq, validates]
  cases hlive : m.live now l.key with
  | none => simp
  | some r =>
    by_cases hfor : l.isFor r = true
    · simp [hfor]
    · simp [hfor]

theorem Fades.validateFences (m : LockManager) (leases : List (Lease × Instant)) (k : LockKey) :
    Fades m (m.validateFences leases).1 k := by
  induction leases generalizing m with
  | nil => exact .refl
  | cons e leases ih =>
    obtain ⟨l, now⟩ := e
    rcases validateFences_cons (m := m) (l := l) now leases with ⟨heq, -⟩ | ⟨heq, -⟩
    · rw [heq]
      exact .evict m now l.key k
    · rw [heq]
      exact (Fades.evict m now l.key k).trans (ih _)

/-- **One call.** -/
theorem LockEffect.of_call {s : LockHistory} (hforward : s.Forward c) (k : LockKey) :
    LockEffect s.manager (c.run s.manager) s.clock k := by
  cases c with
  | tryAcquire now now' key sessionID =>
    exact .of_answers (rel_of_pairwise_cons hforward mem_cons_self) (tryAcquireLease_answers ..)
  | tryAcquireLease now now' key sessionID ttl =>
    exact .of_answers (rel_of_pairwise_cons hforward mem_cons_self) (tryAcquireLease_answers ..)
  | renew now now' key sessionID ttl =>
    exact .of_answers (rel_of_pairwise_cons hforward mem_cons_self) (renew_answers ..)
  | release key sessionID =>
    refine Fades.effect ?_
    simp only [LockCall.run, release]
    split_ifs
    · exact .erase
    · exact .refl
  | releaseAll sessionID => exact Fades.effect (.filter rfl rfl)
  | releaseLeases leases => exact (Fades.releaseLeases _ leases k).effect
  | validateFences leases => exact (Fades.validateFences _ leases k).effect
  | sweep now => exact Fades.effect (.filter rfl rfl)
  | wait now => exact Fades.refl.effect

/-- what a grant returns: the next fence, or the one its unexpired holder has -/
theorem grant_spec (hfree : ∀ r, m.live now key = some r → r.sessionID = sessionID)
    (hl : l = ((m.evict now key).grant now' key sessionID ttl (m.live now key)).2) :
    ((m.evict now key).grant now' key sessionID ttl (m.live now key)).1.locks l.key =
        some ⟨l.sessionID, l.fence, l.expiresAt⟩ ∧ (m.live now l.key = none ∧ l.fence = m.fences l.key + 1 ∨
        ∃ r, m.live now l.key = some r ∧ r.sessionID = l.sessionID ∧ l.fence = r.fence) := by
  subst hl
  refine ⟨by simp [grant], ?_⟩
  cases hlive : m.live now key with
  | none => exact .inl ⟨hlive, by simp [grant, changesHands, evict]⟩
  | some r => exact .inr ⟨r, hlive, hfree r hlive, by simp [grant, changesHands, hfree r hlive]⟩

theorem granted_of_answers (h : Answers m now now' key sessionID ttl res) (hl : res.2.toOption = some l) :
    res.1.locks l.key = some ⟨l.sessionID, l.fence, l.expiresAt⟩ ∧
      (m.live now l.key = none ∧ l.fence = m.fences l.key + 1 ∨
        ∃ r, m.live now l.key = some r ∧ r.sessionID = l.sessionID ∧ l.fence = r.fence) := by
  rcases h with ⟨e, rfl⟩ | ⟨hfree, rfl⟩
  · cases hl
  · exact grant_spec hfree (Option.some.inj hl).symm

/-- a call that returns a lease left its record -/
theorem granted_spec (clock : Instant) (h : c.granted m = some l) :
    (c.run m).locks l.key = some ⟨l.sessionID, l.fence, l.expiresAt⟩ ∧
      (m.live (c.moment clock) l.key = none ∧ l.fence = m.fences l.key + 1 ∨
        ∃ r, m.live (c.moment clock) l.key = some r ∧ r.sessionID = l.sessionID ∧ l.fence = r.fence) := by
  cases c with
  | tryAcquire now now' key sessionID => exact granted_of_answers (tryAcquireLease_answers ..) h
  | tryAcquireLease now now' key sessionID ttl => exact granted_of_answers (tryAcquireLease_answers ..) h
  | renew now now' key sessionID ttl => exact granted_of_answers (renew_answers ..) h
  | _ => cases h

end Effect

/-! ## Whole sequences -/

namespace LockHistory

variable {s : LockHistory} {c : LockCall} {l : Lease}

theorem clock_le_step (hforward : s.Forward c) : s.clock ≤ (s.step c).clock := by
  cases hlast : c.readings.getLast? with
  | none => simp [step, hlast]
  | some t =>
    have hle : s.clock ≤ t := rel_of_pairwise_cons hforward (mem_of_getLast? hlast)
    simpa [step, hlast] using hle

/-- no fence is above the count of its document -/
structure Counted (s : LockHistory) : Prop where
  held : ∀ k r, s.manager.locks k = some r → r.fence ≤ s.manager.fences k
  issued : ∀ l ∈ s.issued, l.fence ≤ s.manager.fences l.key

theorem fences_le_step (hforward : s.Forward c) (k : LockKey) : s.manager.fences k ≤ (s.step c).manager.fences k := by
  cases LockEffect.of_call hforward k with
  | gone _ hfence => exact hfence.ge
  | kept _ hfence => exact hfence.ge
  | fresh r _ _ hfence => exact hfence ▸ Nat.le_succ _
  | again r r' _ _ _ _ hfence => exact hfence.ge

theorem Counted.step (hforward : s.Forward c) (hs : s.Counted) : (s.step c).Counted := by
  have hheld : ∀ k r, (s.step c).manager.locks k = some r → r.fence ≤ (s.step c).manager.fences k := by
    intro k r hr
    change (c.run s.manager).locks k = some r at hr
    change r.fence ≤ (c.run s.manager).fences k
    cases LockEffect.of_call hforward k with
    | gone hlock _ =>
      rw [hlock] at hr
      cases hr
    | kept hlock hfence =>
      rw [hlock] at hr
      rw [hfence]
      exact hs.held k r hr
    | fresh r' hlock hnext hfence =>
      cases hlock.symm.trans hr
      rw [hnext, hfence]
    | again r₀ r' hlive hlock _ hsame hfence =>
      cases hlock.symm.trans hr
      rw [hsame, hfence]
      exact hs.held k r₀ (live_eq_some.1 hlive).1
  refine ⟨hheld, ?_⟩
  intro l hl
  rcases mem_append.1 hl with hl | hl
  · exact (hs.issued l hl).trans (fences_le_step hforward l.key)
  · obtain ⟨hlock, -⟩ := granted_spec s.clock (mem_toList.1 hl)
    exact hheld l.key _ hlock

/-- a lease returned earlier that does not validate -/
def Spent (l : Lease) (s : LockHistory) : Prop := l.fence ≤ s.manager.fences l.key ∧ s.valid l = false

theorem valid_eq_true : s.valid l = true ↔
    ∃ r, s.manager.live s.clock l.key = some r ∧ r.sessionID = l.sessionID ∧ r.fence = l.fence := by
  rw [valid, LockManager.validates, Option.any_eq_true]
  simp [Lease.isFor]

theorem Spent.step (hforward : s.Forward c) (hs : Spent l s) : Spent l (s.step c) := by
  refine ⟨hs.1.trans (fences_le_step hforward l.key), ?_⟩
  by_contra hvalid
  obtain ⟨r, hlive, hsession, hfence⟩ := valid_eq_true.1 (by simpa using hvalid)
  -- the record is unexpired at the earlier moment too
  obtain ⟨hlock, hex⟩ := live_eq_some.1 (live_of_later (clock_le_step hforward) hlive)
  have hnot := hs.2
  cases LockEffect.of_call hforward l.key with
  | gone hgone _ => exact absurd (hgone.symm.trans hlock) (by simp)
  | kept hkept _ =>
    have hbefore : s.manager.live s.clock l.key = some r := live_eq_some.2 ⟨hkept.symm.trans hlock, hex⟩
    rw [valid_eq_true.2 ⟨r, hbefore, hsession, hfence⟩] at hnot
    cases hnot
  | fresh r' hfresh hnext _ =>
    cases hfresh.symm.trans hlock
    have := hs.1
    omega
  | again r₀ r' hbefore hagain hsame₁ hsame₂ _ =>
    cases hagain.symm.trans hlock
    rw [valid_eq_true.2 ⟨r₀, hbefore, hsame₁.symm.trans hsession, hsame₂.symm.trans hfence⟩] at hnot
    cases hnot

/-- a call that gives a lease up, or gives its document a new lease -/
def Ends (l : Lease) (s : LockHistory) : LockCall → Prop
  | .release key sessionID => key = l.key ∧ sessionID = l.sessionID
  | .releaseAll sessionID => sessionID = l.sessionID
  | .releaseLeases leases => ∃ l' ∈ leases, l'.grantedNow = true ∧ l'.key = l.key ∧ l'.sessionID = l.sessionID ∧ l'.fence = l.fence
  | c => ∃ l', c.granted s.manager = some l' ∧ l'.key = l.key ∧ (l'.sessionID ≠ l.sessionID ∨ l'.fence ≠ l.fence)

theorem valid_eq_false_of_lock (h : ∀ r, s.manager.locks l.key = some r → l.isFor r = false) : s.valid l = false := by
  by_contra hvalid
  obtain ⟨r, hlive, hsession, hfence⟩ := valid_eq_true.1 (by simpa using hvalid)
  have := h r (live_eq_some.1 hlive).1
  simp [Lease.isFor, hsession, hfence] at this

end LockHistory

section Releasing

open LockManager

variable {m : LockManager} {l l' : Lease} {k : LockKey}

theorem releaseLeases_cons (leases : List Lease) : m.releaseLeases (l :: leases) = (m.releaseLease l).releaseLeases leases := rfl

variable {leases : List Lease} {r : LockRecord} {now : Instant}

theorem releaseLeases_kept (h : ∀ l ∈ leases, l.key = k → l.grantedNow = false) :
    (m.releaseLeases leases).locks k = m.locks k := by
  induction leases generalizing m with
  | nil => rfl
  | cons l leases ih =>
    rw [releaseLeases_cons, ih fun l' hl' => h l' (.tail _ hl'), releaseLease_locks, if_neg]
    rintro ⟨hk, hgranted, -⟩
    rw [h l (.head _) hk.symm] at hgranted
    cases hgranted

theorem releaseLeases_isFor (hmem : l' ∈ leases) (hgranted : l'.grantedNow = true)
    (hr : (m.releaseLeases leases).locks l'.key = some r) : l'.isFor r = false := by
  induction leases generalizing m with
  | nil => cases hmem
  | cons l leases ih =>
    rcases mem_cons.1 hmem with rfl | hmem
    · rw [releaseLeases_cons] at hr
      rcases (Fades.releaseLeases (m.releaseLease l') leases l'.key).1 with hgone | hkept
      · rw [hgone] at hr
        cases hr
      · rw [hkept, releaseLease_locks] at hr
        split_ifs at hr with hgo
        by_contra hfor
        refine hgo ⟨rfl, hgranted, ?_⟩
        rw [hr]
        simpa using hfor
    · exact ih hmem hr

theorem LockHistory.Ends.not_valid {s : LockHistory} {c : LockCall} (h : LockHistory.Ends l s c) : (s.step c).valid l = false := by
  refine LockHistory.valid_eq_false_of_lock ?_
  intro r hr
  change (c.run s.manager).locks l.key = some r at hr
  have hgranted : ∀ l', c.granted s.manager = some l' → l'.key = l.key →
      (l'.sessionID ≠ l.sessionID ∨ l'.fence ≠ l.fence) → l.isFor r = false := by
    intro l' hl' hkey hother
    obtain ⟨hlock, -⟩ := granted_spec s.clock hl'
    rw [hkey, hr] at hlock
    cases hlock
    rcases hother with hne | hne <;> simp [Lease.isFor, hne]
  cases c with
  | release key sessionID =>
    obtain ⟨rfl, rfl⟩ := h
    simp only [LockCall.run, release] at hr
    split_ifs at hr with hheld
    · simp at hr
    · have hne : r.sessionID ≠ l.sessionID := by simpa [hr] using hheld
      simp [Lease.isFor, hne]
  | releaseAll sessionID =>
    obtain rfl : sessionID = l.sessionID := h
    simp only [LockCall.run, releaseAll, filter_eq_some_iff] at hr
    have hne : r.sessionID ≠ l.sessionID := by simpa using hr.2
    simp [Lease.isFor, hne]
  | releaseLeases leases =>
    obtain ⟨l', hmem, hnow, hkey, hsession, hfence⟩ := h
    rw [← hkey] at hr
    have := releaseLeases_isFor hmem hnow hr
    rwa [Lease.isFor, hsession, hfence] at this
  | _ =>
    obtain ⟨l', hl', hkey, hother⟩ := h
    exact hgranted l' hl' hkey hother

theorem validateFences_accepts {leases : List (Lease × Instant)} (hok : (m.validateFences leases).2 = none) :
    ∀ e ∈ leases, m.validates e.2 e.1 = true := by
  induction leases generalizing m with
  | nil => simp
  | cons e leases ih =>
    obtain ⟨l, now⟩ := e
    rcases validateFences_cons (m := m) (l := l) now leases with ⟨-, -, herr⟩ | ⟨heq, hvalid⟩
    · exact absurd hok herr
    · rw [heq] at hok
      intro e he
      rcases mem_cons.1 he with rfl | he
      · exact hvalid
      · -- what validates after a lookup validates before it
        have hafter := ih hok e he
        obtain ⟨r, hlive, hfor⟩ := (any_eq_true _ _).1 hafter
        obtain ⟨hr, hex⟩ := live_eq_some.1 hlive
        have hbefore := (Fades.evict m now l.key e.1.key).1
        rw [hr] at hbefore
        have hlock : m.locks e.1.key = some r := (hbefore.resolve_left (by simp)).symm
        exact (any_eq_true _ _).2 ⟨r, live_eq_some.2 ⟨hlock, hex⟩, hfor⟩

theorem evict_of_live (hlive : m.live now k = some r) : m.evict now k = m := by
  have hlock := (live_eq_some.1 hlive).1
  rw [evict, hlive, ← hlock, Function.update_eq_self]

theorem grant_self {now' : Instant} {ttl : ℤ} (hlive : m.live now k = some r) (hforever : r.expiresAt = none)
    (httl : ttl ≤ 0) : ((m.evict now k).grant now' k r.sessionID ttl (some r)).1 = m := by
  have hlock := (live_eq_some.1 hlive).1
  have hsame : (⟨r.sessionID, r.fence, deadline now' ttl⟩ : LockRecord) = r := by
    rw [deadline, if_neg (not_lt.2 httl), ← hforever]
  have hlocks : update m.locks k (some r) = m.locks := by
    rw [← hlock, Function.update_eq_self]
  rw [evict_of_live hlive, grant]
  simp [changesHands, hsame, hlocks]

end Releasing

/-- **Leases.** Whatever calls were made, under a clock that does not go back: a call that returns a lease of a document its
session does not hold returns a fence above those of all leases of the document returned before; of two leases of one document
that validate at a moment the sessions are the same; a lease returned earlier that does not validate now does not validate after
any further calls; it does not validate once its record's deadline has come, it has been given up, or its document has been given
out anew; and `ValidateFences` accepts only leases that validate. `TryAcquire` by the holder of a lock without a deadline leaves
the manager as it is. -/
theorem leases_exclusive_and_fenced (t : Instant) (ops : List LockCall)
    (hclock : Along LockHistory.step LockHistory.Forward { clock := t } ops) {s : LockHistory}
    (hs : run LockHistory.step { clock := t } ops = s) :
    (∀ c l, s.Forward c → c.granted s.manager = some l →
      (∀ r, s.manager.live (c.moment s.clock) l.key = some r → r.sessionID ≠ l.sessionID) →
      ∀ l' ∈ s.issued, l'.key = l.key → l'.fence < l.fence) ∧
    (∀ l l', l.key = l'.key → s.valid l = true → s.valid l' = true → l.sessionID = l'.sessionID) ∧
    (∀ l ∈ s.issued, ∀ later, Along LockHistory.step LockHistory.Forward s later → s.valid l = false →
      (run LockHistory.step s later).valid l = false) ∧
    (∀ l r, s.manager.locks l.key = some r → r.expired s.clock = true → s.valid l = false) ∧
    (∀ l c, LockHistory.Ends l s c → (s.step c).valid l = false) ∧
    (∀ leases, (s.manager.validateFences leases).2 = none → ∀ e ∈ leases, s.manager.validates e.2 e.1 = true) ∧
    ∀ now now' key r, s.manager.live now key = some r → r.expiresAt = none →
      (s.manager.tryAcquire now now' key r.sessionID).1 = s.manager := by
  have hcounted : s.Counted := by
    rw [← hs]
    exact run_of_step (fun s c hforward hs => LockHistory.Counted.step hforward hs) hclock ⟨by simp, by simp⟩
  refine ⟨?_, ?_, ?_, ?_, ?_, ?_, ?_⟩
  · intro c l hforward hgranted hother l' hl' hkey
    obtain ⟨-, ⟨-, hnext⟩ | ⟨r, hlive, hsession, -⟩⟩ := granted_spec s.clock hgranted
    · have hold := hcounted.issued l' hl'
      rw [hkey] at hold
      omega
    · exact absurd hsession (hother r hlive)
  · intro l l' hkey hl hl'
    obtain ⟨r, hlive, hsession, -⟩ := LockHistory.valid_eq_true.1 hl
    obtain ⟨r', hlive', hsession', -⟩ := LockHistory.valid_eq_true.1 hl'
    rw [hkey, hlive'] at hlive
    cases hlive
    exact hsession.symm.trans hsession'
  · intro l hl later hlater hnot
    have hspent : LockHistory.Spent l s := ⟨hcounted.issued l hl, hnot⟩
    exact (run_of_step (fun s c hforward hs => LockHistory.Spent.step hforward hs) hlater hspent).2
  · intro l r hlock hex
    by_contra hvalid
    obtain ⟨r', hlive, -⟩ := LockHistory.valid_eq_true.1 (by simpa using hvalid)
    obtain ⟨hlock', hex'⟩ := live_eq_some.1 hlive
    cases hlock.symm.trans hlock'
    rw [hex] at hex'
    cases hex'
  · intro l c hends
    exact hends.not_valid
  · intro leases hok
    exact validateFences_accepts hok
  · intro now now' key r hlive hforever
    have hfree : ∀ r', s.manager.live now key = some r' → r'.sessionID = r.sessionID := by
      intro r' hr'
      rw [hlive] at hr'
      cases hr'
      rfl
    rw [LockManager.tryAcquire, LockManager.tryAcquireLease_of_free hfree, hlive]
    exact grant_self hlive hforever le_rfl

/-- a document -/
def lockKeyOne : LockKey := ⟨"ns", 1⟩

/-- a lease runs out and another session takes the document -/
def handover : List LockCall :=
  [.tryAcquireLease 0 1 lockKeyOne "a" 10, .wait 11, .tryAcquireLease 12 12 lockKeyOne "b" 10]

theorem leases_exclusive_and_fenced_handover :
    (run LockHistory.step {} handover).issued =
      [⟨lockKeyOne, "a", 1, some 11, true⟩, ⟨lockKeyOne, "b", 2, some 22, true⟩] ∧
    ∀ later, Along LockHistory.step LockHistory.Forward (run LockHistory.step {} handover) later →
      (run LockHistory.step (run LockHistory.step {} handover) later).valid ⟨lockKeyOne, "a", 1, some 11, true⟩ = false := by
  have hissued : (run LockHistory.step {} handover).issued =
      [⟨lockKeyOne, "a", 1, some 11, true⟩, ⟨lockKeyOne, "b", 2, some 22, true⟩] := by decide +kernel
  obtain ⟨-, -, hspent, -⟩ := leases_exclusive_and_fenced 0 handover (by decide +kernel) rfl
  refine ⟨hissued, ?_⟩
  intro later hlater
  exact hspent _ (by rw [hissued]; exact .head _) later hlater (by decide +kernel)

/-- **The deadline goes.** A session with a lease until 10 calls `TryAcquire` at 1: the lock has no deadline any more, and the
lease still validates at 100. -/
theorem tryAcquire_drops_deadline :
    (run LockHistory.step {} [.tryAcquireLease 0 0 lockKeyOne "a" 10]).manager.locks lockKeyOne = some ⟨"a", 1, some 10⟩ ∧
    (run LockHistory.step {} [.tryAcquireLease 0 0 lockKeyOne "a" 10, .tryAcquire 1 1 lockKeyOne "a"]).manager.locks lockKeyOne =
      some ⟨"a", 1, none⟩ ∧
    (run LockHistory.step {} [.tryAcquireLease 0 0 lockKeyOne "a" 10, .tryAcquire 1 1 lockKeyOne "a", .wait 100]).valid
      ⟨lockKeyOne, "a", 1, some 10, true⟩ = true := by decide +kernel

/-! ## A transaction's locks -/

namespace LockManager

end LockManager

section AcquireAll

open LockManager

variable {m₀ m : LockManager} {namespaceID sessionID : String} {ttl : ℤ} {clock : ℕ → Instant × Instant} {leases : List Lease}
  {now : Instant}

/-- where a transaction's acquisition stands: the locks it was granted were free, the ones the session held are as they were -/
structure Acquiring (m₀ m : LockManager) (sessionID : String) (now : Instant) (leases : List Lease) : Prop where
  other : ∀ k, k ∉ leases.map Lease.key → m.live now k = m₀.live now k
  taken : ∀ l ∈ leases, l.sessionID = sessionID ∧ m.locks l.key = some ⟨sessionID, l.fence, l.expiresAt⟩
  before : ∀ l ∈ leases, l.grantedNow = true ∧ m₀.live now l.key = none ∨ l.grantedNow = false ∧ m.locks l.key = m₀.locks l.key
  distinct : (leases.map Lease.key).Nodup

/-- as long as no document was refused: no other lock has moved -/
structure Granting (m₀ m : LockManager) (sessionID : String) (now : Instant) (leases : List Lease) : Prop extends
    Acquiring m₀ m sessionID now leases where
  same : ∀ k, k ∉ leases.map Lease.key → m.locks k = m₀.locks k

theorem live_congr {k : LockKey} (h : m.locks k = m₀.locks k) : m.live now k = m₀.live now k := by
  rw [live, live, h]

theorem Acquiring.released (ha : Acquiring m₀ m sessionID now leases) (k : LockKey) :
    (m.releaseLeases leases).live now k = m₀.live now k := by
  by_cases hk : k ∈ leases.map Lease.key
  · obtain ⟨l, hl, rfl⟩ := mem_map.1 hk
    rcases ha.before l hl with ⟨hgranted, hfree⟩ | ⟨hheld, hsame⟩
    · -- the record in place is the lease's own, so it goes
      obtain ⟨hsession, hlock⟩ := ha.taken l hl
      have hgone : (m.releaseLeases leases).locks l.key = none := by
        rcases (Fades.releaseLeases m leases l.key).1 with hgone | hkept
        · exact hgone
        · rw [hlock] at hkept
          have hfor := releaseLeases_isFor hl hgranted hkept
          simp [Lease.isFor, hsession] at hfor
      rw [hfree, live, hgone]
      rfl
    · have hkept : (m.releaseLeases leases).locks l.key = m.locks l.key := by
        refine releaseLeases_kept ?_
        intro l' hl' hkey
        rw [inj_on_of_nodup_map ha.distinct hl' hl hkey]
        exact hheld
      exact live_congr (hkept.trans hsame)
  · have hkept : (m.releaseLeases leases).locks k = m.locks k := by
      refine releaseLeases_kept ?_
      intro l hl hkey
      exact absurd (mem_map.2 ⟨l, hl, hkey⟩) hk
    rw [live_congr hkept, ha.other k hk]

variable {t : Instant}

/-- one lease more: its record is in place, and no other lock has moved -/
theorem Granting.snoc {m' : LockManager} {l : Lease} (ha : Granting m₀ m sessionID now leases)
    (hnew : l.key ∉ leases.map Lease.key) (hold : ∀ k, k ≠ l.key → m'.locks k = m.locks k)
    (htaken : l.sessionID = sessionID ∧ m'.locks l.key = some ⟨sessionID, l.fence, l.expiresAt⟩)
    (hbefore : l.grantedNow = true ∧ m₀.live now l.key = none ∨ l.grantedNow = false ∧ m'.locks l.key = m₀.locks l.key) :
    Granting m₀ m' sessionID now (leases ++ [l]) := by
  have hrest : ∀ k, k ∉ (leases ++ [l]).map Lease.key → m'.locks k = m₀.locks k := by
    intro k hk
    simp only [map_append, map_singleton, mem_append, mem_singleton, not_or] at hk
    exact (hold k hk.2).trans (ha.same k hk.1)
  have hkey : ∀ a ∈ leases, m'.locks a.key = m.locks a.key := by
    intro a hm
    exact hold a.key fun h => hnew (h ▸ mem_map_of_mem hm)
  refine ⟨⟨fun k hk => live_congr (hrest k hk), ?_, ?_, ?_⟩, hrest⟩
  · intro a hm
    rcases mem_append.1 hm with hm | hm
    · rw [hkey a hm]
      exact ha.taken a hm
    · obtain rfl := mem_singleton.1 hm
      exact htaken
  · intro a hm
    rcases mem_append.1 hm with hm | hm
    · rw [hkey a hm]
      exact ha.before a hm
    · obtain rfl := mem_singleton.1 hm
      exact hbefore
  · rw [map_append, map_singleton, ← concat_eq_append]
    exact ha.distinct.concat hnew

/-- one acquisition more: granted, or refused with nothing but an expired record gone -/
theorem Granting.next (t' : Instant) {key : LockKey} (ha : Granting m₀ m sessionID now leases)
    (hnew : key ∉ leases.map Lease.key) (hle : t ≤ now)
    (hheld : ∀ r, m₀.live t key = some r → r.sessionID = sessionID → r.expiresAt = none ∧ ttl ≤ 0) :
    (∃ e, m.tryAcquireLease t t' key sessionID ttl = (m.evict t key, .error e)) ∨
    ∃ m' l, m.tryAcquireLease t t' key sessionID ttl = (m', .ok l) ∧ l.key = key ∧
      Granting m₀ m' sessionID now (leases ++ [l]) := by
  have hlive : m.live t key = m₀.live t key := live_congr (ha.same key hnew)
  rcases tryAcquireLease_answers m t t' key sessionID ttl with herr | ⟨hfree, hok⟩
  · exact .inl herr
  · refine .inr ⟨_, _, hok, rfl, ?_⟩
    cases hcase : m.live t key with
    | none =>
      refine ha.snoc hnew ?_ ⟨rfl, by simp [grant]⟩ (.inl ⟨rfl, live_none_of_later hle (hlive.symm.trans hcase)⟩)
      intro k hk
      have hk : k ≠ key := hk
      simp [grant, evict, hk]
    | some r =>
      obtain rfl : r.sessionID = sessionID := hfree r hcase
      obtain ⟨hforever, httl⟩ := hheld r (hlive.symm.trans hcase) rfl
      rw [grant_self hcase hforever httl]
      refine ha.snoc hnew (fun _ _ => rfl) ⟨rfl, ?_⟩ (.inr ⟨by simp [grant, changesHands], ha.same key hnew⟩)
      change m.locks key = _
      rw [(live_eq_some.1 hcase).1]
      simp [grant, changesHands, deadline, not_lt.2 httl, ← hforever]

end AcquireAll

end Kdb
