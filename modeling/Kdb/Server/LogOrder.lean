/-
The hand-over of commits to the delta log (`server/server_runtime.go` commitAtGateFront, `server/namespace_set.go`
serverPrepared.Apply, `embed/group_commit.go` applyGroup, `embed/persisting_dag.go`).

At the front of the gate a call appends its commit to the DAG, applies it to the indexes and only then queues it for the
log. A request is admitted (drain, fence) before it waits for the gate and is not checked again at its front. `Errors`
says which step after the append fails. An index update that fails returns at once: the commit stays in the DAG and is
never queued. For a part of a cross-namespace group the namespace is fenced, but only if a part of the group was applied
before; the fence turns new requests away, not those already waiting. A queueing that fails latches the log: nothing is
queued after it.
- `ancestor_restrict`: appending gives a stored commit no new ancestors.
- `log_closed_under_ancestry`: every commit queued has its ancestors queued before it or durable from the start, as long
  as no index update fails behind its append.
- `commit_logged_without_parent`: an index update fails, and the next commit is queued without its parent.
-/
import Kdb.Lib.Machine
import Kdb.Transaction.EngineSpec
import Kdb.Transaction.Trees

namespace Kdb

open Machine List Option

/-! ## Requests at the gate -/

/-- an admitted request: Commit or Upsert, Replay, or a part of a cross-namespace group, based on main's head at the
front of the gate when it names no base version -/
inductive Admitted where
  | commit (E : Engine) (tx : Transaction)
  | replay (E : Engine) (tx : Transaction) (target : Hash)
  | part (E : Engine) (tx : Transaction) (atHead : Bool)

/-- what fails after the append: the index update, the queueing; and, for a group part, whether another part of its
group was applied before it and whether one fails after it -/
structure Errors where
  index : Bool
  enqueue : Bool
  appliedBefore : Bool
  failsAfter : Bool
  deriving DecidableEq

/-- a namespace with its gate queue and its log writer: what was handed to the log, whether the log has failed, and
whether the namespace is fenced -/
structure LogRuntime (σ : Type) where
  ns : Namespace σ
  waiting : List Admitted
  log : List Hash
  logFailed : Bool
  fenced : Bool

/-- the steps: a request passes admission, the `i`-th waiting request runs at the front of the gate, a group fails after
its part here was handed over -/
inductive LogStep where
  | enter (a : Admitted)
  | gate (i : ℕ) (message : String) (errors : Errors)
  | fence

section LogRuntime

variable {σ : Type} (S : SchemaOps σ)

/-- `PrepareCommit` then `Apply`, under one hold of the gate; an earlier commit of the transaction is not looked for -/
def Engine.commitPart (E : Engine) (ns : Namespace σ) (tx : Transaction) (message : String) :
    Namespace σ × Except EngineError TransactionResult :=
  match ns.dag.get tx.baseVersion with
  | none => (ns, .error (.baseNotFound tx.baseVersion))
  | some baseCommit =>
    match ns.dag.get ns.dag.main with
    | none => (ns, .error (.versionNotFound ns.dag.main))
    | some targetCommit =>
      E.finalizeTransaction S ns tx ns.dag.main baseCommit.tree baseCommit.tree targetCommit.tree message

/-- the engine call of a request -/
def Admitted.call (ns : Namespace σ) (message : String) : Admitted → Namespace σ × Except EngineError TransactionResult
  | .commit E tx => E.commit S ns tx message
  | .replay E tx target => E.replay S ns tx target message
  | .part E tx atHead => E.commitPart S ns (if atHead then { tx with baseVersion := ns.dag.main } else tx) message

/-- whether a request is a part of a group -/
def Admitted.isPart : Admitted → Bool
  | .part _ _ _ => true
  | _ => false

/-- `commitAtGateFront`, and `serverPrepared.Apply` with `AddPart` for a group part -/
def LogRuntime.atGateFront (s : LogRuntime σ) (message : String) (errors : Errors) (a : Admitted) : LogRuntime σ :=
  match a.call S s.ns message with
  | (ns, .ok (.success h)) =>
    if errors.index then
      -- the error returns before the commit is queued
      { s with ns := ns, fenced := s.fenced || a.isPart && errors.appliedBefore }
    else if errors.enqueue || s.logFailed then
      { s with ns := ns, logFailed := true, fenced := s.fenced || a.isPart }
    else
      { s with ns := ns, log := s.log ++ [h], fenced := s.fenced || a.isPart && errors.failsAfter }
  | (ns, _) => { s with ns := ns }

def LogRuntime.step (s : LogRuntime σ) : LogStep → LogRuntime σ
  | .enter a => if s.fenced then s else { s with waiting := s.waiting ++ [a] }
  | .gate i message errors =>
    match s.waiting[i]? with
    | some a => { s with waiting := s.waiting.eraseIdx i }.atGateFront S message errors a
    | none => s
  | .fence => { s with fenced := true }

/-- a runtime over a namespace opened with everything it holds durable -/
def LogRuntime.opened (ns : Namespace σ) : LogRuntime σ := ⟨ns, [], [], false, false⟩

end LogRuntime

section Closed

variable {σ : Type} {S : SchemaOps σ}

/-! ## Ancestors of stored commits -/

def Dag.ParentsStored (d : Dag) : Prop := ∀ h c, d.get h = some c → ∀ p ∈ c.parents, (d.get p).isSome

variable {h : Hash} {d : Dag} {ns ns' : Namespace σ} {log : List Hash} {s : LogRuntime σ}

/-- appending gives a stored commit no new ancestors -/
theorem ancestor_restrict {s t : Dag} (he : Dag.Extends s t) (hs : s.ParentsStored) {a : Hash} (hh : (s.get h).isSome)
    (ha : t.Ancestor a h) : s.Ancestor a h := by
  induction ha with
  | refl => exact .refl
  | @parent h p c hc hp _ ih =>
    obtain ⟨c', hc'⟩ := isSome_iff_exists.1 hh
    obtain rfl : c' = c := Option.some.inj ((he _ _ hc').symm.trans hc)
    exact .parent hc' hp (ih (hs h c' hc' p hp))

theorem ancestor_stored (hd : d.ParentsStored) {a : Hash} (hh : (d.get h).isSome) (ha : d.Ancestor a h) : (d.get a).isSome := by
  induction ha with
  | refl => exact hh
  | parent hc hp _ ih => exact ih (hd _ _ hc _ hp)

theorem Dag.Appended.parentsStored {d' : Dag} {c : Commit} {e : Option Hash} (ha : Dag.Appended d d' h c e)
    (hd : d.ParentsStored) : d'.ParentsStored := by
  intro x cx hx p hp
  have hold : (d.get p).isSome := by
    rcases ha.only x cx hx with hx | ⟨-, rfl⟩
    · exact hd x cx hx p hp
    · exact ha.parents p hp
  obtain ⟨cp, hcp⟩ := isSome_iff_exists.1 hold
  rw [ha.grows p cp hcp]
  rfl

/-! ## What a call at the gate does -/

/-- a call leaves the DAG alone, or appends the commit it answers with; what it answers with is stored -/
inductive CallEffect (ns : Namespace σ) : Namespace σ × Except EngineError TransactionResult → Prop
  | refused {r : Except EngineError TransactionResult} (hr : ∀ h, r ≠ .ok (.success h)) : CallEffect ns (ns, r)
  | found {h : Hash} (hh : (ns.dag.get h).isSome) : CallEffect ns (ns, .ok (.success h))
  | landed {ns' : Namespace σ} {h : Hash} {c : Commit} {e : Option Hash} (hclean : ns'.store.Clean)
    (ha : Dag.Appended ns.dag ns'.dag h c e) : CallEffect ns (ns', .ok (.success h))

theorem Outcome.callEffect {E : Engine} {tx : Transaction} {anchor baseVersion : Hash} {message : String}
    {r : Namespace σ × Except EngineError TransactionResult} (ho : Outcome S E ns tx anchor baseVersion message r) :
    CallEffect ns r := by
  cases ho with
  | refused hr => exact .refused hr
  | found hf =>
    obtain ⟨c, hc, -⟩ := findExistingCommit_get hf
    exact .found (by rw [hc]; rfl)
  | landed _ _ _ _ hl => exact .landed hl.clean hl.appended

theorem commitPart_effect (E : Engine) (hclean : ns.store.Clean) (tx : Transaction) (message : String) :
    CallEffect ns (E.commitPart S ns tx message) := by
  unfold Engine.commitPart
  cases hb : ns.dag.get tx.baseVersion with
  | none => exact .refused (by simp)
  | some b =>
    cases ha : ns.dag.get ns.dag.main with
    | none => exact .refused (by simp)
    | some a =>
      simp only [Engine.finalizeTransaction]
      cases hplan : E.plan S ns tx ns.dag.main b.tree b.tree a.tree with
      | error reason => exact .refused (by simp)
      | ok p =>
        obtain ⟨ns', h, happ, hl⟩ := (planned hplan).apply_lands ha hclean message
        simp only [happ]
        exact .landed hl.clean hl.appended

theorem call_effect (hclean : ns.store.Clean) (message : String) (a : Admitted) :
    CallEffect ns (a.call S ns message) := by
  cases a with
  | commit E tx => exact (commit_outcome E hclean tx message).callEffect
  | replay E tx target => exact (replay_outcome E hclean tx target message).callEffect
  | part E tx atHead => exact commitPart_effect E hclean _ message

/-- what a call that answers with commit `h` leaves: `h` is stored, and no other commit is new -/
structure Answered (ns ns' : Namespace σ) (h : Hash) : Prop where
  clean : ns'.store.Clean
  grows : Dag.Extends ns.dag ns'.dag
  parents : ns'.dag.ParentsStored
  stored : (ns'.dag.get h).isSome
  only : ∀ x, (ns'.dag.get x).isSome → x = h ∨ (ns.dag.get x).isSome

theorem CallEffect.answered (hclean : ns.store.Clean) (hd : ns.dag.ParentsStored)
    (he : CallEffect ns (ns', .ok (.success h))) : Answered ns ns' h := by
  cases he with
  | refused hr => exact absurd rfl (hr h)
  | found hh => exact ⟨hclean, .refl _, hd, hh, fun x hx => .inr hx⟩
  | landed hclean' ha =>
    refine ⟨hclean', ha.grows, ha.parentsStored hd, by rw [ha.stored]; rfl, ?_⟩
    intro x hx
    obtain ⟨c, hc⟩ := isSome_iff_exists.1 hx
    rcases ha.only x c hc with hold | ⟨hxh, -⟩
    · exact .inr (by rw [hold]; rfl)
    · exact .inl hxh

/-! ## The log is closed under ancestry -/

variable (durable : Hash → Prop)

/-- every commit of the log is stored, and each of its ancestors is itself, durable, or earlier in the log -/
def LogClosed (d : Dag) (log : List Hash) : Prop :=
  ∀ before h after, log = before ++ h :: after →
    (d.get h).isSome ∧ ∀ a, d.Ancestor a h → a = h ∨ durable a ∨ a ∈ before

/-- every stored commit is durable or in the log -/
def Covered (d : Dag) (log : List Hash) : Prop := ∀ h, (d.get h).isSome → durable h ∨ h ∈ log

variable {durable}

theorem LogClosed.mono {d' : Dag} (he : Dag.Extends d d') (hd : d.ParentsStored) (hl : LogClosed durable d log) :
    LogClosed durable d' log := by
  intro before h after heq
  obtain ⟨hst, hanc⟩ := hl before h after heq
  obtain ⟨c, hc⟩ := isSome_iff_exists.1 hst
  refine ⟨by rw [he _ _ hc]; rfl, ?_⟩
  intro a ha
  exact hanc a (ancestor_restrict he hd hst ha)

/-- queueing a stored commit whose ancestors are all durable or queued -/
theorem LogClosed.snoc (hl : LogClosed durable d log) (hst : (d.get h).isSome)
    (hanc : ∀ a, d.Ancestor a h → a = h ∨ durable a ∨ a ∈ log) : LogClosed durable d (log ++ [h]) := by
  intro before x after heq
  rcases eq_nil_or_concat after with rfl | ⟨after', y, rfl⟩
  · obtain ⟨rfl, hx⟩ := append_inj' heq rfl
    obtain rfl : h = x := by simpa using hx
    exact ⟨hst, hanc⟩
  · have hsplit : log ++ [h] = (before ++ x :: after') ++ [y] := by rw [heq]; simp
    obtain ⟨rfl, -⟩ := append_inj' hsplit rfl
    exact hl before x after' rfl

/-- what holds between steps: storage is clean, parents are stored, the log is closed; and either the log covers the DAG
or nothing will be queued any more -/
structure LogInv (durable : Hash → Prop) (s : LogRuntime σ) : Prop where
  clean : s.ns.store.Clean
  parents : s.ns.dag.ParentsStored
  closed : LogClosed durable s.ns.dag s.log
  covered : Covered durable s.ns.dag s.log ∨ s.logFailed = true ∨ (s.fenced = true ∧ s.waiting = [])

/-- an index update that fails after the append belongs to a group part behind another applied part, and no other
request waits at the gate -/
def IndexFailsFenced (s : LogRuntime σ) : LogStep → Prop
  | .gate i _ errors =>
    errors.index = true → errors.appliedBefore = true ∧ (∀ a ∈ s.waiting[i]?, a.isPart = true) ∧ s.waiting.length ≤ 1
  | _ => True

instance (s : LogRuntime σ) (st : LogStep) : Decidable (IndexFailsFenced s st) := by
  cases st <;> unfold IndexFailsFenced <;> infer_instance

/-- a commit answered with is queued behind everything it stands on, while the log covers the DAG -/
theorem Answered.logged (ha : Answered ns ns' h) (hd : ns.dag.ParentsStored) (hcl : LogClosed durable ns.dag log)
    (hcov : Covered durable ns.dag log) :
    LogClosed durable ns'.dag (log ++ [h]) ∧ Covered durable ns'.dag (log ++ [h]) := by
  constructor
  · apply (hcl.mono ha.grows hd).snoc ha.stored
    intro a hanc
    rcases ha.only a (ancestor_stored ha.parents ha.stored hanc) with rfl | hold
    · exact .inl rfl
    · exact .inr (hcov a hold)
  · intro x hx
    rcases ha.only x hx with rfl | hold
    · exact .inr (by simp)
    · exact (hcov x hold).imp_right (mem_append_left _)

/-- the step at the front of the gate -/
theorem LogInv.atGateFront (hinv : LogInv durable s) (hcov : Covered durable s.ns.dag s.log ∨ s.logFailed = true)
    (message : String) (errors : Errors) (a : Admitted)
    (hidx : errors.index = true → errors.appliedBefore = true ∧ a.isPart = true ∧ s.waiting = []) :
    LogInv durable (s.atGateFront S message errors a) := by
  have heff := call_effect (S := S) hinv.clean message a
  unfold LogRuntime.atGateFront
  generalize a.call S s.ns message = r at heff
  obtain ⟨ns', res⟩ := r
  by_cases hres : ∃ h, res = .ok (.success h)
  · obtain ⟨h, rfl⟩ := hres
    have hans := heff.answered hinv.clean hinv.parents
    have hmono := hinv.closed.mono hans.grows hinv.parents
    simp only
    split
    · rename_i hi
      obtain ⟨hb, hp, hw⟩ := hidx hi
      exact ⟨hans.clean, hans.parents, hmono, .inr (.inr ⟨by simp [hb, hp], hw⟩)⟩
    · split
      · exact ⟨hans.clean, hans.parents, hmono, .inr (.inl rfl)⟩
      · rename_i hq
        have hnf : s.logFailed ≠ true := fun hf => hq (by simp [hf])
        obtain ⟨hcl, hcov'⟩ := hans.logged hinv.parents hinv.closed (hcov.resolve_right hnf)
        exact ⟨hans.clean, hans.parents, hcl, .inl hcov'⟩
  · have hns : ns' = s.ns := by
      cases heff with
      | refused _ => rfl
      | found _ => rfl
      | landed _ _ => exact absurd ⟨_, rfl⟩ hres
    subst hns
    split
    · rename_i heq
      exact absurd ⟨_, (Prod.mk.inj heq).2⟩ hres
    · rename_i heq
      obtain ⟨rfl, -⟩ := Prod.mk.inj heq
      exact ⟨hinv.clean, hinv.parents, hinv.closed, hcov.imp_right .inl⟩

theorem LogInv.step (hinv : LogInv durable s) (st : LogStep) (hg : IndexFailsFenced s st) :
    LogInv durable (s.step S st) := by
  cases st with
  | enter a =>
    simp only [LogRuntime.step]
    split_ifs with hf
    · exact hinv
    · refine ⟨hinv.clean, hinv.parents, hinv.closed, ?_⟩
      rcases hinv.covered with h | h | h
      · exact .inl h
      · exact .inr (.inl h)
      · exact absurd h.1 hf
  | gate i message errors =>
    simp only [LogRuntime.step]
    cases hi : s.waiting[i]? with
    | none => exact hinv
    | some a =>
      -- a request was waiting, so the namespace is not fenced off: the log covers the DAG or has failed
      have hmem : a ∈ s.waiting := mem_of_getElem? hi
      have hcov : Covered durable s.ns.dag s.log ∨ s.logFailed = true := by
        rcases hinv.covered with h | h | h
        · exact .inl h
        · exact .inr h
        · rw [h.2] at hmem
          cases hmem
      have hrest : LogInv durable { s with waiting := s.waiting.eraseIdx i } :=
        ⟨hinv.clean, hinv.parents, hinv.closed, hcov.imp_right .inl⟩
      apply hrest.atGateFront hcov
      intro hidx
      obtain ⟨hb, hp, hlen⟩ := hg hidx
      have hlt : i < s.waiting.length := (List.getElem?_eq_some_iff.1 hi).1
      refine ⟨hb, hp a hi, eq_nil_of_length_eq_zero ?_⟩
      rw [length_eraseIdx_of_lt hlt]
      omega
  | fence =>
    refine ⟨hinv.clean, hinv.parents, hinv.closed, ?_⟩
    rcases hinv.covered with h | h | h
    · exact .inl h
    · exact .inr (.inl h)
    · exact .inr (.inr ⟨rfl, h.2⟩)

/-- **The delta log is closed under ancestry.** From any namespace opened with what it holds durable, in every
interleaving of commits, upserts, replays and group parts in which an index update fails after its append only for a
group part behind another applied part, with no other request waiting: every commit handed to the log has each of its
ancestors durable from the start or handed over before it. -/
theorem log_closed_under_ancestry (S : SchemaOps σ) (start : Namespace σ) (hclean : start.store.Clean)
    (hparents : start.dag.ParentsStored) (steps : List LogStep)
    (hg : Along (LogRuntime.step S) IndexFailsFenced (LogRuntime.opened start) steps) :
    let s := run (LogRuntime.step S) (LogRuntime.opened start) steps
    ∀ before h after, s.log = before ++ h :: after → ∀ a, s.ns.dag.Ancestor a h → a ≠ h →
      (start.dag.get a).isSome ∨ a ∈ before := by
  intro s before h after heq a ha hne
  have hstart : LogInv (fun x => (start.dag.get x).isSome) (LogRuntime.opened start) :=
    ⟨hclean, hparents, by simp [LogClosed, LogRuntime.opened], .inl fun x hx => .inl hx⟩
  have hinv : LogInv (fun x => (start.dag.get x).isSome) s :=
    run_of_step (I := LogInv fun x => (start.dag.get x).isSome) (fun t st ht hi => hi.step st ht) hg hstart
  exact ((hinv.closed before h after heq).2 a ha).resolve_left hne

/-! ## Closed runs -/

/-- nothing fails -/
def Errors.clear : Errors := ⟨false, false, false, false⟩

/-- two commits; the index update of the first fails, or nothing fails -/
def twoCommits (first : Errors) : List LogStep :=
  [.enter (.commit .strict (writeTx 51 0 1 [("a", .num 1)])), .gate 0 "" first,
    .enter (.commit .strict (writeTx 52 1 2 [("b", .num 2)])), .gate 0 "" .clear]

/-- The first commit's index update fails after its append, so it is never queued; the next commit stands on it and is
the first record of the log. -/
theorem commit_logged_without_parent :
    let s := run (LogRuntime.step .schemaless) (LogRuntime.opened (.init .server true ()))
      (twoCommits { Errors.clear with index := true })
    s.log = [2] ∧ s.ns.dag.parents 2 = [1] ∧ ((Namespace.init .server true ()).dag.get 1).isNone := by
  decide +kernel

theorem log_closed_under_ancestry_twoCommits :
    let s := run (LogRuntime.step .schemaless) (LogRuntime.opened (.init .server true ())) (twoCommits .clear)
    s.log = [1] ++ 2 :: [] ∧ ((((Namespace.init .server true ()).dag.get 1).isSome ∨ 1 ∈ [1])) :=
  ⟨by decide +kernel, log_closed_under_ancestry .schemaless (.init .server true ()) ⟨rfl, rfl⟩
    (by
      intro h c hc p hp
      cases h with
      | zero =>
        obtain rfl : _ = c := Option.some.inj hc
        cases hp
      | succ h => simp [Namespace.init, Dag.genesis, Dag.get] at hc)
    (twoCommits .clear) (by decide +kernel) [1] 2 [] (by decide +kernel) 1
    (.parent (c := ((run (LogRuntime.step .schemaless) (LogRuntime.opened (.init .server true ()))
      (twoCommits .clear)).ns.dag.get 2).get (by decide +kernel)) (by simp) (by decide +kernel) .refl) (by decide)⟩

end Closed

end Kdb
