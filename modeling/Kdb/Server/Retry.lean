/-
Resubmitted transactions (`transaction/default_engine.go` findExistingCommit, `dag/in_memory_commit_dag.go`
GetCommitByTransactionID, `server/server_runtime.go` commitAtGateFront).

The engine recognises a retry by the transaction's id and by the parents the retry would have: `Commit` compares the
earlier commit's parents with main's head as it is now, `Replay` with the target it is given. The server queues every
success for the log, a recognised retry's commit too. A history is a run of Commit, Replay and Merge calls by any
engines, of commits adopted from peers and of head moves. Commits are never dropped here (squashes and stubs are left
out), so a commit stays held once it is stored.
- `retry_found`: a retry that would stand on the same parent returns the first commit and leaves the namespace as it is;
  it is logged once more.
- `retried_transaction_applied_once`: so it changes nothing at all where no log is kept.
- `retry_commits_again`: after its own commit has moved main, a retry of `Commit` commits a second time.
-/
import Kdb.Transaction.Trees

namespace Kdb

open Machine

/-! ## Histories -/

/-- a namespace and its delta log; `none` when nothing is logged (`DurabilityMemoryOnly`) -/
structure Logged (σ : Type) where
  ns : Namespace σ
  log : Option (List Hash)

/-- one step of a history: a call through the server, a commit stored by peer sync (`PutCommit`), main moved to a stored
commit that storage then serves -/
inductive HistoryStep where
  | submit (c : Call)
  | adopt (c : Commit)
  | moveHead (h : Hash)

section History

variable {σ : Type} (S : SchemaOps σ) (hexLe : Hash → Hash → Bool)

/-- a call through the server: what succeeds is queued for the log -/
def Logged.submit (s : Logged σ) (c : Call) : Logged σ × Except EngineError TransactionResult :=
  match c.exec S hexLe s.ns with
  | (ns, .ok (.success h)) => (⟨ns, s.log.map (· ++ [h])⟩, .ok (.success h))
  | (ns, r) => (⟨ns, s.log⟩, r)

def Logged.step (s : Logged σ) : HistoryStep → Logged σ
  | .submit c => (s.submit S hexLe c).1
  | .adopt c =>
    if c.parents.all fun p => (s.ns.dag.get p).isSome then
      { ns := { s.ns with dag := (s.ns.dag.putCommit c).1 }
        log := s.log.map (· ++ [(s.ns.dag.putCommit c).2]) }
    else s
  | .moveHead h =>
    match s.ns.dag.get h with
    | some c =>
      { s with ns := { s.ns with dag := { s.ns.dag with main := h }, store := { s.ns.store with live := c.tree } } }
    | none => s

end History

section Retry

variable {σ : Type} {S : SchemaOps σ} {hexLe : Hash → Hash → Bool}

/-! ## Histories only add commits -/

/-- `ns'` is clean and holds what `ns` held -/
def Grown (ns ns' : Namespace σ) : Prop := ns'.store.Clean ∧ Dag.Extends ns.dag ns'.dag

theorem Grown.trans {a b c : Namespace σ} (h1 : Grown a b) (h2 : Grown b c) : Grown a c := ⟨h2.1, h1.2.trans h2.2⟩

variable {ns : Namespace σ} {tx : Transaction} {s : Logged σ} {h : Hash}

theorem Outcome.grown {E : Engine} {anchor baseVersion : Hash} {message : String}
    {r : Namespace σ × Except EngineError TransactionResult} (hclean : ns.store.Clean)
    (ho : Outcome S E ns tx anchor baseVersion message r) : Grown ns r.1 := by
  cases ho with
  | refused _ => exact ⟨hclean, .refl _⟩
  | found _ => exact ⟨hclean, .refl _⟩
  | landed _ _ _ _ hl => exact ⟨hl.clean, hl.appended.grows⟩

theorem Grown.mergeRule (ns : Namespace σ) (E : Engine) (primary merged : Hash) :
    MergeRule S E primary merged (fun ns' _ => Grown ns ns') (Grown ns) where
  clean h := h.1
  ends h := h
  replay h ho := ⟨h.trans (ho.grown h.1), fun _ _ => h.trans (ho.grown h.1)⟩
  cap h _ _ ha := ⟨h.1, h.2.trans ha.grows⟩

theorem exec_grown (hclean : ns.store.Clean) (c : Call) : Grown ns (c.exec S hexLe ns).1 := by
  cases c with
  | commit E tx message => exact (commit_outcome E hclean tx message).grown hclean
  | replay E tx target message => exact (replay_outcome E hclean tx target message).grown hclean
  | merge E primary merged markerId now message => exact (Grown.mergeRule ns E primary merged).merge ⟨hclean, .refl _⟩

theorem submit_ns (s : Logged σ) (c : Call) : (s.submit S hexLe c).1.ns = (c.exec S hexLe s.ns).1 := by
  unfold Logged.submit
  split <;> rename_i heq <;> rw [heq]

theorem submit_result (s : Logged σ) (c : Call) : (s.submit S hexLe c).2 = (c.exec S hexLe s.ns).2 := by
  unfold Logged.submit
  split <;> rename_i heq <;> rw [heq]

theorem Logged.step_grown (hclean : s.ns.store.Clean) (st : HistoryStep) : Grown s.ns (s.step S hexLe st).ns := by
  cases st with
  | submit c =>
    simp only [Logged.step, submit_ns]
    exact exec_grown hclean c
  | adopt c =>
    simp only [Logged.step]
    split
    · exact ⟨hclean, Dag.putCommit_extends s.ns.dag c⟩
    · exact ⟨hclean, .refl _⟩
  | moveHead h =>
    simp only [Logged.step]
    split
    · exact ⟨hclean, fun _ _ hg => hg⟩
    · exact ⟨hclean, .refl _⟩

theorem Logged.run_grown (hclean : s.ns.store.Clean) (steps : List HistoryStep) :
    Grown s.ns (run (Logged.step S hexLe) s steps).ns := by
  refine run_of_step_all (I := fun t : Logged σ => Grown s.ns t.ns) ?_ steps ⟨hclean, .refl _⟩
  intro t st ht
  exact ht.trans (Logged.step_grown ht.1 st)

/-! ## The commit of a transaction id -/

/-- a landed commit of a new transaction id is the one the id stands for -/
theorem commitByTransactionId_appended {d d' : Dag} {ps : List Hash} {tree : Tree} {sh : Option ℕ} {m : String}
    {e : Option Hash} (ha : Dag.Appended d d' h (d.buildCommit tx ps tree sh m) e)
    (hnew : d.commitByTransactionId tx.id = none) : d'.commitByTransactionId tx.id = some h := by
  have hstored : ∃ hlt : h < d'.commits.length, d'.commits[h] = d.buildCommit tx ps tree sh m :=
    List.getElem?_eq_some_iff.1 ha.stored
  obtain ⟨hlt, heq⟩ := hstored
  refine List.findIdx?_eq_some_iff_getElem.2 ⟨hlt, by simp [heq, Dag.buildCommit], ?_⟩
  intro j hj
  -- an earlier commit was stored before, and none of those has the id
  have hjlt : j < d'.commits.length := hj.trans hlt
  have hget : d'.get j = some d'.commits[j] := List.getElem?_eq_getElem hjlt
  rcases ha.only j _ hget with hold | ⟨rfl, -⟩
  · have hmem : d'.commits[j] ∈ d.commits := List.mem_of_getElem? hold
    have hno := List.findIdx?_eq_none_iff.1 hnew _ hmem
    simpa using hno
  · exact absurd hj (lt_irrefl _)

/-! ## Retries -/

def Call.Submits (tx : Transaction) : Call → Prop
  | .commit _ t _ => t = tx
  | .replay _ t _ _ => t = tx
  | .merge _ _ _ _ _ _ => False

/-- the commit a submitted transaction would stand on -/
def Call.anchor (ns : Namespace σ) : Call → Hash
  | .commit _ _ _ => ns.dag.main
  | .replay _ _ target _ => target
  | .merge _ primaryHead _ _ _ _ => primaryHead

/-- a Commit finds its base version -/
def Call.Based (ns : Namespace σ) : Call → Prop
  | .commit _ tx _ => (ns.dag.get tx.baseVersion).isSome
  | _ => True

/-- what a first submission leaves: the id stands for the new commit, whose one parent is stored -/
theorem submitted (hclean : ns.store.Clean) {first : Call} (hfirst : first.Submits tx)
    (hnew : ns.dag.commitByTransactionId tx.id = none) {ns' : Namespace σ}
    (hs : first.exec S hexLe ns = (ns', .ok (.success h))) :
    ns'.dag.commitByTransactionId tx.id = some h ∧ ∃ c p, ns'.dag.get h = some c ∧ c.parents = [p] ∧
      (ns'.dag.get p).isSome := by
  have key : ∀ {E : Engine} {anchor baseVersion : Hash} {message : String},
      Outcome S E ns tx anchor baseVersion message (ns', .ok (.success h)) →
      ns'.dag.commitByTransactionId tx.id = some h ∧ ∃ c p, ns'.dag.get h = some c ∧ c.parents = [p] ∧
        (ns'.dag.get p).isSome := by
    intro E anchor baseVersion message ho
    cases ho with
    | refused hr => exact absurd rfl (hr h)
    | found hf => simp [findExistingCommit, hnew] at hf
    | @landed _ _ p _ _ ha _ _ hp hl =>
      have hid : p.recorded.id = tx.id := by rw [PreparedCommit.recorded, hp.tx_eq]
      refine ⟨?_, _, anchor, hl.appended.stored, by simp [Dag.buildCommit, hp.anchor_eq], ?_⟩
      · rw [← hid] at hnew ⊢
        exact commitByTransactionId_appended hl.appended hnew
      · rw [hl.appended.grows _ _ ha]
        rfl
  cases first with
  | commit E t message =>
    obtain rfl : t = tx := hfirst
    have ho := commit_outcome (S := S) E hclean t message
    simp only [Call.exec] at hs
    rw [hs] at ho
    exact key ho
  | replay E t target message =>
    obtain rfl : t = tx := hfirst
    have ho := replay_outcome (S := S) E hclean t target message
    simp only [Call.exec] at hs
    rw [hs] at ho
    exact key ho
  | merge E primary merged markerId now message => exact hfirst.elim

/-- **A recognised retry.** A call that would stand on the parent of the transaction's commit returns that commit and
leaves the namespace as it is; the server logs the commit once more. -/
theorem retry_found {retry : Call} (hretry : retry.Submits tx) (hid : s.ns.dag.commitByTransactionId tx.id = some h)
    (hp : s.ns.dag.parents h = [retry.anchor s.ns]) (hanchor : (s.ns.dag.get (retry.anchor s.ns)).isSome)
    (hbase : retry.Based s.ns) : s.submit S hexLe retry = (⟨s.ns, s.log.map (· ++ [h])⟩, .ok (.success h)) := by
  have hfind : findExistingCommit s.ns.dag tx [retry.anchor s.ns] = some h := by
    simp [findExistingCommit, hid, hp]
  cases retry with
  | commit E t message =>
    obtain rfl : t = tx := hretry
    obtain ⟨b, hb⟩ := Option.isSome_iff_exists.1 hbase
    have hexec : E.commit S s.ns t message = (s.ns, .ok (.success h)) := by
      simp only [Engine.commit, hb]
      simp only [Call.anchor] at hfind
      rw [hfind]
    simp only [Logged.submit, Call.exec, hexec]
  | replay E t target message =>
    obtain rfl : t = tx := hretry
    obtain ⟨b, hb⟩ := Option.isSome_iff_exists.1 hanchor
    have hexec : E.replay S s.ns t target message = (s.ns, .ok (.success h)) := by
      simp only [Call.anchor] at hb hfind
      simp only [Engine.replay, hb, hfind]
    simp only [Logged.submit, Call.exec, hexec]
  | merge E primary merged markerId now message => exact hretry.elim

theorem Logged.step_log_none (hlog : s.log = none) (st : HistoryStep) : (s.step S hexLe st).log = none := by
  cases st with
  | submit c =>
    simp only [Logged.step, Logged.submit]
    split <;> simp [hlog]
  | adopt c =>
    simp only [Logged.step]
    split <;> simp [hlog]
  | moveHead h =>
    simp only [Logged.step]
    split <;> exact hlog

/-- **A retried transaction is applied once.** In every history from a new namespace without a log in which a
transaction of a new id commits as `c`: at any later point, whatever came in between, submitting it again where it would
stand on `c`'s parent (a Commit finding its base version) returns `c` and changes nothing. -/
theorem retried_transaction_applied_once (S : SchemaOps σ) (hexLe : Hash → Hash → Bool) (backend : Backend)
    (treeStore : Bool) (schema : σ) (log : Option (List Hash)) (before after : List HistoryStep) (first retry : Call)
    (tx : Transaction) (c : Hash) (hfirst : first.Submits tx) (hretry : retry.Submits tx) :
    let committing := run (Logged.step S hexLe) ⟨.init backend treeStore schema, log⟩ before
    let later := run (Logged.step S hexLe) (committing.submit S hexLe first).1 after
    committing.ns.dag.commitByTransactionId tx.id = none → (committing.submit S hexLe first).2 = .ok (.success c) →
    log = none → later.ns.dag.parents c = [retry.anchor later.ns] → retry.Based later.ns →
    later.submit S hexLe retry = (later, .ok (.success c)) := by
  intro committing later hnew hcommit hlog hparent hbase
  have hclean : committing.ns.store.Clean := (Logged.run_grown (s := ⟨.init backend treeStore schema, log⟩)
    ⟨rfl, rfl⟩ before).1
  -- the first submission
  have hexec : ∃ ns', first.exec S hexLe committing.ns = (ns', .ok (.success c)) :=
    ⟨_, Prod.ext rfl ((submit_result committing first).symm.trans hcommit)⟩
  obtain ⟨ns', hexec⟩ := hexec
  obtain ⟨hid, cc, p, hcc, hpar, hpst⟩ := submitted hclean hfirst hnew hexec
  have hfirstns : (committing.submit S hexLe first).1.ns = ns' := by rw [submit_ns, hexec]
  -- what came in between only added commits
  have hgrown : Grown ns' later.ns := by
    have hclean' : (committing.submit S hexLe first).1.ns.store.Clean := by
      rw [submit_ns]
      exact (exec_grown hclean first).1
    rw [← hfirstns]
    exact Logged.run_grown hclean' after
  have hlatelog : later.log = none := by
    have hall : ∀ {s : Logged σ} (steps : List HistoryStep), s.log = none →
        (run (Logged.step S hexLe) s steps).log = none := fun steps hs =>
      run_of_step_all (I := fun t : Logged σ => t.log = none) (fun t st ht => Logged.step_log_none ht st) steps hs
    have hsubmitted : (committing.step S hexLe (.submit first)).log = none :=
      Logged.step_log_none (hall before hlog) (.submit first)
    exact hall after hsubmitted
  have hanchor : (later.ns.dag.get (retry.anchor later.ns)).isSome := by
    obtain ⟨q, hq⟩ := Option.isSome_iff_exists.1 hpst
    have hp : [retry.anchor later.ns] = [p] := by
      rw [← hparent, Dag.parents, hgrown.2 _ _ hcc]
      exact hpar
    rw [List.singleton_inj.1 hp, hgrown.2 _ _ hq]
    rfl
  rw [retry_found hretry (Dag.commitByTransactionId_mono hgrown.2 hid) hparent hanchor hbase]
  obtain ⟨ns, llog⟩ := later
  obtain rfl : llog = none := hlatelog
  rfl

/-! ## Closed histories -/

def Engine.upserts : Engine := ⟨.lastWrite, none, false, false⟩

/-- document 1 is written by transaction 41, then by transaction 42 -/
def twoWrites : List HistoryStep :=
  [.submit (.commit .upserts (writeTx 41 0 1 [("a", .num 1)]) ""),
    .submit (.commit .upserts (writeTx 42 1 1 [("a", .num 2)]) "")]

/-- Transaction 41 is committed as commit 1; its own commit has moved main, so the parents a retry of `Commit` would
have never match. Submitted again after transaction 42, it commits a second time, as commit 3, and takes document 1
back to its own value. -/
theorem retry_commits_again :
    let later := run (Logged.step .schemaless (· ≤ ·)) ⟨.init .server true (), some []⟩ twoWrites
    let retried := later.submit .schemaless (· ≤ ·) (.commit .upserts (writeTx 41 0 1 [("a", .num 1)]) "")
    later.ns.dag.commitByTransactionId 41 = some 1 ∧ later.ns.store.live[1]? = some [("a", .num 2)] ∧
      (retried.2 matches .ok (.success 3)) ∧ retried.1.ns.dag.main = 3 ∧ retried.1.log = some [1, 2, 3] ∧
      retried.1.ns.store.live[1]? = some [("a", .num 1)] := by
  decide +kernel

/-- the same retry as a Replay onto genesis, the parent of commit 1 -/
theorem retried_transaction_applied_once_replay :
    let later := run (Logged.step SchemaOps.schemaless (· ≤ ·)) ⟨.init .server true (), none⟩ twoWrites
    later.submit .schemaless (· ≤ ·) (.replay .upserts (writeTx 41 0 1 [("a", .num 1)]) 0 "") =
      (later, .ok (.success 1)) :=
  retried_transaction_applied_once .schemaless (· ≤ ·) .server true () none [] (twoWrites.drop 1)
    (.commit .upserts (writeTx 41 0 1 [("a", .num 1)]) "") (.replay .upserts (writeTx 41 0 1 [("a", .num 1)]) 0 "")
    (writeTx 41 0 1 [("a", .num 1)]) 1 rfl rfl (by decide +kernel) rfl rfl (by decide +kernel) trivial

end Retry

end Kdb
