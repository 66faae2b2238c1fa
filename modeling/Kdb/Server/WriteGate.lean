/-
The server's write path for one namespace (`server/server_runtime.go`, `wire_listen.go`): Commit, Upsert and Replay
requests, each split into what it runs before the commit gate and what it runs at the front of it.

Before the gate an upsert reads main's head as its base version and a replay reads it as its target; a commit brings its
base from the client. At the front of the gate the engine call runs alone, and a commit that lands is queued for
durability; the request returns success later, once it is durable. Admission, authorization, index preparation and
durability failures only turn requests away or leave them unanswered: such a request takes no further step here.
- `acknowledged_stay_on_main`: an acknowledged commit stays on main when every replay finds its target still at main's
  head.
- `acknowledged_commit_leaves_main`: a replay whose target moved while it waited re-points main off an acknowledged
  commit.
- `commits_record_fold`: every upsert and commit that succeeds records the fold of its operations over its parent's
  documents, when its base is fresh.
- `concurrent_upsert_lost`: of two upserts that read the same head the second drops the first one's field.
-/
import Kdb.Transaction.Trees

namespace Kdb

open Machine List

/-! ## Requests and steps -/

/-- a client's request -/
inductive Request where
  | upsert (txId : TxId) (docId : DocId) (jsonBody : Json) (timestamp : ℕ)
  | commit (tx : Transaction)
  | replay (tx : Transaction)

/-- a request on its way to the gate, with what it has read so far -/
inductive Waiting where
  | upsert (tx : Transaction)
  | commit (tx : Transaction)
  | replay (tx : Transaction) (target : Hash)

/-- `KdbServerRuntime`: the namespace, the two engines, this node's id, the requests waiting for the gate, what landed
(in commit order) and what was acknowledged -/
structure Runtime (σ : Type) where
  ns : Namespace σ
  transactionEngine : Engine
  upsertEngine : Engine
  nodeId : NodeId
  waiting : List Waiting
  landed : List (Transaction × Hash)
  acked : List Hash

/-- the steps of the runtime: a request runs up to the gate, the `i`-th waiting request runs at its front, the `i`-th
landed commit is durable and its request returns -/
inductive GateStep where
  | arrive (r : Request)
  | gate (i : ℕ) (message : String)
  | acknowledge (i : ℕ)

variable (rt : Runtime σ)

namespace Runtime

variable {σ : Type}

/-- `authored`: the commit names this node as its author -/
def authored (tx : Transaction) : Transaction :=
  if rt.nodeId = 0 then tx else { tx with author := rt.nodeId }

/-- what a request does before the gate -/
def arrive : Request → Waiting
  | .upsert txId docId jsonBody timestamp =>
    .upsert (rt.authored ⟨txId, rt.ns.dag.main, [.write docId jsonBody false], timestamp, 0, []⟩)
  | .commit tx => .commit (rt.authored tx)
  | .replay tx => .replay (rt.authored tx) rt.ns.dag.main

variable (S : SchemaOps σ)

/-- the engine call at the front of the gate, with the transaction it is for -/
def call (rt : Runtime σ) (message : String) :
    Waiting → Transaction × Namespace σ × Except EngineError TransactionResult
  | .upsert tx => (tx, rt.upsertEngine.commit S rt.ns tx message)
  | .commit tx => (tx, rt.transactionEngine.commit S rt.ns tx message)
  | .replay tx target => (tx, rt.transactionEngine.replay S rt.ns tx target message)

/-- `commitAtGateFront`: run the call; what succeeds is queued for durability -/
def atGateFront (rt : Runtime σ) (message : String) (w : Waiting) : Runtime σ :=
  match rt.call S message w with
  | (tx, ns, .ok (.success h)) => { rt with ns := ns, landed := rt.landed ++ [(tx, h)] }
  | (_, ns, _) => { rt with ns := ns }

def step (rt : Runtime σ) : GateStep → Runtime σ
  | .arrive r => { rt with waiting := rt.waiting ++ [rt.arrive r] }
  | .gate i message =>
    match rt.waiting[i]? with
    | some w => { rt with waiting := rt.waiting.eraseIdx i }.atGateFront S message w
    | none => rt
  | .acknowledge i =>
    match rt.landed[i]? with
    | some e => { rt with acked := rt.acked ++ [e.2] }
    | none => rt

/-- a new runtime on a new namespace -/
def init (backend : Backend) (treeStore : Bool) (schema : σ) (transactionEngine upsertEngine : Engine)
    (nodeId : NodeId) : Runtime σ where
  ns := .init backend treeStore schema
  transactionEngine := transactionEngine
  upsertEngine := upsertEngine
  nodeId := nodeId
  waiting := []
  landed := []
  acked := []

end Runtime

section Gate

variable {σ : Type} {S : SchemaOps σ}

/-! ## Main as a line

While every append extends main's head, nothing stands on main's head yet: the lookup of an earlier commit of the same
transaction never answers, and a landing commit is always a new one. -/

/-- nothing is staged, parents are stored, main's head is stored and is nobody's parent -/
structure LineInv (ns : Namespace σ) : Prop where
  clean : ns.store.Clean
  parents : ∀ h c, ns.dag.get h = some c → ∀ p ∈ c.parents, (ns.dag.get p).isSome
  head : (ns.dag.get ns.dag.main).isSome
  tip : ∀ h c, ns.dag.get h = some c → ns.dag.main ∉ c.parents

theorem LineInv.init (backend : Backend) (treeStore : Bool) (schema : σ) :
    LineInv (Namespace.init backend treeStore schema) := by
  have honly : ∀ h c, (Namespace.init backend treeStore schema).dag.get h = some c → c.parents = [] := by
    intro h c hc
    cases h with
    | zero =>
      obtain rfl : _ = c := Option.some.inj hc
      rfl
    | succ h => simp [Namespace.init, Dag.genesis, Dag.get] at hc
  refine ⟨⟨rfl, rfl⟩, ?_, rfl, ?_⟩
  · intro h c hc p hp
    simp [honly h c hc] at hp
  · intro h c hc
    simp [honly h c hc]

variable {ns ns' : Namespace σ} {a : Commit} {h baseVersion anchor : Hash} {message : String} {p : PreparedCommit σ}
  {r : Namespace σ × Except EngineError TransactionResult} {tx : Transaction} {target : Tree}

theorem LineInv.not_found (hinv : LineInv ns) (tx : Transaction) :
    findExistingCommit ns.dag tx [ns.dag.main] = none := by
  cases hf : findExistingCommit ns.dag tx [ns.dag.main] with
  | none => rfl
  | some h =>
    obtain ⟨c, hc, hp⟩ := findExistingCommit_get hf
    exact absurd (by simp [hp]) (hinv.tip h c hc)

/-- the step: landing on main's head keeps main a line -/
theorem LineInv.landed (hinv : LineInv ns) (hanchor : p.anchorCommit = ns.dag.main)
    (hl : Landed S ns ns' p a message h) : LineInv ns' := by
  have happ := hl.appended
  have hpar : ∀ x c, ns'.dag.get x = some c → ∀ q ∈ c.parents, (ns.dag.get q).isSome := by
    intro x c hx q hq
    rcases happ.only x c hx with hold | ⟨-, rfl⟩
    · exact hinv.parents x c hold q hq
    · exact happ.parents q hq
  -- the hash is new: a stored commit with these contents would stand on main's head
  have hnew : ns.dag.get h = none := by
    cases hold : ns.dag.get h with
    | none => rfl
    | some c =>
      have hc := (happ.grows h c hold).symm.trans happ.stored
      have hmain : ns.dag.main ∈ c.parents := by
        rw [Option.some.inj hc]
        simp [Dag.buildCommit, hanchor]
      exact absurd hmain (hinv.tip h c hold)
  refine ⟨hl.clean, ?_, ?_, ?_⟩
  · intro x c hx q hq
    obtain ⟨cq, hcq⟩ := Option.isSome_iff_exists.1 (hpar x c hx q hq)
    simp [happ.grows q cq hcq]
  · rw [happ.main, happ.stored]
    rfl
  · intro x c hx hmem
    have hstored := hpar x c hx _ hmem
    rw [happ.main, hnew] at hstored
    cases hstored

variable {E : Engine}

theorem LineInv.outcome (hinv : LineInv ns) (ho : Outcome S E ns tx ns.dag.main baseVersion message r) : LineInv r.1 := by
  cases ho with
  | refused _ => exact hinv
  | found _ => exact hinv
  | landed _ _ _ hp hl => exact hinv.landed hp.anchor_eq hl

/-! ## Acknowledged commits stay on main -/

/-- a waiting replay's target is the given head -/
def Waiting.Onto (head : Hash) : Waiting → Prop
  | .replay _ target => target = head
  | _ => True

instance (head : Hash) (w : Waiting) : Decidable (w.Onto head) := by
  cases w <;> unfold Waiting.Onto <;> infer_instance

/-- a replay at the front of the gate finds its target at main's head -/
def ReplaysOntoHead : GateStep → Prop
  | .gate i _ => ∀ w ∈ rt.waiting[i]?, w.Onto rt.ns.dag.main
  | _ => True

instance (rt : Runtime σ) (s : GateStep) : Decidable (ReplaysOntoHead rt s) := by
  cases s <;> unfold ReplaysOntoHead <;> infer_instance

/-- main is a line that carries everything that landed, and only landed commits are acknowledged -/
structure MainInv : Prop where
  line : LineInv rt.ns
  landed : ∀ e ∈ rt.landed, rt.ns.dag.Ancestor e.2 rt.ns.dag.main
  acked : ∀ h ∈ rt.acked, ∃ e ∈ rt.landed, e.2 = h

/-- what a successful engine call on main's head does to main -/
theorem Outcome.main (hline : LineInv ns) (ho : Outcome S E ns tx ns.dag.main baseVersion message r) :
    Dag.Extends ns.dag r.1.dag ∧ r.1.dag.Ancestor ns.dag.main r.1.dag.main ∧
      ∀ h, r.2 = .ok (.success h) → r.1.dag.main = h := by
  cases ho with
  | refused hr => exact ⟨.refl _, .refl, fun h hs => absurd hs (hr h)⟩
  | found hf =>
    rw [hline.not_found tx] at hf
    cases hf
  | landed ha hb hnew hp hl =>
    refine ⟨hl.appended.grows, ?_, ?_⟩
    · rw [hl.appended.main]
      exact .parent hl.appended.stored (by simp [Dag.buildCommit, hp.anchor_eq]) .refl
    · rintro h ⟨⟩
      exact hl.appended.main

variable {rt : Runtime σ} {w : Waiting}

/-- the call of a waiting request is an engine call on main's head -/
theorem call_outcome (hline : LineInv rt.ns) (message : String) (hw : w.Onto rt.ns.dag.main) :
    ∃ E baseVersion, Outcome S E rt.ns (rt.call S message w).1 rt.ns.dag.main baseVersion message
      (rt.call S message w).2 := by
  cases w with
  | upsert tx => exact ⟨_, _, commit_outcome rt.upsertEngine hline.clean tx message⟩
  | commit tx => exact ⟨_, _, commit_outcome rt.transactionEngine hline.clean tx message⟩
  | replay tx target =>
    obtain rfl : target = rt.ns.dag.main := hw
    exact ⟨_, _, replay_outcome rt.transactionEngine hline.clean tx _ message⟩

theorem MainInv.gate (hinv : MainInv rt) (hw : w.Onto rt.ns.dag.main) : MainInv (rt.atGateFront S message w) := by
  obtain ⟨E, baseVersion, ho⟩ := call_outcome (S := S) hinv.line message hw
  have hline := hinv.line.outcome ho
  obtain ⟨hgrow, hanc, hsucc⟩ := ho.main hinv.line
  unfold Runtime.atGateFront
  generalize rt.call S message w = r at *
  obtain ⟨tx, ns, res⟩ := r
  have hold : ∀ e ∈ rt.landed, ns.dag.Ancestor e.2 ns.dag.main :=
    fun e he => ((hinv.landed e he).mono hgrow).trans hanc
  have hsame : MainInv { rt with ns := ns } := ⟨hline, hold, hinv.acked⟩
  cases res with
  | error e => exact hsame
  | ok result =>
    cases result with
    | rejected reason => exact hsame
    | success h =>
      refine ⟨hline, ?_, ?_⟩
      · intro e he
        rcases mem_append.1 he with he | he
        · exact hold e he
        · obtain rfl := mem_singleton.1 he
          rw [← hsucc h rfl]
          exact .refl
      · intro x hx
        obtain ⟨e, he, hex⟩ := hinv.acked x hx
        exact ⟨e, mem_append_left _ he, hex⟩

theorem MainInv.step (hinv : MainInv rt) (s : GateStep) (hg : ReplaysOntoHead rt s) : MainInv (rt.step S s) := by
  cases s with
  | arrive r => exact ⟨hinv.line, hinv.landed, hinv.acked⟩
  | gate i message =>
    simp only [Runtime.step]
    cases hi : rt.waiting[i]? with
    | none => exact hinv
    | some w =>
      have hrest : MainInv { rt with waiting := rt.waiting.eraseIdx i } := ⟨hinv.line, hinv.landed, hinv.acked⟩
      exact hrest.gate (hg w hi)
  | acknowledge i =>
    simp only [Runtime.step]
    cases hi : rt.landed[i]? with
    | none => exact hinv
    | some e =>
      refine ⟨hinv.line, hinv.landed, ?_⟩
      exact forall_mem_append.2 ⟨hinv.acked, forall_mem_singleton.2 ⟨e, mem_of_getElem? hi, rfl⟩⟩

theorem Runtime.acked_mono (steps : List GateStep) (rt : Runtime σ) (hh : h ∈ rt.acked) :
    h ∈ (run (Runtime.step S) rt steps).acked := by
  refine run_of_step_all (I := fun rt : Runtime σ => h ∈ rt.acked) ?_ steps hh
  intro rt s hm
  cases s with
  | arrive r => exact hm
  | gate i message =>
    simp only [Runtime.step]
    cases rt.waiting[i]? with
    | none => exact hm
    | some w =>
      simp only [Runtime.atGateFront]
      split <;> exact hm
  | acknowledge i =>
    simp only [Runtime.step]
    cases rt.landed[i]? with
    | none => exact hm
    | some e => exact mem_append_left _ hm

/-- **No acknowledged commit ever leaves main.** In every interleaving of Commit, Upsert and Replay requests in which
each replay finds its target still at main's head when it reaches the front of the gate: a commit acknowledged at some
point is main's head or an ancestor of it at every later point. -/
theorem acknowledged_stay_on_main (S : SchemaOps σ) (backend : Backend) (treeStore : Bool) (schema : σ)
    (transactionEngine upsertEngine : Engine) (nodeId : NodeId) (before after : List GateStep)
    (hg : Along (Runtime.step S) ReplaysOntoHead
      (Runtime.init backend treeStore schema transactionEngine upsertEngine nodeId) (before ++ after)) :
    let start := Runtime.init backend treeStore schema transactionEngine upsertEngine nodeId
    let later := run (Runtime.step S) start (before ++ after)
    ∀ h ∈ (run (Runtime.step S) start before).acked, later.ns.dag.Ancestor h later.ns.dag.main := by
  intro start later h hh
  have hstart : MainInv start := ⟨LineInv.init backend treeStore schema, by simp [start, Runtime.init],
    by simp [start, Runtime.init]⟩
  have hinv : MainInv later := run_of_step (I := MainInv) (fun rt s hs hi => hi.step s hs) hg hstart
  have hlater : h ∈ later.acked := by
    simp only [later, run_append]
    exact Runtime.acked_mono after _ hh
  obtain ⟨e, he, rfl⟩ := hinv.acked h hlater
  exact hinv.landed e he

/-- the server's engines: STRICT for commits and replays, LAST_WRITE for upserts -/
def Engine.lastWrite : Engine := ⟨.lastWrite, none, true, true⟩

/-- a runtime on the `ServerEngine` without a schema -/
def Runtime.fresh : Runtime Unit := .init .server true () ⟨.strict, none, true, true⟩ .lastWrite 9

/-- an upsert and a replay read the same head; the upsert lands first and is acknowledged, then the replay lands -/
def overtakenReplay : List GateStep :=
  [.arrive (.replay (writeTx 21 0 2 [("b", .num 2)])), .arrive (.upsert 22 1 (.obj [("a", .num 1)]) 10),
    .gate 1 "", .acknowledge 0, .gate 0 ""]

/-- A replay whose target is no longer main's head is appended detached and re-points main: the acknowledged upsert,
commit 1, is not an ancestor of main's head any more. -/
theorem acknowledged_commit_leaves_main :
    let rt := run (Runtime.step .schemaless) Runtime.fresh overtakenReplay
    1 ∈ rt.acked ∧ ¬ rt.ns.dag.Ancestor 1 rt.ns.dag.main := by
  refine ⟨by decide +kernel, ?_⟩
  intro h
  have hcl : ∀ x ∈ [2, 0],
      ∀ p ∈ (run (Runtime.step .schemaless) Runtime.fresh overtakenReplay).ns.dag.parents x, p ∈ [2, 0] := by
    decide +kernel
  have hmain : (run (Runtime.step .schemaless) Runtime.fresh overtakenReplay).ns.dag.main ∈ [2, 0] := by
    decide +kernel
  exact absurd (h.mem_of_closed hcl hmain) (by decide)

/-- the same requests, the replay first -/
def replayFirst : List GateStep :=
  [.arrive (.replay (writeTx 21 0 2 [("b", .num 2)])), .arrive (.upsert 22 1 (.obj [("a", .num 1)]) 10),
    .gate 0 "", .acknowledge 0, .gate 0 "", .acknowledge 1]

theorem acknowledged_stay_on_main_replayFirst :
    let rt := run (Runtime.step .schemaless) Runtime.fresh replayFirst
    (1 ∈ (run (Runtime.step .schemaless) Runtime.fresh (replayFirst.take 4)).acked ∧ rt.ns.dag.main = 2) ∧
      rt.ns.dag.Ancestor 1 rt.ns.dag.main :=
  ⟨by decide +kernel, acknowledged_stay_on_main .schemaless .server true () ⟨.strict, none, true, true⟩ .lastWrite 9
    (replayFirst.take 4) (replayFirst.drop 4) (by decide +kernel) 1 (by decide +kernel)⟩

/-! ## Commits record the fold over their parent -/

/-- the operations conflict detection skips: those with a real precondition, where preconditions are evaluated -/
def Engine.exempt (E : Engine) (tx : Transaction) : List ℕ :=
  if E.preconditions ∧ tx.preconditions ≠ [] then guardedOpIndexes tx else []

/-- conflict detection compares the base and the target of document `d` -/
def Engine.Checks (E : Engine) (tx : Transaction) (d : DocId) : Prop :=
  E.conflictPolicy = .strict ∧
    ∃ i < tx.operations.length, i ∉ E.exempt tx ∧ tx.operations[i]?.bind Op.docId? = some d

instance (E : Engine) (tx : Transaction) (d : DocId) : Decidable (E.Checks tx d) := by
  unfold Engine.Checks
  infer_instance

theorem checkPreconditions_exempt {guarded : List ℕ} (h : E.checkPreconditions tx target = .ok guarded) :
    guarded = E.exempt tx := by
  unfold Engine.checkPreconditions at h
  unfold Engine.exempt
  by_cases hc : E.preconditions ∧ tx.preconditions ≠ []
  · rw [if_pos hc] at h ⊢
    split at h
    · cases h
    · split at h
      · cases h
      · exact (Except.ok.inj h).symm
      · cases h
  · rw [if_neg hc] at h ⊢
    exact (Except.ok.inj h).symm

/-- under STRICT, a plan that went through found every checked document unchanged since the base -/
theorem Planned.checked {base baseline : Tree} (h : Planned S E ns tx anchor base baseline target p) {d : DocId}
    (hd : E.Checks tx d) : base[d]? = target[d]? := by
  obtain ⟨hstrict, i, hlt, hex, hop⟩ := hd
  obtain ⟨guarded, hg, hw⟩ := h.settled
  obtain rfl := checkPreconditions_exempt hg
  have hnone : detectConflicts base target (E.exempt tx) tx.operations
      (runSchemaPhase S ns.schema baseline tx.operations).writes = [] := by
    unfold Engine.settleConflicts at hw
    simp only [hstrict] at hw
    split at hw
    · assumption
    · cases hw
  have hi : tx.operations[i]? = some tx.operations[i] := List.getElem?_eq_getElem hlt
  exact detectConflicts_nil (schemaPhase_staged h.accepted).length_eq hnone hi hex (by simpa [hi] using hop)

/-- a commit records the fold of the transaction over its parent: for each document touched, the tree holds the fold
over the parent's document, and the recorded operations say so -/
def Recorded (dag : Dag) (tx : Transaction) (h : Hash) : Prop :=
  ∃ c p cp, dag.get h = some c ∧ c.parents = [p] ∧ dag.get p = some cp ∧
    ∀ d, Touches tx.operations d →
      foldDoc d cp.tree[d]? tx.operations = some c.tree[d]? ∧ Ops.after d c.operations = some c.tree[d]?

theorem Recorded.mono {s t : Dag} (he : Dag.Extends s t) (hr : Recorded s tx h) : Recorded t tx h := by
  obtain ⟨c, p, cp, hc, hp, hcp, hd⟩ := hr
  exact ⟨c, p, cp, he _ _ hc, hp, he _ _ hcp, hd⟩

/-- the transaction's documents that are merged over without a conflict check are the same in its base and in main's
head; no custom resolver is involved -/
def FreshBase (ns : Namespace σ) (E : Engine) (tx : Transaction) : Prop :=
  E.conflictPolicy ≠ .custom ∧
    ∀ b ∈ ns.dag.get tx.baseVersion, ∀ a ∈ ns.dag.get ns.dag.main,
      ∀ op ∈ tx.operations, ∀ d ∈ op.docId?, mergesFirst d tx.operations = true →
        E.Checks tx d ∨ b.tree[d]? = a.tree[d]?
  deriving Decidable

theorem Landed.recorded {b : Commit} (ha : ns.dag.get anchor = some a)
    (hp : Planned S E ns tx anchor b.tree b.tree a.tree p) (hl : Landed S ns ns' p a message h)
    (hcustom : E.conflictPolicy ≠ .custom)
    (hfresh : ∀ d, Touches tx.operations d → mergesFirst d tx.operations = true → E.Checks tx d ∨ b.tree[d]? = a.tree[d]?) :
    Recorded ns'.dag tx h := by
  refine ⟨_, anchor, a, hl.appended.stored, by simp [Dag.buildCommit, hp.anchor_eq], hl.appended.grows _ _ ha, ?_⟩
  intro d ht
  obtain ⟨st, hafter⟩ := Option.isSome_iff_exists.1 ((hp.after_isSome d).2 ht)
  have htree : (p.tree ns.store a.tree)[d]? = st := by
    rw [PreparedCommit.tree, Tree.applyOps_get, hafter]
    rfl
  -- over the base document the fold gives the recorded state; the base document may stand for the parent's
  have hbase : foldDoc d b.tree[d]? tx.operations = some st := by
    rw [hp.fold (fun hc => absurd hc hcustom), hafter]
    rfl
  have hparent : foldDoc d a.tree[d]? tx.operations = some st := by
    cases hm : mergesFirst d tx.operations with
    | false => rw [foldDoc_of_not_mergesFirst ht hm _ b.tree[d]?, hbase]
    | true =>
      have heq : b.tree[d]? = a.tree[d]? := by
        rcases hfresh d ht hm with hchk | heq
        · exact hp.checked hchk
        · exact heq
      rw [← heq, hbase]
  change foldDoc d a.tree[d]? tx.operations = some (p.tree ns.store a.tree)[d]? ∧
    Ops.after d p.recorded.operations = some (p.tree ns.store a.tree)[d]?
  rw [htree]
  exact ⟨hparent, hafter⟩

/-- a waiting upsert or commit has a fresh base; replays take no part -/
def Runtime.Fresh (rt : Runtime σ) : Waiting → Prop
  | .upsert tx => FreshBase rt.ns rt.upsertEngine tx
  | .commit tx => FreshBase rt.ns rt.transactionEngine tx
  | .replay _ _ => False

instance (rt : Runtime σ) (w : Waiting) : Decidable (rt.Fresh w) := by
  cases w <;> unfold Runtime.Fresh <;> infer_instance

/-- the request at the front of the gate has a fresh base -/
def FreshAtGate (rt : Runtime σ) : GateStep → Prop
  | .gate i _ => ∀ w ∈ rt.waiting[i]?, rt.Fresh w
  | _ => True

instance (rt : Runtime σ) (s : GateStep) : Decidable (FreshAtGate rt s) := by
  cases s <;> unfold FreshAtGate <;> infer_instance

/-- main is a line, and everything that landed records its fold -/
structure FoldInv (rt : Runtime σ) : Prop where
  line : LineInv rt.ns
  recorded : ∀ e ∈ rt.landed, Recorded rt.ns.dag e.1 e.2

theorem FoldInv.commit {res : Except EngineError TransactionResult} (hline : LineInv ns) (hfresh : FreshBase ns E tx)
    (hcall : E.commit S ns tx message = (ns', res)) :
    LineInv ns' ∧ Dag.Extends ns.dag ns'.dag ∧ ∀ h, res = .ok (.success h) → Recorded ns'.dag tx h := by
  have ho := commit_outcome (S := S) E hline.clean tx message
  rw [hcall] at ho
  refine ⟨hline.outcome ho, (ho.main hline).1, ?_⟩
  rintro h rfl
  cases ho with
  | refused hr => exact absurd rfl (hr h)
  | found hf =>
    rw [hline.not_found tx] at hf
    cases hf
  | landed ha hb _ hp hl =>
    refine hl.recorded ha hp hfresh.1 ?_
    rintro d ⟨op, hop, hd⟩ hm
    exact hfresh.2 _ hb _ ha op hop d hd hm

theorem FoldInv.gate (hinv : FoldInv rt) (hw : rt.Fresh w) : FoldInv (rt.atGateFront S message w) := by
  obtain ⟨E, hE, hcall⟩ : ∃ E, FreshBase rt.ns E (rt.call S message w).1 ∧
      E.commit S rt.ns (rt.call S message w).1 message = (rt.call S message w).2 := by
    cases w with
    | upsert tx => exact ⟨rt.upsertEngine, hw, rfl⟩
    | commit tx => exact ⟨rt.transactionEngine, hw, rfl⟩
    | replay tx target => exact hw.elim
  unfold Runtime.atGateFront
  generalize rt.call S message w = r at *
  obtain ⟨tx, ns, res⟩ := r
  obtain ⟨hline, hgrow, hrec⟩ := FoldInv.commit hinv.line hE hcall
  have hold : ∀ e ∈ rt.landed, Recorded ns.dag e.1 e.2 := fun e he => (hinv.recorded e he).mono hgrow
  have hsame : FoldInv { rt with ns := ns } := ⟨hline, hold⟩
  cases res with
  | error e => exact hsame
  | ok result =>
    cases result with
    | rejected reason => exact hsame
    | success h =>
      refine ⟨hline, ?_⟩
      exact forall_mem_append.2 ⟨hold, forall_mem_singleton.2 (hrec _ rfl)⟩

theorem FoldInv.step (hinv : FoldInv rt) (s : GateStep) (hg : FreshAtGate rt s) : FoldInv (rt.step S s) := by
  cases s with
  | arrive r => exact ⟨hinv.line, hinv.recorded⟩
  | gate i message =>
    simp only [Runtime.step]
    cases hi : rt.waiting[i]? with
    | none => exact hinv
    | some w =>
      have hrest : FoldInv { rt with waiting := rt.waiting.eraseIdx i } := ⟨hinv.line, hinv.recorded⟩
      exact hrest.gate (hg w hi)
  | acknowledge i =>
    simp only [Runtime.step]
    cases rt.landed[i]? with
    | none => exact hinv
    | some e => exact ⟨hinv.line, hinv.recorded⟩

/-- **No write is lost to a stale read.** In every interleaving of upserts and commits, on either adapter and under any
policies but CUSTOM, in which each request that reaches the front of the gate has a fresh base: every commit that
succeeds records, for each document it touches, the fold of its operations over the document its parent's tree holds. -/
theorem commits_record_fold (S : SchemaOps σ) (backend : Backend) (treeStore : Bool) (schema : σ)
    (transactionEngine upsertEngine : Engine) (nodeId : NodeId) (steps : List GateStep)
    (hg : Along (Runtime.step S) FreshAtGate
      (Runtime.init backend treeStore schema transactionEngine upsertEngine nodeId) steps) :
    let rt := run (Runtime.step S) (Runtime.init backend treeStore schema transactionEngine upsertEngine nodeId) steps
    ∀ e ∈ rt.landed, Recorded rt.ns.dag e.1 e.2 := by
  intro rt
  have hinv : FoldInv rt := by
    apply run_of_step (I := FoldInv) (fun rt s hs hi => hi.step s hs) hg
    exact ⟨LineInv.init backend treeStore schema, by simp [Runtime.init]⟩
  exact hinv.recorded

/-- a document with field `x` is stored; two upserts, one of `a` and one of `b`, both read that head and land -/
def racingUpserts : List GateStep :=
  [.arrive (.upsert 21 1 (.obj [("x", .num 0)]) 10), .gate 0 "",
    .arrive (.upsert 22 1 (.obj [("a", .num 1)]) 11), .arrive (.upsert 23 1 (.obj [("b", .num 2)]) 12),
    .gate 0 "", .gate 0 "", .acknowledge 1, .acknowledge 2]

/-- Two concurrent upserts of different fields: both are acknowledged, and the second one's commit holds `x` and `b`
only, although the document its parent holds has the field `a`. -/
theorem concurrent_upsert_lost :
    let rt := run (Runtime.step .schemaless) Runtime.fresh racingUpserts
    rt.acked = [2, 3] ∧
      ((rt.ns.dag.get 3).map fun c => (c.parents, c.tree[(1 : DocId)]?)) =
        some ([2], some [("x", .num 0), ("b", .num 2)]) ∧
      ((rt.ns.dag.get 2).map fun c => c.tree[(1 : DocId)]?) = some (some [("x", .num 0), ("a", .num 1)]) ∧
      rt.landed[2]?.map (fun e => foldDoc 1 (some [("x", .num 0), ("a", .num 1)]) e.1.operations) =
        some (some (some [("x", .num 0), ("a", .num 1), ("b", .num 2)])) := by
  decide +kernel

/-- the same upserts, the second one reading the head the first one made -/
def queuedUpserts : List GateStep :=
  [.arrive (.upsert 21 1 (.obj [("x", .num 0)]) 10), .gate 0 "", .arrive (.upsert 22 1 (.obj [("a", .num 1)]) 11),
    .gate 0 "", .arrive (.upsert 23 1 (.obj [("b", .num 2)]) 12), .gate 0 ""]

theorem commits_record_fold_queuedUpserts :
    let rt := run (Runtime.step .schemaless) Runtime.fresh queuedUpserts
    ((rt.ns.dag.get 3).map fun c => c.tree[(1 : DocId)]?) =
        some (some [("x", .num 0), ("a", .num 1), ("b", .num 2)]) ∧
      ∀ e ∈ rt.landed, Recorded rt.ns.dag e.1 e.2 :=
  ⟨by decide +kernel, commits_record_fold .schemaless .server true () ⟨.strict, none, true, true⟩ .lastWrite 9
    queuedUpserts (by decide +kernel)⟩

end Gate

end Kdb
