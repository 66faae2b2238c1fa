/-
The error exits of a commit (`transaction/prepare.go`, `default_engine.go`, `storage/engine/server_engine.go`,
`storage/mem/in_memory.go`): what a Commit or Replay that fails leaves behind.

A request plans against the state it read and applies against the state it finds then: the engine holds no lock between
the two, and a caller without a write gate (an embedded caller, peer sync) can move main in between. `Fault` says where
the write phase fails, beyond the checks the model computes: at a staged put, at the in-memory adapter's parent tree, at
a document's content hash, or in the append (attachment root, encoding). The exits differ in what they undo: a failed
put discards what is staged; a missing anchor and a missing parent tree leave it staged; the `ServerEngine` has replaced
its live tree by the time its hash loop or the append fails, and `DiscardPending` does not bring the old one back.
- `failed_commit_changes_nothing`: a request that fails leaves everything as it was, when the adapter can undo the exit
  taken.
- `lost_race_reaches_next_commit`: a commit that loses the compare-and-swap reaches the next transaction's commit.
-/
import Kdb.Transaction.Trees

namespace Kdb

/-! ## Faults and exits -/

/-- where a write phase fails: at the `staged`-th operation's put, looking up the parent tree, at a content hash after
the puts `done` went into the tree, in the append -/
inductive Fault where
  | none
  | put (staged : ℕ)
  | parentTree
  | contentHash (done : List DocId)
  | append
  deriving DecidableEq

/-- how a request fails: a rejection, `ResultAborted`, or an error of the engine, the tree building or the append -/
inductive Failure where
  | rejected (reason : Rejection)
  | aborted
  | engine (err : EngineError)
  | treeNotBuilt
  | commitNotBuilt

/-- the `ServerEngine`'s tree inside `commitTreeLocked`: the deletes are in, and of the puts those of `done` -/
def Store.halfBuilt (s : Store) (done : List DocId) : Tree :=
  done.foldl (fun t d => match s.puts[d]? with | some body => t.insert d body | none => t)
    (s.deletes.foldl (fun t d => t.erase d) s.live)

/-- `CommitTree` with its error exits. The in-memory adapter looks the parent tree up before it takes the staged writes
and publishes the tree last; the `ServerEngine` ignores the parent tree and updates its live tree in place. -/
def Store.commitTreeUnder (s : Store) (parentTree : Tree) (fault : Fault) : Store × Option Tree :=
  match fault, s.backend with
  | .parentTree, .mem => (s, none)
  | .contentHash _, .mem => (s.discardPending, none)
  | .contentHash done, .server => ({ s.discardPending with live := s.halfBuilt done }, none)
  | _, _ => ((s.commitTree parentTree).1, some (s.commitTree parentTree).2)

section WritePhase

variable {σ : Type} (S : SchemaOps σ)

/-- the append at the end of `Apply`, with the tree built: only a lost compare-and-swap discards what is staged -/
def PreparedCommit.land (p : PreparedCommit σ) (ns : Namespace σ) (store : Store) (tree : Tree) (message : String)
    (fault : Fault) : Namespace σ × Except Failure Hash :=
  if fault = .append then ({ ns with store := store }, .error .commitNotBuilt)
  else
    match ns.dag.append p.recorded [p.anchorCommit] tree (schemaHashWire S p.rollingSchema) message
        (if p.extendingTip then some p.anchorCommit else none) with
    | .error (.headConflict e a) =>
      ({ ns with store := store.discardPending }, .error (.engine (.appendFailed (.headConflict e a))))
    | .error e => ({ ns with store := store }, .error (.engine (.appendFailed e)))
    | .ok (dag, h) => ({ ns with dag := dag, store := store, owners := p.uniques.apply ns.owners }, .ok h)

/-- `Apply` with its error exits -/
def PreparedCommit.applyUnder (p : PreparedCommit σ) (ns : Namespace σ) (message : String) (fault : Fault) :
    Namespace σ × Except Failure Hash :=
  match fault with
  | .put n =>
    ({ ns with store := (stageOps ns.store (p.tx.operations.take n) (p.writes.take n)).discardPending },
      .error .aborted)
  | fault =>
    let staged := stageOps ns.store p.tx.operations p.writes
    match ns.dag.get p.anchorCommit with
    | none => ({ ns with store := staged }, .error (.engine (.versionNotFound p.anchorCommit)))
    | some anchor =>
      match staged.commitTreeUnder anchor.tree fault with
      | (store, none) => ({ ns with store := store }, .error .treeNotBuilt)
      | (store, some tree) => p.land S ns store tree message fault

/-! ## Requests -/

/-- a namespace and the heads of its branches other than main -/
structure Repository (σ : Type) where
  ns : Namespace σ
  branches : String → Option Hash

/-- a request to the engine: `Commit` onto main's head or a named commit, or `Replay` -/
inductive Submission where
  | commit (tx : Transaction) (targetHead : Option Hash)
  | replay (tx : Transaction) (target : Hash)

/-- the commit a request will stand on -/
def Submission.anchor (main : Hash) : Submission → Hash
  | .commit _ targetHead => targetHead.getD main
  | .replay _ target => target

/-- `finalizeTransaction`'s check half, after the lookup of an earlier commit of the same transaction -/
def Engine.planOnto (E : Engine) (ns : Namespace σ) (tx : Transaction) (anchor : Hash) (base baseline target : Tree) :
    Except Failure (Hash ⊕ PreparedCommit σ) :=
  match E.plan S ns tx anchor base baseline target with
  | .error reason => .error (.rejected reason)
  | .ok p => .ok (.inr p)

/-- `Commit` and `Replay` up to the write phase: an earlier commit of the transaction, or the plan -/
def Engine.prepare (E : Engine) (ns : Namespace σ) : Submission → Except Failure (Hash ⊕ PreparedCommit σ)
  | .commit tx targetHead =>
    let head := targetHead.getD ns.dag.main
    match ns.dag.get tx.baseVersion with
    | none => .error (.engine (.baseNotFound tx.baseVersion))
    | some baseCommit =>
      match findExistingCommit ns.dag tx [head] with
      | some h => .ok (.inl h)
      | none =>
        match ns.dag.get head with
        | none => .error (.engine (.versionNotFound head))
        | some targetCommit =>
          E.planOnto S ns tx head baseCommit.tree baseCommit.tree targetCommit.tree
  | .replay tx target =>
    match ns.dag.get target with
    | none => .error (.engine (.versionNotFound target))
    | some baseline =>
      match findExistingCommit ns.dag tx [target] with
      | some h => .ok (.inl h)
      | none => E.planOnto S ns tx target baseline.tree baseline.tree baseline.tree

/-- a request: planned against `planned`, applied against `now` -/
def Engine.request (E : Engine) (planned now : Repository σ) (sub : Submission) (message : String) (fault : Fault) :
    Repository σ × Except Failure Hash :=
  match E.prepare S planned.ns sub with
  | .error f => (now, .error f)
  | .ok (.inl h) => (now, .ok h)
  | .ok (.inr p) =>
    ({ now with ns := (p.applyUnder S now.ns message fault).1 }, (p.applyUnder S now.ns message fault).2)

end WritePhase

section Spec

variable {σ : Type} {S : SchemaOps σ}

variable {s : Store} {f : Failure} {fault : Fault} {message : String} {ns : Namespace σ} {p : PreparedCommit σ}
  {tree : Tree} {E : Engine}

end Spec

/-! ## A lost race on the `ServerEngine` -/

/-- a namespace without a schema, with no branch but main -/
def Repository.fresh (backend : Backend) : Repository Unit := ⟨.init backend true (), fun _ => none⟩

/-- two requests read genesis; this is the state when the second one's commit has landed -/
def Repository.overtaken (backend : Backend) : Repository Unit :=
  { Repository.fresh backend with
    ns := (Engine.strict.commit .schemaless (Repository.fresh backend).ns (writeTx 31 0 2 [("b", .num 2)]) "").1 }

end Kdb
