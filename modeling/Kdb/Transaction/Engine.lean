/-
The transaction engine (`transaction/default_engine.go`, `prepare.go`, `preconditions.go`): Commit, Replay and Merge over
one namespace's DAG, storage and unique-key registry.

`plan` is the check half (schema phase, preconditions, conflict policy, unique keys) and writes nothing;
`PreparedCommit.apply` stages the writes, builds the tree, appends the commit and moves the registry. The schema phase
reads documents from the baseline tree (the transaction's base) and from what the transaction has staged so far, while
the commit is appended onto the anchor. File and attachment operations and their preflight are left out, as are storage
I/O failures; a caller runs one call at a time (the write gate). What the calls do is stated in
`Kdb.Transaction.EngineSpec`.
-/
import Kdb.Storage.TreeStore
import Kdb.Transaction.UniqueKeys

namespace Kdb

/-- `defaultEngine`: conflict policy, custom resolver, whether the registry and the preconditions are wired -/
structure Engine where
  conflictPolicy : ConflictPolicy
  customResolver : Option (DocumentConflict → Option Fields)
  uniqueKeys : Bool
  preconditions : Bool

/-- what a call works on: the DAG, the storage adapter, the shared registry and the namespace's schema -/
structure Namespace (σ : Type) where
  dag : Dag
  store : Store
  owners : Owners
  schema : σ

/-- a transaction that passed every check (`PreparedCommit`) -/
structure PreparedCommit (σ : Type) where
  tx : Transaction
  anchorCommit : Hash
  extendingTip : Bool
  writes : List (Option Fields)
  rollingSchema : σ
  uniques : UniquePlan

/-! ## The schema phase -/

/-- the states documents have reached within a transaction; `some none` is deleted, `none` not touched -/
abbrev Pending := DocId → Option (Option Fields)

/-- a document as the transaction sees it: its pending state, or the baseline tree's -/
def Pending.current (pending : Pending) (baseline : Tree) (d : DocId) : Option Fields :=
  (pending d).getD baseline[d]?

/-- the body a write makes of a document: the patch merged over it, or the patch alone when the document is absent or
the write replaces it -/
def candidate (cur : Option Fields) (patch : Json) (replace : Bool) : Option Fields :=
  match cur with
  | some base => if replace then patch.rootObject else patch.rootObject.map base.merge
  | none => patch.rootObject

/-- `schemaOutcome`; `writes` holds the staged body of each operation -/
structure SchemaFrame (σ : Type) where
  rollingSchema : σ
  violations : List OperationViolation
  writes : List (Option Fields)

namespace SchemaFrame

variable {σ : Type}

def reject (v : OperationViolation) (f : SchemaFrame σ) : SchemaFrame σ :=
  { f with violations := v :: f.violations, writes := none :: f.writes }

/-- an operation accepted, with the body it stages -/
def stage (w : Option Fields) (f : SchemaFrame σ) : SchemaFrame σ := { f with writes := w :: f.writes }

end SchemaFrame

section Engine

variable {σ : Type} (S : SchemaOps σ)

/-- `runSchemaPhase` from the operation at `index` on -/
def schemaPhaseFrom (baseline : Tree) : (index : ℕ) → σ → Pending → List Op → SchemaFrame σ
  | _, rolling, _, [] => ⟨rolling, [], []⟩
  | index, rolling, pending, .write d patch replace :: ops =>
    match candidate (pending.current baseline d) patch replace with
    | none =>
      (schemaPhaseFrom baseline (index + 1) rolling pending ops).reject
        ⟨index, some (.write d patch replace), [⟨DocId.text d, .customConstraint, "invalid write payload"⟩]⟩
    | some body =>
      match S.validate rolling body with
      | [] =>
        (schemaPhaseFrom baseline (index + 1) rolling (Function.update pending d (some (some body))) ops).stage
          (some body)
      | v :: vs =>
        (schemaPhaseFrom baseline (index + 1) rolling pending ops).reject
          ⟨index, some (.write d patch replace), v :: vs⟩
  | index, rolling, pending, .delete d :: ops =>
    (schemaPhaseFrom baseline (index + 1) rolling (Function.update pending d (some none)) ops).stage none
  | index, rolling, pending, .schemaMigration m payload :: ops =>
    match S.applyMigration rolling payload with
    | .error v =>
      (schemaPhaseFrom baseline (index + 1) rolling pending ops).reject
        ⟨index, some (.schemaMigration m payload), [v]⟩
    | .ok next => (schemaPhaseFrom baseline (index + 1) next pending ops).stage none

def runSchemaPhase (schema : σ) (baseline : Tree) (ops : List Op) : SchemaFrame σ :=
  schemaPhaseFrom S baseline 0 schema (fun _ => none) ops

/-! ## Preconditions and conflicts -/

/-- `PreconditionsByOpIndex`: an index out of range or declared twice is the client's error -/
def preconditionsByOpIndex (opCount : ℕ) : (seen : List ℕ) → List Precondition → Option String
  | _, [] => none
  | seen, p :: ps =>
    if opCount ≤ p.opIndex then
      some s!"kdb precondition: op index {p.opIndex} out of range for {opCount} operations"
    else if p.opIndex ∈ seen then some s!"kdb precondition: duplicate precondition for op index {p.opIndex}"
    else preconditionsByOpIndex opCount (p.opIndex :: seen) ps

/-- `preconditionHolds`, with the content hash it reports -/
def preconditionHolds (kind : Expectation) (d : DocId) (existing : Option Fields) : Bool × Option Fields :=
  match kind with
  | .any => (true, none)
  | .absent => (existing.isNone, none)
  | .present => (existing.isSome, existing)
  | .contentHash id body => (existing = some body ∧ id = d, existing)

/-- the loop of `evaluatePreconditions`: failed assertions, or the violation of one that names no document -/
def evaluatePreconditionsFrom (target : Tree) (pres : List Precondition) :
    (index : ℕ) → List Op → Except OperationViolation (List OperationConflict)
  | _, [] => .ok []
  | index, op :: ops =>
    match pres.find? fun p => p.opIndex = index ∧ p.kind ≠ .any with
    | none => evaluatePreconditionsFrom target pres (index + 1) ops
    | some p =>
      match op.docId? with
      | none =>
        .error ⟨index, some op,
          [⟨"", .customConstraint, "precondition declared on an operation that names no document"⟩]⟩
      | some d =>
        let existing := target[d]?
        let held := preconditionHolds p.kind d existing
        match evaluatePreconditionsFrom target pres (index + 1) ops with
        | .error v => .error v
        | .ok failures =>
          if held.1 then .ok failures
          else .ok (⟨index, op, .preconditionFailed, existing, none, existing, held.2⟩ :: failures)

/-- `guardedOpIndexes`: the operations with a real precondition -/
def guardedOpIndexes (tx : Transaction) : List ℕ :=
  tx.preconditions.filterMap fun p => if p.kind = .any then none else some p.opIndex

variable (E : Engine)

/-- the precondition part of `plan`: the operations exempt from conflict detection, or the refusal -/
def Engine.checkPreconditions (tx : Transaction) (target : Tree) : Except Rejection (List ℕ) :=
  if E.preconditions ∧ tx.preconditions ≠ [] then
    match preconditionsByOpIndex tx.operations.length [] tx.preconditions with
    | some detail => .error (.schemaError [⟨0, none, [⟨"", .customConstraint, detail⟩]⟩])
    | none =>
      match evaluatePreconditionsFrom target tx.preconditions 0 tx.operations with
      | .error v => .error (.schemaError [v])
      | .ok [] => .ok (guardedOpIndexes tx)
      | .ok failures => .error (.conflict failures)
  else .ok []

/-- the conflict kind of a write over a document that changed since the base -/
def writeConflictType (base existing : Option Fields) : ConflictType :=
  match existing, base with
  | some _, none => .deleteWrite
  | none, some _ => .writeDelete
  | _, _ => .concurrentWrite

/-- one operation of `detectConflicts` -/
def operationConflict (base target : Tree) (guarded : List ℕ) (index : ℕ) (op : Op) (staged : Option Fields) :
    Option OperationConflict :=
  if index ∈ guarded then none
  else
    match op with
    | .write d _ _ =>
      if base[d]? = target[d]? then none
      else some ⟨index, op, writeConflictType base[d]? target[d]?, target[d]?, staged, base[d]?, none⟩
    | .delete d =>
      if base[d]? = target[d]? then none
      else
        some ⟨index, op, if target[d]?.isSome then .concurrentWrite else .deleteWrite, target[d]?, none, base[d]?, none⟩
    | .schemaMigration _ _ => none

def detectConflicts (base target : Tree) (guarded : List ℕ) (ops : List Op) (writes : List (Option Fields)) :
    List OperationConflict :=
  (ops.zip writes).zipIdx.filterMap fun e => operationConflict base target guarded e.2 e.1.1 e.1.2

/-- the custom resolver's turn: every conflicting write is rewritten, or the transaction is refused -/
def resolveConflicts (resolve : DocumentConflict → Option Fields) (rolling : σ) (conflicts : List OperationConflict) :
    List OperationConflict → List (Option Fields) → Except Rejection (List (Option Fields))
  | [], writes => .ok writes
  | c :: cs, writes =>
    match c.op with
    | .write d _ _ =>
      match resolve ⟨d, c.type, c.existingDoc, c.incomingDoc, c.baseDoc⟩ with
      | none => .error (.conflict conflicts)
      | some body =>
        match S.validate rolling body with
        | [] => resolveConflicts resolve rolling conflicts cs (writes.set c.opIndex (some body))
        | v :: vs => .error (.schemaError [⟨c.opIndex, some c.op, v :: vs⟩])
    | _ => .error (.conflict conflicts)

/-- the conflict-policy part of `plan`: the writes to stage, or the refusal -/
def Engine.settleConflicts (rolling : σ) (tx : Transaction) (base target : Tree) (guarded : List ℕ)
    (writes : List (Option Fields)) : Except Rejection (List (Option Fields)) :=
  match E.conflictPolicy with
  | .appendOnly => .ok writes
  | .lastWrite => .ok writes
  | .strict =>
    match detectConflicts base target guarded tx.operations writes with
    | [] => .ok writes
    | conflicts => .error (.conflict conflicts)
  | .custom =>
    match detectConflicts base target guarded tx.operations writes with
    | [] => .ok writes
    | conflicts =>
      match E.customResolver with
      | none => .error (.conflict conflicts)
      | some resolve => resolveConflicts S resolve rolling conflicts conflicts writes

/-- the unique-key part of `plan`; an engine without a registry plans nothing -/
def Engine.checkUniqueKeys (rolling : σ) (owners : Owners) (target : Tree) (ops : List Op)
    (writes : List (Option Fields)) : Except Rejection UniquePlan :=
  if E.uniqueKeys then
    match planUniqueKeys (S.uniqueTuples rolling) owners target ops writes with
    | (p, []) => .ok p
    | (_, violations) => .error (.schemaError violations)
  else .ok ⟨fun _ => none, fun _ => none⟩

variable (ns : Namespace σ)

/-- `plan`: every check, no write; `base` is the tree conflicts are judged from, `baseline` the one documents are read
from, `target` the tree the transaction lands on -/
def Engine.plan (tx : Transaction) (anchor : Hash) (base baseline target : Tree) : Except Rejection (PreparedCommit σ) :=
  let frame := runSchemaPhase S ns.schema baseline tx.operations
  if frame.violations ≠ [] then .error (.schemaError frame.violations)
  else
    (E.checkPreconditions tx target).bind fun guarded =>
    (E.settleConflicts S frame.rollingSchema tx base target guarded frame.writes).bind fun writes =>
    (E.checkUniqueKeys S frame.rollingSchema ns.owners target tx.operations writes).bind fun uniques =>
    .ok ⟨tx, anchor, ns.dag.headIs anchor, writes, frame.rollingSchema, uniques⟩

/-! ## Applying -/

/-- the write loop of `Apply` -/
def stageOps (s : Store) : List Op → List (Option Fields) → Store
  | .write d _ _ :: ops, some body :: writes => stageOps (s.putDocument d body) ops writes
  | .delete d :: ops, _ :: writes => stageOps (s.deleteDocument d) ops writes
  | _ :: ops, _ :: writes => stageOps s ops writes
  | _, _ => s

/-- `operationsAsStored`: each write records the whole document staged for it -/
def operationsAsStored : List Op → List (Option Fields) → List Op
  | .write d _ _ :: ops, some body :: writes => .write d (.obj body) false :: operationsAsStored ops writes
  | op :: ops, _ :: writes => op :: operationsAsStored ops writes
  | ops, [] => ops
  | [], _ => []

/-- the schema hash recorded on a commit -/
def schemaHashWire (rolling : σ) : Option ℕ := if S.isNone rolling then none else some (S.schemaHash rolling)

def PreparedCommit.recorded (p : PreparedCommit σ) : Transaction :=
  { p.tx with operations := operationsAsStored p.tx.operations p.writes }

/-- `Apply`: stage, build the tree, append, move the registry -/
def PreparedCommit.apply (p : PreparedCommit σ) (ns : Namespace σ) (message : String) :
    Namespace σ × Except EngineError TransactionResult :=
  let staged := stageOps ns.store p.tx.operations p.writes
  match ns.dag.get p.anchorCommit with
  | none => ({ ns with store := staged }, .error (.versionNotFound p.anchorCommit))
  | some anchor =>
    let built := staged.commitTree anchor.tree
    match ns.dag.append p.recorded [p.anchorCommit] built.2 (schemaHashWire S p.rollingSchema) message
        (if p.extendingTip then some p.anchorCommit else none) with
    | .error e => ({ ns with store := built.1.discardPending }, .error (.appendFailed e))
    | .ok (dag, h) =>
      ({ ns with dag := dag, store := built.1, owners := p.uniques.apply ns.owners }, .ok (.success h))

def Engine.finalizeTransaction (tx : Transaction) (anchor : Hash)
    (base baseline target : Tree) (message : String) : Namespace σ × Except EngineError TransactionResult :=
  match E.plan S ns tx anchor base baseline target with
  | .error reason => (ns, .ok (.rejected reason))
  | .ok p => p.apply S ns message

/-- `findExistingCommit`: the first commit of the transaction id, when it has exactly these parents -/
def findExistingCommit (dag : Dag) (tx : Transaction) (parents : List Hash) : Option Hash :=
  match dag.commitByTransactionId tx.id with
  | some h => if dag.parents h = parents then some h else none
  | none => none

/-- `Commit` onto main's head -/
def Engine.commit (tx : Transaction) (message : String) : Namespace σ × Except EngineError TransactionResult :=
  let head := ns.dag.main
  match ns.dag.get tx.baseVersion with
  | none => (ns, .error (.baseNotFound tx.baseVersion))
  | some baseCommit =>
    match findExistingCommit ns.dag tx [head] with
    | some h => (ns, .ok (.success h))
    | none =>
      match ns.dag.get head with
      | none => (ns, .error (.versionNotFound head))
      | some targetCommit =>
        E.finalizeTransaction S ns tx head baseCommit.tree baseCommit.tree targetCommit.tree message

/-- `Replay` onto a named commit -/
def Engine.replay (tx : Transaction) (replayTarget : Hash) (message : String) :
    Namespace σ × Except EngineError TransactionResult :=
  match ns.dag.get replayTarget with
  | none => (ns, .error (.versionNotFound replayTarget))
  | some baseline =>
    match findExistingCommit ns.dag tx [replayTarget] with
    | some h => (ns, .ok (.success h))
    | none =>
      E.finalizeTransaction S ns tx replayTarget baseline.tree baseline.tree baseline.tree message

/-! ## Merge -/

/-- `branchDocuments.rebase`: each write becomes the branch's own field-level change carried onto the primary's
document; `docs` and `primary` are the branch's and the primary's states seen so far -/
def rebaseOps (ancestorTree primaryTree : Tree) : Pending → Pending → List Op → Pending × List Op
  | docs, _, [] => (docs, [])
  | docs, primary, .write d patch replace :: ops =>
    match patch.rootObject with
    | none =>
      let r := rebaseOps ancestorTree primaryTree docs primary ops
      (r.1, .write d patch replace :: r.2)
    | some after =>
      let rebased := after.rebasedOnto (docs.current ancestorTree d) (primary.current primaryTree d)
      let r := rebaseOps ancestorTree primaryTree (Function.update docs d (some (some after)))
        (Function.update primary d (some (some rebased))) ops
      (r.1, .write d (.obj rebased) true :: r.2)
  | docs, primary, .delete d :: ops =>
    let r := rebaseOps ancestorTree primaryTree (Function.update docs d (some none))
      (Function.update primary d (some none)) ops
    (r.1, .delete d :: r.2)
  | docs, primary, op :: ops =>
    let r := rebaseOps ancestorTree primaryTree docs primary ops
    (r.1, op :: r.2)

def mergeStep (mc : Commit) (head : Hash) (ops : List Op) : Transaction where
  id := mc.transactionId
  baseVersion := head
  operations := ops
  timestamp := mc.timestamp
  author := mc.author
  preconditions := []

/-- the replay loop of `Merge`: the tip it reaches, or the result it stops with -/
def Engine.mergeSteps (E : Engine) (ancestorTree : Tree) :
    List Hash → Namespace σ → Pending → Hash → Namespace σ × Except EngineError (Except Rejection Hash)
  | [], ns, _, head => (ns, .ok (.ok head))
  | h :: rest, ns, docs, head =>
    match ns.dag.get h with
    | none => (ns, .error (.versionNotFound h))
    | some mc =>
      if mc.operations = [] then mergeSteps E ancestorTree rest ns docs head
      else
        match ns.dag.get head with
        | none => (ns, .error (.versionNotFound head))
        | some headCommit =>
          let r := rebaseOps ancestorTree headCommit.tree docs (fun _ => none) mc.operations
          match E.replay S ns (mergeStep mc head r.2) head s!"merge-step:{h}" with
          | (ns', .error e) => (ns', .error e)
          | (ns', .ok (.success h')) => mergeSteps E ancestorTree rest ns' r.1 h'
          | (ns', .ok (.rejected reason)) => (ns', .ok (.error reason))

/-- the marker transaction of `Merge` -/
def mergeMarker (markerId : TxId) (now : ℕ) (author : NodeId) (primaryHead : Hash) : Transaction where
  id := markerId
  baseVersion := primaryHead
  operations := []
  timestamp := now
  author := author
  preconditions := []

/-- the end of `Merge`: cap the replay chain with a two-parent marker rooted at the primary head. The tree is looked
up in the DAG's own map, which is empty when an external tree store is installed. -/
def capMerge (primaryHead mergedHead head : Hash) (markerId : TxId) (now : ℕ)
    (message : String) : Namespace σ × Except EngineError TransactionResult :=
  match ns.dag.get head, ns.dag.get mergedHead with
  | none, _ => (ns, .error (.versionNotFound head))
  | some headCommit, merged =>
    if ns.dag.treeStore then (ns, .error .treeNotFound)
    else
      match merged with
      | none => (ns, .error (.versionNotFound mergedHead))
      | some mergedCommit =>
        match ns.dag.append (mergeMarker markerId now mergedCommit.author primaryHead) [primaryHead, mergedHead]
            headCommit.tree headCommit.schemaHash message (some head) with
        | .error e => (ns, .error (.appendFailed e))
        | .ok (dag, h) => ({ ns with dag := dag }, .ok (.success h))

/-- the merged branch's commits since the ancestor, parents first -/
def branchOrder (hexLe : Hash → Hash → Bool) (dag : Dag) (mergedHead ancestor : Hash) : List Hash :=
  let branchCommits := dag.commitsSince hexLe mergedHead ancestor
  dag.topoSort hexLe (if branchCommits = [] then [mergedHead] else branchCommits)

/-- `Merge`: replay the merged branch's commits onto the primary head, then cap them with a marker -/
def Engine.merge (hexLe : Hash → Hash → Bool) (ns : Namespace σ) (primaryHead mergedHead : Hash)
    (markerId : TxId) (now : ℕ) (message : String) : Namespace σ × Except EngineError TransactionResult :=
  match ns.dag.commonAncestor primaryHead mergedHead with
  | none => (ns, .error (.mergeBaseNotFound primaryHead mergedHead))
  | some ancestor =>
    match ns.dag.get ancestor with
    | none => (ns, .error (.versionNotFound ancestor))
    | some ancestorCommit =>
      match E.mergeSteps S ancestorCommit.tree (branchOrder hexLe ns.dag mergedHead ancestor) ns (fun _ => none)
          primaryHead with
      | (ns', .error e) => (ns', .error e)
      | (ns', .ok (.error reason)) => (ns', .ok (.rejected reason))
      | (ns', .ok (.ok head)) => capMerge ns' primaryHead mergedHead head markerId now message

end Engine

end Kdb
