/-
The vocabulary of the transaction engine (`transaction/types.go`, `error/payloads.go`) and what it needs from schemas.

Results carry the violations and conflicts the engine reports. The rendering of a conflict report for the wire
(`toReport`) is left out: it prints these records. The schema component is a parameter: `SchemaOps` names the five
functions of it the engine calls.
-/
import Kdb.Dag.CommitDag

namespace Kdb

inductive ViolationType where
  | requiredFieldMissing
  | typeMismatch
  | uniqueConstraint
  | enumValueNotDeclared
  | customConstraint
  deriving DecidableEq

structure FieldViolation where
  fieldName : String
  violationType : ViolationType
  detail : String
  deriving DecidableEq

/-- `OperationViolation`; the malformed precondition set is reported without an operation -/
structure OperationViolation where
  opIndex : ℕ
  op : Option Op
  violations : List FieldViolation
  deriving DecidableEq

/-- `kdberr.ConflictOperationType`, as far as the engine reports it -/
inductive ConflictType where
  | concurrentWrite
  | writeDelete
  | deleteWrite
  | preconditionFailed
  deriving DecidableEq

structure OperationConflict where
  opIndex : ℕ
  op : Op
  type : ConflictType
  existingDoc : Option Fields
  incomingDoc : Option Fields
  baseDoc : Option Fields
  actualContentHash : Option Fields
  deriving DecidableEq

inductive ConflictPolicy where
  | appendOnly
  | lastWrite
  | strict
  | custom
  deriving DecidableEq

/-- `DocumentConflict`: what a custom resolver is asked -/
structure DocumentConflict where
  docId : DocId
  operationType : ConflictType
  existingDoc : Option Fields
  incomingDoc : Option Fields
  baseDoc : Option Fields

/-- the results that reject a transaction: `ResultConflict` and `ResultSchemaError` -/
inductive Rejection where
  | conflict (conflictingOps : List OperationConflict)
  | schemaError (violations : List OperationViolation)
  deriving DecidableEq

/-- `TransactionResult`; write-phase aborts (storage I/O failures) are left out -/
inductive TransactionResult where
  | success (commit : Hash)
  | rejected (reason : Rejection)
  deriving DecidableEq

/-- the errors of the engine's calls -/
inductive EngineError where
  | baseNotFound (base : Hash)
  | versionNotFound (hash : Hash)
  | treeNotFound
  | mergeBaseNotFound (primary merged : Hash)
  | appendFailed (err : AppendError)

/-- a document id as text (`UUID.String`) -/
def DocId.text (d : DocId) : String := toString d

/-- a field name by its dot-separated parts -/
abbrev FieldPath := List String

/-- what the engine calls on schemas: `IsNone`, `SchemaHash`, `Validate` (the violations found, none when valid),
`UniqueTuples`, and `DecodeMigration` with `ApplyMigration` (the reason of a refusal) -/
structure SchemaOps (σ : Type) where
  isNone : σ → Bool
  schemaHash : σ → ℕ
  validate : σ → Fields → List FieldViolation
  uniqueTuples : σ → List (List FieldPath)
  applyMigration : σ → String → Except FieldViolation σ

/-- a namespace without a schema: every document is valid, nothing is unique, a migration changes nothing -/
def SchemaOps.schemaless : SchemaOps Unit where
  isNone := fun _ => true
  schemaHash := fun _ => 0
  validate := fun _ _ => []
  uniqueTuples := fun _ => []
  applyMigration := fun s _ => .ok s

end Kdb
