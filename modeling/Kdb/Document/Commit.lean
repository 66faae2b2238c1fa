/-
Documents, trees, operations, transactions and commits (`document/kdb_op.go`, `kdb_transaction.go`, `kdb_commit.go`,
`precondition.go`, `document_tree.go`).

A tree is the finite map from document ids to bodies that the document tree's content hashes stand for: hashes of
documents and trees are modelled by what they name (SHA-256 taken as collision free). A commit hash is the commit's
place in the commit table (`Kdb.Dag`). File and attachment operations, and the wire forms, are left out.
- `Tree.applyOps`: the reading of recorded operations by replay and by the historical fold: a write is the whole
  document, a delete removes it.
- `Ops.after`: what a list of recorded operations says about one document; `applyOps_get` reads a tree through it.
-/
import Kdb.Document.Json

namespace Kdb

/-- document ids (`codec.UUID`) -/
abbrev DocId := ℕ

/-- transaction ids -/
abbrev TxId := ℕ

/-- node ids -/
abbrev NodeId := ℕ

/-- commit hashes -/
abbrev Hash := ℕ

/-- `document.DocumentTree`: the live documents by id -/
abbrev Tree := Std.ExtTreeMap DocId Fields compare

instance : DecidableEq Tree := inferInstance

/-- `document.Op`; a write carries a merge patch unless `replace` makes it the whole document -/
inductive Op where
  | write (docId : DocId) (patch : Json) (replace : Bool)
  | delete (docId : DocId)
  | schemaMigration (migrationId : ℕ) (payload : String)
  deriving DecidableEq

/-- the document an operation names (`document.OpDocID`) -/
def Op.docId? : Op → Option DocId
  | .write d _ _ => some d
  | .delete d => some d
  | .schemaMigration _ _ => none

/-- `document.PreconditionKind`, with the content `ExpectContentHash` requires -/
inductive Expectation where
  | any
  | absent
  | present
  | contentHash (id : DocId) (body : Fields)
  deriving DecidableEq

structure Precondition where
  opIndex : ℕ
  kind : Expectation
  deriving DecidableEq

structure Transaction where
  id : TxId
  baseVersion : Hash
  operations : List Op
  timestamp : ℕ
  author : NodeId
  preconditions : List Precondition
  deriving DecidableEq

structure Commit where
  parents : List Hash
  transactionId : TxId
  timestamp : ℕ
  author : NodeId
  operations : List Op
  tree : Tree
  schemaHash : Option ℕ
  message : String
  deriving DecidableEq

/-! ## Reading recorded operations -/

variable (t : Tree)

/-- one recorded operation applied to a tree -/
def Tree.applyOp : Op → Tree
  | .write d patch _ =>
    match patch.rootObject with
    | some body => t.insert d body
    | none => t
  | .delete d => t.erase d
  | .schemaMigration _ _ => t

/-- recorded operations applied in order -/
def Tree.applyOps (ops : List Op) : Tree := ops.foldl Tree.applyOp t

/-- what one recorded operation makes of document `d`: `some` its new state, or `none` when it says nothing -/
def Op.after (d : DocId) : Op → Option (Option Fields)
  | .write e patch _ => if e = d then patch.rootObject.map some else none
  | .delete e => if e = d then some none else none
  | .schemaMigration _ _ => none

/-- what a list of recorded operations makes of document `d`: the last one naming it decides -/
def Ops.after (d : DocId) : List Op → Option (Option Fields)
  | [] => none
  | op :: ops => (Ops.after d ops).or (op.after d)

theorem Ops.mem_of_after {d : DocId} {ops : List Op} (h : Ops.after d ops ≠ none) : ∃ op ∈ ops, op.docId? = some d := by
  induction ops with
  | nil => exact absurd rfl h
  | cons op ops ih =>
    by_cases hops : Ops.after d ops = none
    · have hop : op.after d ≠ none := by simpa [Ops.after, hops] using h
      refine ⟨op, .head _, ?_⟩
      cases op with
      | write e patch replace =>
        by_contra hne
        exact hop (if_neg fun he => hne (congrArg some he))
      | delete e =>
        by_contra hne
        exact hop (if_neg fun he => hne (congrArg some he))
      | schemaMigration _ _ => exact absurd rfl hop
    · obtain ⟨op', hmem, hd⟩ := ih hops
      exact ⟨op', .tail _ hmem, hd⟩

theorem Tree.get_insert (d e : DocId) (body : Fields) : (t.insert d body)[e]? = if d = e then some body else t[e]? := by
  simp [Std.ExtTreeMap.getElem?_insert]

theorem Tree.get_erase (d e : DocId) : (t.erase d)[e]? = if d = e then none else t[e]? := by
  simp [Std.ExtTreeMap.getElem?_erase]

theorem Tree.foldl_erase_get (ds : List DocId) (t : Tree) (d : DocId) :
    (ds.foldl (fun t e => t.erase e) t)[d]? = if d ∈ ds then none else t[d]? := by
  induction ds generalizing t with
  | nil => simp
  | cons e ds ih =>
    rw [List.foldl_cons, ih, Tree.get_erase]
    by_cases hd : d ∈ ds
    · simp [hd]
    · by_cases he : e = d
      · simp [he]
      · simp [he, Ne.symm he]

theorem Tree.ext_get {t u : Tree} (h : ∀ d : DocId, t[d]? = u[d]?) : t = u := Std.ExtTreeMap.ext_getElem? h

theorem Tree.applyOp_get (op : Op) (d : DocId) : (t.applyOp op)[d]? = (op.after d).getD t[d]? := by
  cases op with
  | write e patch replace =>
    cases hp : patch.rootObject with
    | none => by_cases h : e = d <;> simp [applyOp, Op.after, hp]
    | some body => by_cases h : e = d <;> simp [applyOp, Op.after, hp, h, get_insert]
  | delete e => by_cases h : e = d <;> simp [applyOp, Op.after, h, get_erase]
  | schemaMigration _ _ => rfl

/-- The last operation naming a document decides what the tree holds for it; an unnamed document keeps its state. -/
theorem Tree.applyOps_get (ops : List Op) (d : DocId) : (t.applyOps ops)[d]? = (Ops.after d ops).getD t[d]? := by
  induction ops generalizing t with
  | nil => rfl
  | cons op ops ih =>
    change ((t.applyOp op).applyOps ops)[d]? = _
    rw [ih, applyOp_get]
    cases h : Ops.after d ops <;> simp [Ops.after, h]

end Kdb
