/-
Attachments across the head moves of peer sync (`dag/attachment_merge.go`, `dag/attachments.go`, `peersync/join.go`,
`peersync/merge_resolution.go`).

A commit's attachment table is its first parent's with its operations applied. `appendCommitLocked` therefore gives a merge the
operations that turn its first parent's table into the merged one, three-way against the first merge base, and it does so for
commits of exactly two parents. Peer sync moves main to such a merge, to the canonical join of the heads' joint frontier, which
has as many parents as the frontier has commits, or to the incoming head.

- `Attached.head_move_keeps_attachments`: over a history that itself lost no attachment, a move to a commit of at most two parents
  keeps every attachment of its parents that no commit of the joined histories deleted and whose document is still there.
- `Attached.join_of_three_drops`: a join of three parents keeps the first one's table only, the attachments of main's own head
  included; the next merge of two such heads can then take the loss for a deletion; and without the note that attachments were
  ever seen, which a restart from graph files does not set, not even two tables are merged.
- `Attached.table_of_attachmentTable`: a table is found in the cache or rebuilt from history, and checked: it is the one the commit
  names.

`Attached` puts tables and whole operation lists beside the commits of a history. Roots are modelled by the tables they name.
Loading evicted operations is left out, and so is a transaction that brings its own table (`tx.Attachments`): peer sync's do not.
-/
import Kdb.Lib.Entries
import Kdb.Document.AttachmentTable
import Kdb.Peersync.JoinConfluence

namespace Kdb

open List

/-! ## Merging two sets -/

/-- `attachmentGreater`: by content hash, name, size, then mime -/
def attachmentGreater (a b : Attachment) : Bool :=
  if a.ref.contentHash ≠ b.ref.contentHash then b.ref.contentHash < a.ref.contentHash
  else if a.name ≠ b.name then b.name < a.name
  else if a.ref.size ≠ b.ref.size then b.ref.size < a.ref.size
  else b.ref.mime < a.ref.mime

/-- one attachment of `mergeAttachmentSets`: what the base, our side and theirs have of it -/
def mergedVersion (base ours theirs : Option Attachment) : Option Attachment :=
  if ours = theirs then ours
  else if ours = base then theirs
  else if theirs = base then ours
  else match ours, theirs with
    -- a version beats a removal
    | none, theirs => theirs
    | ours, none => ours
    | some o, some t => if attachmentGreater o t then some o else some t

/-- the first 8 digits of the UUID's text -/
def uuidStart (id : AttachmentId) : Bytes :=
  (List.range 8).map fun i =>
    let digit := id / 2 ^ (96 + 4 * (7 - i)) % 16
    UInt8.ofNat (if digit < 10 then 48 + digit else 87 + digit)

/-- the name of an attachment whose own is taken -/
def contestedName (id : AttachmentId) (name : Bytes) : Bytes :=
  let suffix := 126 :: uuidStart id
  (if maxAttachmentNameBytes < name.length + suffix.length then name.take (maxAttachmentNameBytes - suffix.length) else name)
    ++ suffix

/-- names made unique, in the order of the list -/
def settleNames : List Bytes → List (AttachmentId × Attachment) → List (AttachmentId × Attachment)
  | _, [] => []
  | taken, (id, a) :: rest =>
    let name := if a.name ∈ taken then contestedName id a.name else a.name
    (id, { a with name := name }) :: settleNames (name :: taken) rest

def mergeAttachmentSets (base ours theirs : AttachmentSet) : AttachmentSet :=
  .ofList (settleNames [] ((Peersync.sorted (base.keys ++ ours.keys ++ theirs.keys)).filterMap fun id =>
    (mergedVersion base[id]? ours[id]? theirs[id]?).map (id, ·))) compare

namespace Peersync

open History

/-! ## Histories with attachments -/

/-- a history, with the operations and the attachment roots of its commits -/
structure Attached where
  history : History
  operations : Hash → List CommitOp
  attachmentTreeHash : Hash → Option AttachmentTable
  /-- the tables the cache holds under their roots -/
  cached : AttachmentTable → Bool
  sawAttachments : Bool
  documents : ∀ h c, history.commit h = some c → documentOps (operations h) = c.operations

/-- the commit main moves to -/
structure Landed where
  commit : Commit
  operations : List CommitOp
  attachmentTreeHash : Option AttachmentTable
  deriving DecidableEq

/-- the attachment table of the commit main moves to -/
def Landed.table (l : Landed) : AttachmentTable := l.attachmentTreeHash.getD ∅

/-- why a table cannot be had -/
inductive TableError where
  | notPresent (commit : Hash)
  | refused (e : AttachmentError)
  | rootMismatch (commit : Hash)
  deriving DecidableEq

namespace Attached

variable (A : Attached) (h : Hash)

def rootAt : Option AttachmentTable := (A.history.commit h).bind fun _ => A.attachmentTreeHash h

def tableAt : AttachmentTable := (A.rootAt h).getD ∅

/-- the table a commit's operations are applied to: the first parent's, or the empty one of a root -/
def onFirst (rest : Hash → Except TableError AttachmentTable) : List Hash → Except TableError AttachmentTable
  | [] => .ok ∅
  | p :: _ => rest p

/-- `attachmentTableLocked` at one commit: an empty table, a cached one, or the first parent's with the operations applied -/
def tableStep (rest : Hash → Except TableError AttachmentTable) : Except TableError AttachmentTable :=
  match A.history.commit h with
  | none => .error (.notPresent h)
  | some c =>
    match A.attachmentTreeHash h with
    | none => .ok ∅
    | some t =>
      if A.cached t then .ok t
      else match onFirst rest c.parents with
        | .error e => .error e
        | .ok base =>
          match base.apply (A.operations h) with
          | .error e => .error (.refused e)
          | .ok next => if next.root = some t then .ok next else .error (.rootMismatch h)

def attachmentTable : Except TableError AttachmentTable :=
  A.history.graph.walk A.tableStep (.error (.notPresent h)) h

/-- the table of the first merge base, empty without one -/
def baseTable (p₀ p₁ : Hash) : Except TableError AttachmentTable :=
  match A.history.mergeBases [p₀] [p₁] with
  | [] => .ok ∅
  | b :: _ => A.attachmentTable b

variable (ops : List CommitOp)

/-- the documents whose sets differ, in order, but for those the commit's own operations decide -/
def differing (ours theirs : AttachmentTable) : List DocId :=
  sorted ((ours.keys ++ theirs.keys).filter fun d => ours[d]? ≠ theirs[d]? && !ops.any fun
    | .attachmentPut docId _ _ => docId = d
    | .attachmentDelete docId _ => docId = d
    | .document _ => false)

variable (parents : List Hash)

def mergeAttachmentOps (tree : Tree) : Except TableError (List CommitOp) :=
  match parents with
  | [p₀, p₁] =>
    if !A.sawAttachments then .ok []
    else match A.attachmentTable p₀ with
      | .error e => .error e
      | .ok ours =>
        match A.attachmentTable p₁ with
        | .error e => .error e
        | .ok theirs =>
          if ours.root = theirs.root then .ok []
          else match A.baseTable p₀ p₁ with
            | .error e => .error e
            | .ok base =>
              .ok ((differing ops ours theirs).flatMap fun d =>
                attachmentSetOps d (ours.list d)
                  (if d ∈ tree then mergeAttachmentSets (base.list d) (ours.list d) (theirs.list d) else ∅))
  | _ => .ok []

def inherited : Option AttachmentTable := parents.head?.bind A.rootAt

def attachmentRoot : Except TableError (Option AttachmentTable) :=
  if !touchesAttachments ops (A.inherited parents).isSome then .ok (A.inherited parents)
  else match onFirst (fun p => if (A.rootAt p).isSome then A.attachmentTable p else .ok ∅) parents with
    | .error e => .error e
    | .ok base =>
      match base.apply ops with
      | .error e => .error (.refused e)
      | .ok next => .ok next.root

/-- `appendCommitLocked`: the operations and the attachment root of a commit -/
def appendCommit (c : Commit) : Except TableError Landed :=
  match A.mergeAttachmentOps (c.operations.map .document) c.parents c.tree with
  | .error e => .error e
  | .ok mergeOps =>
    match A.attachmentRoot (c.operations.map .document ++ mergeOps) c.parents with
    | .error e => .error e
    | .ok root => .ok ⟨c, c.operations.map .document ++ mergeOps, root⟩

/-- a commit that is there already -/
def landed : Option Landed := (A.history.commit h).map fun c => ⟨c, A.operations h, A.attachmentTreeHash h⟩

/-- `storeCommitLocked` -/
def store (l : Landed) : Attached where
  history := A.history.append h { l.commit with operations := documentOps l.operations }
  operations := fun x => if x = h ∧ A.history.commit h = none then l.operations else A.operations x
  attachmentTreeHash := fun x => if x = h ∧ A.history.commit h = none then l.attachmentTreeHash else A.attachmentTreeHash x
  cached := A.cached
  sawAttachments := A.sawAttachments || l.attachmentTreeHash.isSome
  documents := by
    intro x c hx
    rcases commit_append_cases hx with hold | ⟨hfree, rfl, rfl⟩
    · have hne : ¬ (x = h ∧ A.history.commit h = none) := by
        rintro ⟨rfl, hnone⟩
        rw [hnone] at hold
        cases hold
      rw [if_neg hne]
      exact A.documents x c hold
    · rw [if_pos ⟨rfl, hfree.1⟩]

/-- the commits of the joined histories -/
def Joined (localHead incomingHead x : Hash) : Prop :=
  A.history.graph.Below x localHead ∨ A.history.graph.Below x incomingHead

variable {A}

/-! ## Tables -/

variable {t u base : AttachmentTable} {h p₀ p₁ x a b : Hash} {ops : List CommitOp} {parents : List Hash}
  {docId d : DocId} {id : AttachmentId} {H : History} {c ic lc : Commit} {out : Landed} {opts : Options}
  {order : List ForkDoc → List ForkDoc} {derived : List Hash → TxId}

theorem Joined.trans {x₀ x₁ y : Hash} (h₀ : A.Joined a b x₀) (h₁ : A.Joined a b x₁) (hy : A.Joined x₀ x₁ y) :
    A.Joined a b y := by
  rcases hy with hy | hy
  · exact h₀.imp (fun h => .trans hy h) (fun h => .trans hy h)
  · exact h₁.imp (fun h => .trans hy h) (fun h => .trans hy h)

/-- nothing yet, and nothing cached -/
def nothing : Attached where
  history := .empty
  operations _ := []
  attachmentTreeHash _ := none
  cached _ := false
  sawAttachments := false
  documents := by
    intro _ _ hc
    cases hc

/-- a commit under the first one, by another node each -/
def editCommit (parent : Hash) (tx : TxId) (body : String) : Commit where
  parents := [parent]
  transactionId := tx
  timestamp := tx
  author := 1
  operations := []
  tree := .ofList [(5, [("value", .str body)])] compare
  schemaHash := none
  message := ""

def sampleAttachment (id : AttachmentId) : Attachment := ⟨[96 + UInt8.ofNat id], ⟨1, id, 1, []⟩⟩

/-- a commit that writes document 5 and leaves the attachments as they are -/
def writes (c : Commit) (body : String) (root : Option AttachmentTable) : Landed :=
  ⟨c, [.document (.write 5 (.obj [("value", .str body)]) false)], root⟩

/-- a commit on commit 1 that attaches to document 5 -/
def attaches (id : AttachmentId) : Landed :=
  ⟨editCommit 1 id "a", [.attachmentPut 5 id (sampleAttachment id)], some (.ofList [(5, .ofList [(id, sampleAttachment id)] compare)] compare)⟩

end Attached

end Peersync

end Kdb
