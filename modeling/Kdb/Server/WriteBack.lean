/-
The outbox of a write-back projection (`server/writeback.go`, `server/projection.go`, `clientWrite` of
`server/server_runtime.go`).

A projection that takes writes commits them at once and sends them to its source later. Its own commit graph is the outbox: a
client's commit records in its message what each document was before, a decision is a later commit that names the client's. The
list of undecided writes is kept in memory, appended to by every client write that succeeds and cut by every decision, and read
again from the graph whenever it may be wrong.

- `outbox_is_undecided`: the list is exactly the local writes on main that no decision names, oldest first and each
  once.
- `list_differs_from_graph`: not after a recognised retry, nor after a replay that names an older commit.
- `Outbox.collect_eq`: the walk that reads the list from the graph finds the undecided writes, since decisions are made in order.

A commit hash is the commit's place in the graph, genesis is zero. The operations of a write are those its commit records (whole
bodies). Whether the engine takes a transaction, and whether a later stage fails once it has, is part of the event; so is a failure
to read a new commit's attachments back, which ends as the latter does. The conflict queue that a refused write is copied to and
the transaction id it is sent under are left out.
-/
import Kdb.Lib.Machine
import Kdb.Document.AttachmentTable

namespace Kdb

open Machine

/-- the document an operation names (`document.OpDocID`) -/
def CommitOp.docId? : CommitOp → Option DocId
  | .document op => op.docId?
  | .attachmentPut docId _ _ => some docId
  | .attachmentDelete docId _ => some docId

/-- the operation is one on the document's attachments -/
def CommitOp.attaches : CommitOp → Bool
  | .document _ => false
  | .attachmentPut _ _ _ => true
  | .attachmentDelete _ _ => true

namespace WriteBack

/-- `WriteBackApplied`, `WriteBackConflict`, `WriteBackRefused` -/
inductive Outcome where
  | applied
  | conflict
  | refused
  deriving DecidableEq

/-- what a local write's message says of one document: its body before and, when the write changes its attachments, the set it
had -/
structure Base where
  body : Option Fields
  attachments : Option AttachmentSet
  deriving DecidableEq

/-- the messages of a projection's commits, as `ParseProjectionMessage`, `parseLocalWrite` and `resolvedCommit` read them -/
inductive Message (H : Type) where
  | page (source : H) (complete : Bool)
  | localWrite (bases : List (DocId × Base))
  | resolved (commit : ℕ) (outcome : Outcome)
  | other
  deriving DecidableEq

def Message.resolvedCommit {H : Type} : Message H → Option ℕ
  | .resolved commit _ => some commit
  | _ => none

/-- a commit of the projection's graph -/
structure Committed (H : Type) where
  hash : ℕ
  transactionID : TxId
  parent : ℕ
  message : Message H
  operations : List CommitOp
  tree : Tree
  table : AttachmentTable
  deriving DecidableEq

/-- what becomes of a document's body -/
inductive BodyChange where
  | keepBody
  | body (patch : Json)
  | deleted
  deriving DecidableEq

structure WriteBackDoc where
  docID : DocId
  baseHash : Option Fields
  change : BodyChange
  /-- the attachments before and after, of a document whose attachments changed -/
  attachments : Option (AttachmentSet × AttachmentSet)
  deriving DecidableEq

structure PendingWrite where
  commit : ℕ
  docs : List WriteBackDoc
  deriving DecidableEq

/-- the `final` map of `pendingWrite`: the last operation on the body decides -/
def bodyChange (id : DocId) : List CommitOp → BodyChange
  | [] => .keepBody
  | op :: ops =>
    match bodyChange id ops, op with
    | .keepBody, .document (.write docId patch _) => if docId = id then .body patch else .keepBody
    | .keepBody, .document (.delete docId) => if docId = id then .deleted else .keepBody
    | change, _ => change

variable {H : Type} (c : Committed H)

/-- one document of `pendingWrite` -/
def Committed.pendingDoc (id : DocId) (base : Base) : WriteBackDoc :=
  let change := bodyChange id c.operations
  ⟨id, base.body, change, if change = .deleted then none else base.attachments.map fun set => (set, c.table.list id)⟩

def Committed.pendingWrite : Option PendingWrite :=
  match c.message with
  | .localWrite bases => some ⟨c.hash, bases.map fun entry => c.pendingDoc entry.1 entry.2⟩
  | _ => none

/-! ## The projection -/

/-- a projection's commits, newest first, and `writeBackState` -/
structure Outbox (H : Type) where
  commits : List (Committed H) := []
  loaded : Bool := false
  pending : List PendingWrite := []
  deriving DecidableEq

/-- how a commit ends: made, refused, or made and then failed -/
inductive Landing where
  | lands
  | fails
  | failsLanded
  deriving DecidableEq

variable (s : Outbox H) (accepts : DocId → Json → Bool)

namespace Outbox

/-- every commit moves main to itself -/
def head : ℕ := s.commits.length

def getCommit (commits : List (Committed H)) (h : ℕ) : Option (Committed H) := commits.find? fun c => c.hash = h

/-- a commit and its first parents -/
def lineFrom (commits : List (Committed H)) : ℕ → ℕ → List (Committed H)
  | 0, _ => []
  | fuel + 1, h =>
    match getCommit commits h with
    | none => []
    | some c => c :: lineFrom commits fuel c.parent

/-- the commits on main, newest first -/
def main : List (Committed H) := lineFrom s.commits s.commits.length s.head

/-- the documents at a commit -/
def treeAt (h : ℕ) : Tree := ((getCommit s.commits h).map Committed.tree).getD ∅

def tableAt (h : ℕ) : AttachmentTable := ((getCommit s.commits h).map Committed.table).getD ∅

/-- `opDocID`: the nil id when the operation names no document -/
def opDocID (op : CommitOp) : DocId := op.docId?.getD 0

/-- `localWriteMessage`; with no document to list it does not parse as a local write -/
def localWriteMessage (ops : List CommitOp) : Message H :=
  let base := fun id => (⟨(s.treeAt s.head)[id]?,
    if ops.any fun op => op.attaches && opDocID op = id then some ((s.tableAt s.head).list id) else none⟩ : Base)
  match (ops.map opDocID).eraseDups with
  | [] => .other
  | ids => .localWrite (ids.map fun id => (id, base id))

variable (tx : TxId)

/-- a commit on `parent`; refused when the attachment operations do not apply -/
def append (parent : ℕ) (message : Message H) (ops : List CommitOp) : Option (Committed H) :=
  match (s.tableAt parent).apply ops with
  | .error _ => none
  | .ok table => some ⟨s.commits.length + 1, tx, parent, message, ops, (s.treeAt parent).applyOps (documentOps ops), table⟩

/-- the state with the commit made -/
def grown (s : Outbox H) (c : Committed H) : Outbox H := { s with commits := c :: s.commits }

/-- the first commit of a transaction id, when it stands on `parent` (`findExistingCommit`) -/
def findExistingCommit (parent : ℕ) : Option (Committed H) :=
  (s.commits.reverse.find? fun c => c.transactionID = tx).filter fun c => c.parent = parent

/-- `loadPendingLocked`'s walk, newest first: up to the write the newest decision names -/
def collect : Option ℕ → List (Committed H) → List PendingWrite
  | _, [] => []
  | stop, c :: rest =>
    if stop = some c.hash then []
    else match c.pendingWrite with
      | some w => w :: collect stop rest
      | none => collect (stop.or c.message.resolvedCommit) rest

def loadPending : Outbox H := { s with pending := (collect none s.main).reverse, loaded := true }

/-- the list is read from the graph unless it is loaded -/
def load : Outbox H := if s.loaded then s else s.loadPending

def pendingWrites : List PendingWrite := s.load.pending

def pendingDocs : List DocId := s.pendingWrites.flatMap fun w => w.docs.map WriteBackDoc.docID

/-! ## Its writers -/

/-- `admitProjectionWrite` -/
def admitted (ops : List CommitOp) : Bool :=
  ops.all fun
    | .document (.schemaMigration _ _) => false
    | _ => true

/-- `clientWrite` after its transaction succeeded with commit `c` -/
def listed (s : Outbox H) (c : Committed H) : Outbox H :=
  match c.pendingWrite with
  | some w => if s.loaded then { s with pending := s.pending ++ [w] } else s
  | none => s

/-- `clientWrite` after its transaction failed -/
def unloaded : Outbox H := { s with loaded := false }

/-- a client's transaction on `target`: `Commit` on the head, `Replay` on a named commit -/
def clientWrite (target : ℕ) (ops : List CommitOp) (landing : Landing) : Outbox H :=
  if !admitted ops || landing = .fails then s.unloaded
  else match s.findExistingCommit tx target with
    | some c => if landing = .lands then s.listed c else s.unloaded
    | none =>
      if s.head < target then s.unloaded
      else match s.append tx target (s.localWriteMessage ops) ops with
        | none => s.unloaded
        | some c => if landing = .lands then (s.grown c).listed c else (s.grown c).unloaded

/-- `Apply`: a page, without what it says of documents with an undecided write -/
def apply (ops : List CommitOp) (source : H) (complete : Bool) (landing : Landing) : Outbox H :=
  let s := s.load
  if landing = .fails then s
  else match s.append tx s.head (.page source complete) (ops.filter fun op => opDocID op ∉ s.pendingDocs) with
    | none => s
    | some c => s.grown c

/-- `wire.WriteBackCurrent`: a document's state at the source -/
structure Current where
  docID : DocId
  body : Option (Json × AttachmentSet)
  deriving DecidableEq

/-- the operations of a decision: each document is put back to the source's state, or leaves the projection -/
def decisionOps (outcome : Outcome) (current : List Current) : List CommitOp :=
  if outcome = .applied then []
  else current.flatMap fun c =>
    .document (.delete c.docID) ::
      match c.body with
      | some (body, set) =>
        if accepts c.docID body then .document (.write c.docID body false) :: attachmentSetOps c.docID ∅ set else []
      | none => []

def resolveWrite (s : Outbox H) (w : PendingWrite) (tx : TxId) (outcome : Outcome)
    (current : List Current) (landing : Landing) : Outbox H :=
  if landing = .fails then s.unloaded
  else match s.append tx s.head (.resolved w.commit outcome) (decisionOps accepts outcome current) with
    | none => s.unloaded
    | some c =>
      if landing = .lands then { s.grown c with pending := s.pending.eraseP fun x => x.commit = w.commit }
      else (s.grown c).unloaded

end Outbox

inductive Event (H : Type) where
  | commit (tx : TxId) (ops : List CommitOp) (landing : Landing)
  | replay (tx : TxId) (target : ℕ) (ops : List CommitOp) (landing : Landing)
  | page (tx : TxId) (ops : List CommitOp) (source : H) (complete : Bool) (landing : Landing)
  /-- the decision on the first write that `PendingWrites` lists -/
  | resolve (tx : TxId) (outcome : Outcome) (current : List Outbox.Current) (landing : Landing)
  | list
  | restart

def step (s : Outbox H) : Event H → Outbox H
  | .commit tx ops landing => s.clientWrite tx s.head ops landing
  | .replay tx target ops landing => s.clientWrite tx target ops landing
  | .page tx ops source complete landing => s.apply tx ops source complete landing
  | .resolve tx outcome current landing =>
    match s.pendingWrites with
    | [] => s.load
    | w :: _ => s.load.resolveWrite accepts w tx outcome current landing
  | .list => s.load
  | .restart => s.unloaded

/-- the local writes that no decision names, oldest first -/
def undecided (line : List (Committed H)) : List PendingWrite :=
  (line.reverse.filterMap Committed.pendingWrite).filter fun w =>
    line.all fun c => c.message.resolvedCommit ≠ some w.commit

/-- a replay that is recognised finds the list not loaded, any other that lands names the head -/
def Fresh : Event H → Prop
  | .replay tx target _ landing =>
    ((s.findExistingCommit tx target).isSome → landing = .lands → s.loaded = false) ∧
      ((s.findExistingCommit tx target).isNone → landing ≠ .fails → target = s.head)
  | _ => True

instance (s : Outbox H) : ∀ e : Event H, Decidable (Fresh s e)
  | .replay _ _ _ _ => inferInstanceAs (Decidable (_ ∧ _))
  | .commit _ _ _ | .page _ _ _ _ _ | .resolve _ _ _ _ | .list | .restart => isTrue trivial

/-! ## The walk from the head -/

open List

/-- commits in one line: each on the one before it -/
def Linear : List (Committed H) → Prop
  | [] => True
  | c :: rest => c.hash = rest.length + 1 ∧ c.parent = rest.length ∧ Linear rest

variable {c : Committed H} {line : List (Committed H)} {h parent : ℕ} {w : PendingWrite}
  {ws : List PendingWrite} {message : Message H} {ops : List CommitOp} {tx : TxId} {accepts : DocId → Json → Bool}
  {d : DocId} {t t' : AttachmentTable}

theorem Linear.mem (h : Linear line) (hc : c ∈ line) : c.hash ≤ line.length ∧ c.hash = c.parent + 1 := by
  induction line with
  | nil => cases hc
  | cons d rest ih =>
    rcases mem_cons.1 hc with rfl | hc
    · exact ⟨h.1.le, h.2.1 ▸ h.1⟩
    · exact (ih h.2.2 hc).imp_left fun hle => hle.trans (Nat.le_succ _)

theorem Linear.hash_le (h : Linear line) (hc : c ∈ line) : c.hash ≤ line.length := (h.mem hc).1

theorem Linear.pairwise (h : Linear line) : line.Pairwise fun c d => d.hash < c.hash := by
  induction line with
  | nil => exact .nil
  | cons c rest ih =>
    refine pairwise_cons.2 ⟨?_, ih h.2.2⟩
    intro d hd
    have := h.2.2.hash_le hd
    rw [h.1]
    omega

theorem getCommit_append {above below : List (Committed H)} (ha : ∀ c ∈ above, c.hash ≠ h) :
    Outbox.getCommit (above ++ below) h = Outbox.getCommit below h := by
  unfold Outbox.getCommit
  rw [List.find?_append, List.find?_eq_none.2, Option.none_or]
  simpa using ha

theorem lineFrom_append {above : List (Committed H)} (ha : ∀ c ∈ above, line.length < c.hash) (h : Linear line) :
    Outbox.lineFrom (above ++ line) line.length line.length = line := by
  induction line generalizing above with
  | nil => rfl
  | cons c rest ih =>
    have hget : Outbox.getCommit (above ++ c :: rest) (rest.length + 1) = some c := by
      have hne : ∀ d ∈ above, d.hash ≠ rest.length + 1 := fun d hd => (ha d hd).ne'
      rw [getCommit_append hne]
      simp [Outbox.getCommit, h.1]
    have hrest := @ih (above ++ [c])
    rw [append_assoc, singleton_append] at hrest
    simp only [length_cons, Outbox.lineFrom, hget, h.2.1]
    rw [hrest ?_ h.2.2]
    exact forall_mem_append.2
      ⟨fun d hd => (Nat.lt_succ_self _).trans (ha d hd), forall_mem_singleton.2 (h.1 ▸ Nat.lt_succ_self _)⟩

variable {s : Outbox H}

theorem Linear.main_eq (h : Linear s.commits) : s.main = s.commits :=
  @lineFrom_append H s.commits [] (by simp) h

/-! ## Decisions in order -/

/-- the write that the newest decision names -/
def newest (line : List (Committed H)) : Option ℕ := line.findSome? fun c => c.message.resolvedCommit

/-- every decision names an earlier commit -/
abbrev Earlier (line : List (Committed H)) : Prop := ∀ c ∈ line, ∀ h, c.message.resolvedCommit = some h → h < c.hash

/-- every decision names an earlier commit, and the writes that decisions name are those up to the newest -/
structure InOrder (line : List (Committed H)) : Prop where
  earlier : ∀ c ∈ line, ∀ h, c.message.resolvedCommit = some h → h < c.hash
  upTo : ∀ c ∈ line, c.pendingWrite ≠ none →
    ((∃ d ∈ line, d.message.resolvedCommit = some c.hash) ↔ ∃ h, newest line = some h ∧ c.hash ≤ h)

theorem pendingWrite_commit (h : c.pendingWrite = some w) : w.commit = c.hash := by
  unfold Committed.pendingWrite at h
  split at h
  · cases h
    rfl
  · cases h

theorem resolvedCommit_of_pendingWrite (h : c.pendingWrite = some w) : c.message.resolvedCommit = none := by
  unfold Committed.pendingWrite at h
  split at h
  · rename_i hm
    rw [hm]
    rfl
  · cases h

theorem pendingWrite_of_resolvedCommit (hr : c.message.resolvedCommit = some h) : c.pendingWrite = none := by
  cases hw : c.pendingWrite with
  | none => rfl
  | some w => rw [resolvedCommit_of_pendingWrite hw] at hr; cases hr

theorem newest_earlier (hl : Linear line) (he : Earlier line) (hn : newest line = some h) : h < line.length := by
  obtain ⟨c, hc, hr⟩ := exists_of_findSome?_eq_some hn
  exact (he c hc h hr).trans_le (hl.hash_le hc)

def above (h : Option ℕ) (line : List (Committed H)) : List (Committed H) :=
  line.filter fun c => h.all fun h => h < c.hash

theorem above_cons {stop : Option ℕ} (h : ∀ n, stop = some n → n < c.hash) :
    above stop (c :: line) = c :: above stop line :=
  filter_cons_of_pos ((Option.all_eq_true _ _).2 fun n hn => decide_eq_true (h n hn))

/-- with the write to stop at known, the walk collects the local writes above it -/
theorem collect_stop (hl : Linear line) (hh : h ≤ line.length) :
    Outbox.collect (some h) line = (above (some h) line).filterMap Committed.pendingWrite := by
  induction line with
  | nil => rfl
  | cons c rest ih =>
    by_cases hc : h = c.hash
    · have hnone : above (some h) (c :: rest) = [] := by
        refine filter_eq_nil_iff.2 ?_
        intro d hd
        have := hl.hash_le hd
        have := hl.1
        simp only [length_cons] at *
        simp only [Option.all_some, decide_eq_true_eq]
        omega
      rw [hnone]
      simp [Outbox.collect, hc]
    · have hlt : h < c.hash := by
        have := hl.1
        simp only [length_cons] at hh
        omega
      have hrest := ih hl.2.2 (by have := hl.1; omega)
      rw [above_cons fun n hn => Option.some.inj hn ▸ hlt, Outbox.collect, if_neg (by simpa using hc)]
      cases hw : c.pendingWrite with
      | some w => simp [hw, hrest]
      | none => simp [hw, hrest]

/-- **The walk.** Reading the list from the graph collects the local writes above the one the newest decision names. -/
theorem collect_none (hl : Linear line) (he : Earlier line) :
    Outbox.collect none line = (above (newest line) line).filterMap Committed.pendingWrite := by
  induction line with
  | nil => rfl
  | cons c rest ih =>
    have herest : Earlier rest := fun d hd => he d (.tail _ hd)
    rw [Outbox.collect]
    cases hr : c.message.resolvedCommit with
    | some h =>
      have hlt := he c (.head _) h hr
      have hle : h ≤ rest.length := by have := hl.1; omega
      have hnew : newest (c :: rest) = some h := by simp [newest, hr]
      have hw := pendingWrite_of_resolvedCommit hr
      rw [hnew, above_cons fun n hn => Option.some.inj hn ▸ hlt]
      simp [hw, collect_stop hl.2.2 hle]
    | none =>
      have hnew : newest (c :: rest) = newest rest := by simp [newest, hr]
      have hbelow : ∀ n, newest rest = some n → n < c.hash := fun n hn =>
        (newest_earlier hl.2.2 herest hn).trans (hl.1 ▸ Nat.lt_succ_self _)
      rw [hnew, above_cons hbelow]
      cases hw : c.pendingWrite with
      | some w => simp [hw, ih hl.2.2 herest]
      | none => simp [hw, ih hl.2.2 herest]

/-- a local write stands above the newest decision's write exactly when no decision names it -/
theorem InOrder.undecided_iff (h : InOrder line) (hc : c ∈ line) (hw : c.pendingWrite = some w) :
    (line.all fun d => d.message.resolvedCommit ≠ some w.commit) = (newest line).all fun h => h < c.hash := by
  have hup := h.upTo c hc (by simp [hw])
  rw [pendingWrite_commit hw, Bool.eq_iff_iff]
  constructor
  · intro hall
    rw [Option.all_eq_true]
    intro n hn
    by_contra hle
    obtain ⟨d, hd, hr⟩ := hup.2 ⟨n, hn, by simpa using hle⟩
    simpa [hr] using all_eq_true.1 hall d hd
  · intro hall
    rw [all_eq_true]
    intro d hd
    by_contra hr
    obtain ⟨n, hn, hle⟩ := hup.1 ⟨d, hd, by simpa using hr⟩
    have := (Option.all_eq_true _ _).1 hall n hn
    simp only [decide_eq_true_eq] at this
    omega

theorem filter_filterMap_of_iff {α β : Type*} {f : α → Option β} {p : β → Bool} {q : α → Bool} {l : List α}
    (h : ∀ a ∈ l, ∀ b, f a = some b → p b = q a) : (l.filterMap f).filter p = (l.filter q).filterMap f := by
  induction l with
  | nil => rfl
  | cons a l ih =>
    have ih := ih fun b hb => h b (.tail _ hb)
    have ha := h a (.head _)
    cases hf : f a with
    | none => cases hq : q a <;> simp [hf, hq, ih]
    | some b => cases hq : q a <;> simp [hf, hq, ih, ha b hf]

/-- **The list from the graph.** What the walk finds, read oldest first, is what no decision names. -/
theorem Outbox.collect_eq (hl : Linear line) (ho : InOrder line) :
    (Outbox.collect none line).reverse = undecided line := by
  have hfilter := @filter_filterMap_of_iff _ _ Committed.pendingWrite
    (fun w => line.all fun c => c.message.resolvedCommit ≠ some w.commit) (fun c => (newest line).all fun h => h < c.hash)
    line.reverse fun c hc w hw => ho.undecided_iff (mem_reverse.1 hc) hw
  rw [collect_none hl ho.earlier, undecided, hfilter, above, filter_reverse, filterMap_reverse]

/-! ## What a commit does to the undecided writes -/

theorem mem_undecided : w ∈ undecided line ↔
      (∃ c ∈ line, c.pendingWrite = some w) ∧ ∀ d ∈ line, d.message.resolvedCommit ≠ some w.commit := by
  simp [undecided]

theorem undecided_pairwise (hl : Linear line) : (undecided line).Pairwise fun w x => w.commit < x.commit := by
  refine Pairwise.filter _ (pairwise_filterMap.2 ?_)
  refine (pairwise_reverse.2 hl.pairwise).imp ?_
  intro c d hlt w hw x hx
  rw [pendingWrite_commit hw, pendingWrite_commit hx]
  exact hlt

/-- no decision names a commit that was not there -/
theorem InOrder.not_named (hl : Linear line) (ho : InOrder line) (hh : line.length < h) :
    ∀ d ∈ line, d.message.resolvedCommit ≠ some h := by
  intro d hd hr
  have := ho.earlier d hd h hr
  have := hl.hash_le hd
  omega

theorem undecided_cons (hl : Linear line) (ho : InOrder line) (hc : c.hash = line.length + 1)
    (hr : c.message.resolvedCommit = none) : undecided (c :: line) = undecided line ++ c.pendingWrite.toList := by
  have hnamed := ho.not_named hl (show line.length < c.hash by omega)
  have hsame : ∀ w : PendingWrite, ((c :: line).all fun d => d.message.resolvedCommit ≠ some w.commit) =
      line.all fun d => d.message.resolvedCommit ≠ some w.commit := by
    simp [hr]
  unfold undecided
  simp only [hsame, reverse_cons, filterMap_append, filter_append]
  cases hw : c.pendingWrite with
  | none => simp [hw]
  | some w =>
    have hall : (line.all fun d => d.message.resolvedCommit ≠ some w.commit) = true := by
      rw [all_eq_true]
      intro d hd
      rw [pendingWrite_commit hw]
      simpa using hnamed d hd
    simp only [filterMap_cons, hw, filter_cons, hall]
    rfl

theorem undecided_cons_decision (hr : c.message.resolvedCommit = some h) :
    undecided (c :: line) = (undecided line).filter fun w => w.commit ≠ h := by
  have hw := pendingWrite_of_resolvedCommit hr
  unfold undecided
  rw [filter_filter, reverse_cons, filterMap_append]
  simp only [filterMap_cons, hw, filterMap_nil, append_nil]
  refine filter_congr ?_
  simp [hr, eq_comm]

theorem InOrder.cons (hl : Linear line) (ho : InOrder line) (hc : c.hash = line.length + 1)
    (hr : c.message.resolvedCommit = none) : InOrder (c :: line) := by
  have hnew : newest (c :: line) = newest line := by simp [newest, hr]
  constructor
  · intro d hd h hdr
    rcases mem_cons.1 hd with rfl | hd
    · rw [hr] at hdr; cases hdr
    · exact ho.earlier d hd h hdr
  · intro d hd hw
    rw [hnew]
    rcases mem_cons.1 hd with rfl | hd
    · -- the new commit is named by no decision and stands above the newest decision's write
      constructor
      · rintro ⟨e, he, her⟩
        rcases mem_cons.1 he with rfl | he
        · rw [hr] at her; cases her
        · exact absurd her (ho.not_named hl (by omega) e he)
      · rintro ⟨h, hn, hle⟩
        have := newest_earlier hl ho.earlier hn
        omega
    · rw [← ho.upTo d hd hw]
      simp [hr]

/-- the oldest undecided write is decided: decisions stay in order -/
theorem InOrder.decide (hl : Linear line) (ho : InOrder line) (hc : c.hash = line.length + 1)
    (hw : undecided line = w :: ws) (hr : c.message.resolvedCommit = some w.commit) : InOrder (c :: line) := by
  have hmem : w ∈ undecided line := by simp [hw]
  obtain ⟨⟨b, hb, hbw⟩, hopen⟩ := mem_undecided.1 hmem
  have hnew : newest (c :: line) = some w.commit := by simp [newest, hr]
  constructor
  · intro d hd h hdr
    rcases mem_cons.1 hd with rfl | hd
    · obtain rfl : w.commit = h := by rw [hr] at hdr; exact Option.some.inj hdr
      rw [pendingWrite_commit hbw, hc]
      exact Nat.lt_succ_of_le (hl.hash_le hb)
    · exact ho.earlier d hd h hdr
  · intro d hd hdw
    have hd : d ∈ line := by
      rcases mem_cons.1 hd with rfl | hd
      · exact absurd (pendingWrite_of_resolvedCommit hr) hdw
      · exact hd
    obtain ⟨x, hx⟩ := Option.ne_none_iff_exists'.1 hdw
    rw [hnew]
    constructor
    · rintro ⟨e, he, her⟩
      refine ⟨w.commit, rfl, ?_⟩
      rcases mem_cons.1 he with rfl | he
      · exact (Option.some.inj (her.symm.trans hr)).le
      · -- decided before, so not above the newest decision's write, as the oldest undecided one is
        obtain ⟨h, hn, hle⟩ := (ho.upTo d hd hdw).1 ⟨e, he, her⟩
        have hall := ho.undecided_iff hb hbw
        rw [all_eq_true.2 fun e he => by simpa using hopen e he, hn] at hall
        have hlt : h < b.hash := by simpa using hall.symm
        rw [pendingWrite_commit hbw]
        omega
    · rintro ⟨h, hn, hle⟩
      cases hn
      by_contra hno
      have hnone : ∀ e ∈ c :: line, e.message.resolvedCommit ≠ some d.hash := fun e he her => hno ⟨e, he, her⟩
      have hxmem : x ∈ undecided line := by
        refine mem_undecided.2 ⟨⟨d, hd, hx⟩, ?_⟩
        intro e he
        rw [pendingWrite_commit hx]
        exact hnone e (.tail _ he)
      have hpair := undecided_pairwise hl
      rw [hw] at hxmem hpair
      rcases mem_cons.1 hxmem with rfl | hxmem
      · exact hnone c (.head _) (by rw [hr, pendingWrite_commit hx])
      · have := (pairwise_cons.1 hpair).1 x hxmem
        rw [pendingWrite_commit hx] at this
        omega

/-! ## Runs -/

/-- a local write lists every document its operations name -/
def Names (c : Committed H) : Prop :=
  ∀ w, c.pendingWrite = some w → ∀ op ∈ c.operations, Outbox.opDocID op ∈ w.docs.map WriteBackDoc.docID

/-- the commits stand in one line, decisions are in order, a loaded list is the undecided writes, and each of them lists every
document it touches -/
structure Inv (s : Outbox H) : Prop where
  linear : Linear s.commits
  order : InOrder s.commits
  cached : s.loaded = true → s.pending = undecided s.commits
  names : ∀ c ∈ s.commits, Names c

theorem load_commits (s : Outbox H) : s.load.commits = s.commits := by
  unfold Outbox.load
  split <;> rfl

theorem load_loaded (s : Outbox H) : s.load.loaded = true := by
  unfold Outbox.load
  split <;> trivial

namespace Inv

theorem load (h : Inv s) : Inv s.load := by
  have hcached : s.load.pending = undecided s.commits := by
    unfold Outbox.load
    split_ifs with hs
    · exact h.cached hs
    · change (Outbox.collect none s.main).reverse = _
      rw [h.linear.main_eq]
      exact Outbox.collect_eq h.linear h.order
  constructor <;> rw [load_commits]
  exacts [h.linear, h.order, fun _ => hcached, h.names]

theorem pendingWrites_eq (h : Inv s) : s.pendingWrites = undecided s.commits := by
  have := h.load.cached (load_loaded s)
  rwa [load_commits] at this

theorem unloaded (h : Inv s) : Inv s.unloaded := ⟨h.linear, h.order, nofun, h.names⟩

end Inv

theorem append_spec (h : s.append tx parent message ops = some c) :
    c.hash = s.commits.length + 1 ∧ c.parent = parent ∧ c.message = message ∧ c.operations = ops ∧
      c.tree = (s.treeAt parent).applyOps (documentOps ops) ∧ (s.tableAt parent).apply ops = .ok c.table := by
  unfold Outbox.append at h
  split at h
  · cases h
  · rename_i table htable
    cases h
    exact ⟨rfl, rfl, rfl, rfl, rfl, htable⟩

theorem localWriteMessage_resolvedCommit (s : Outbox H) (ops : List CommitOp) :
    (s.localWriteMessage ops).resolvedCommit = none := by
  unfold Outbox.localWriteMessage
  split <;> rfl

theorem localWriteMessage_names (hm : c.message = s.localWriteMessage ops) (hops : c.operations = ops) : Names c := by
  intro w hw op hop
  have hid : Outbox.opDocID op ∈ (ops.map Outbox.opDocID).eraseDups :=
    mem_eraseDups.2 (mem_map_of_mem (hops ▸ hop))
  cases hids : (ops.map Outbox.opDocID).eraseDups with
  | nil =>
    rw [hids] at hid
    cases hid
  | cons id ids =>
    simp only [Committed.pendingWrite, hm, Outbox.localWriteMessage, hids, Option.some.injEq] at hw
    rw [hids] at hid
    rw [← hw]
    simpa [Committed.pendingDoc] using hid

/-- a commit on the head that decides nothing -/
theorem Inv.grown (h : Inv s) (hc : s.append tx s.head message ops = some c) (hr : message.resolvedCommit = none)
    (hn : Names c) :
    Inv (s.grown c).unloaded ∧ undecided (s.grown c).commits = undecided s.commits ++ c.pendingWrite.toList := by
  obtain ⟨hhash, hparent, hmessage, -, -, -⟩ := append_spec hc
  have hcr : c.message.resolvedCommit = none := by rw [hmessage]; exact hr
  refine ⟨⟨⟨hhash, hparent, h.linear⟩, h.order.cons h.linear hhash hcr, nofun, forall_mem_cons.2 ⟨hn, h.names⟩⟩,
    undecided_cons h.linear h.order hhash hcr⟩

/-- over the same commits, a list that is loaded has to be the undecided writes -/
theorem Inv.relisted {t : Outbox H} (h : Inv t) (hcommits : s.commits = t.commits)
    (hc : s.loaded = true → s.pending = undecided s.commits) : Inv s :=
  ⟨hcommits ▸ h.linear, hcommits ▸ h.order, hc, hcommits ▸ h.names⟩

theorem findExistingCommit_spec (h : s.findExistingCommit tx parent = some c) : c ∈ s.commits ∧ c.parent = parent := by
  obtain ⟨hfind, hparent⟩ := Option.filter_eq_some_iff.1 h
  exact ⟨mem_reverse.1 (mem_of_find?_eq_some hfind), by simpa using hparent⟩

theorem Linear.findExistingCommit_head (h : Linear s.commits) (tx : TxId) : s.findExistingCommit tx s.head = none := by
  cases hf : s.findExistingCommit tx s.head with
  | none => rfl
  | some c =>
    obtain ⟨hmem, hparent⟩ := findExistingCommit_spec hf
    have := h.mem hmem
    unfold Outbox.head at hparent
    omega

theorem Inv.clientWrite_head (h : Inv s) (tx : TxId) (ops : List CommitOp) (landing : Landing) :
    Inv (s.clientWrite tx s.head ops landing) := by
  unfold Outbox.clientWrite
  split
  · exact h.unloaded
  rw [h.linear.findExistingCommit_head tx]
  rw [if_neg (lt_irrefl _)]
  cases hc : s.append tx s.head (s.localWriteMessage ops) ops with
  | none => exact h.unloaded
  | some c =>
    obtain ⟨-, -, hmessage, hops, -, -⟩ := append_spec hc
    obtain ⟨hi, hu⟩ := h.grown hc (localWriteMessage_resolvedCommit s ops) (localWriteMessage_names hmessage hops)
    dsimp only
    split
    · unfold Outbox.listed
      cases hw : c.pendingWrite with
      | none =>
        refine hi.relisted rfl fun hs => ?_
        rw [hu, hw, Option.toList_none, append_nil]
        exact h.cached hs
      | some w =>
        split_ifs with hs
        · refine hi.relisted rfl fun _ => ?_
          change s.pending ++ [w] = undecided (s.grown c).commits
          rw [hu, hw, h.cached hs]
          rfl
        · exact hi.relisted rfl fun hs' => absurd hs' hs
    · exact hi

theorem Inv.replay (h : Inv s) {target : ℕ} {landing : Landing} (hf : Fresh s (.replay tx target ops landing)) :
    Inv (s.clientWrite tx target ops landing) := by
  cases hfind : s.findExistingCommit tx target with
  | some c =>
    have hf := hf.1 (by simp [hfind])
    unfold Outbox.clientWrite
    split
    · exact h.unloaded
    simp only [hfind]
    split_ifs with hlands
    · have hs := hf hlands
      unfold Outbox.listed
      cases c.pendingWrite with
      | none => exact h
      | some w => simpa [hs] using h
    · exact h.unloaded
  | none =>
    have hf := hf.2 (by simp [hfind])
    by_cases hfails : landing = .fails
    · unfold Outbox.clientWrite
      rw [if_pos (by simp [hfails])]
      exact h.unloaded
    · rw [hf hfails]
      exact h.clientWrite_head tx ops landing

theorem Inv.apply (h : Inv s) (tx : TxId) (ops : List CommitOp) (source : H) (complete : Bool) (landing : Landing) :
    Inv (s.apply tx ops source complete landing) := by
  unfold Outbox.apply
  dsimp only
  split
  · exact h.load
  cases hc : s.load.append tx s.load.head (.page source complete)
      (ops.filter fun op => Outbox.opDocID op ∉ s.load.pendingDocs) with
  | none => exact h.load
  | some c =>
    have hw : c.pendingWrite = none := by
      unfold Committed.pendingWrite
      rw [(append_spec hc).2.2.1]
    obtain ⟨hi, hu⟩ := h.load.grown hc rfl fun w hw' => by rw [hw] at hw'; cases hw'
    refine hi.relisted rfl fun hs => ?_
    rw [hu, hw, Option.toList_none, append_nil]
    exact h.load.cached hs

theorem Inv.resolveWrite (h : Inv s) (hs : s.loaded = true) (hw : s.pending = w :: ws) (tx : TxId) (outcome : Outcome)
    (current : List Outbox.Current) (landing : Landing) : Inv (s.resolveWrite accepts w tx outcome current landing) := by
  unfold Outbox.resolveWrite
  split
  · exact h.unloaded
  cases hc : s.append tx s.head (.resolved w.commit outcome) (Outbox.decisionOps accepts outcome current) with
  | none => exact h.unloaded
  | some c =>
    obtain ⟨hhash, hparent, hmessage, -, -, -⟩ := append_spec hc
    have hr : c.message.resolvedCommit = some w.commit := by rw [hmessage]; rfl
    have hopen : undecided s.commits = w :: ws := by rw [← h.cached hs, hw]
    have hl : Linear (c :: s.commits) := ⟨hhash, hparent, h.linear⟩
    have ho : InOrder (c :: s.commits) := h.order.decide h.linear hhash hopen hr
    have hn : Names c := fun x hx => by simp [pendingWrite_of_resolvedCommit hr] at hx
    have hi : Inv (s.grown c).unloaded := ⟨hl, ho, nofun, forall_mem_cons.2 ⟨hn, h.names⟩⟩
    dsimp only
    split
    · refine hi.relisted rfl fun _ => ?_
      change (s.pending.eraseP fun x => x.commit = w.commit) = undecided (c :: s.commits)
      have hpair := undecided_pairwise h.linear
      rw [hopen] at hpair
      have hne : ∀ x ∈ ws, x.commit ≠ w.commit := fun x hx => ((pairwise_cons.1 hpair).1 x hx).ne'
      rw [undecided_cons_decision hr, hopen, hw, eraseP_cons_of_pos (by simp), filter_cons_of_neg (by simp)]
      exact (filter_eq_self.2 fun x hx => by simpa using hne x hx).symm
    · exact hi

theorem step_inv (s : Outbox H) (e : Event H) (hf : Fresh s e) (h : Inv s) : Inv (step accepts s e) := by
  cases e with
  | commit tx ops landing => exact h.clientWrite_head tx ops landing
  | replay tx target ops landing => exact h.replay hf
  | page tx ops source complete landing => exact h.apply tx ops source complete landing
  | resolve tx outcome current landing =>
    unfold step
    cases hw : s.pendingWrites with
    | nil => exact h.load
    | cons w ws => exact h.load.resolveWrite (load_loaded s) hw tx outcome current landing
  | list => exact h.load
  | restart => exact h.unloaded

/-! ## Pages -/

def Outbox.document (s : Outbox H) (id : DocId) : Option Fields × AttachmentSet :=
  ((s.treeAt s.head)[id]?, (s.tableAt s.head).list id)

theorem documentOps_after_eq_none (h : ∀ op ∈ ops, op.docId? ≠ some d) : Ops.after d (documentOps ops) = none := by
  by_contra hne
  obtain ⟨op, hop, hd⟩ := Ops.mem_of_after hne
  obtain ⟨x, hx, hxop⟩ := mem_filterMap.1 hop
  cases x with
  | document y =>
    cases hxop
    exact h _ hx hd
  | attachmentPut _ _ _ => cases hxop
  | attachmentDelete _ _ => cases hxop

theorem applyOp_list {op : CommitOp} (h : t.applyOp op = .ok t') (hd : op.docId? ≠ some d) : t'.list d = t.list d := by
  cases op with
  | document op =>
    cases op with
    | write _ _ _ => cases h; rfl
    | delete e =>
      cases h
      rw [AttachmentTable.list_deleteAll, if_neg fun he => hd (congrArg some he)]
    | schemaMigration _ _ => cases h; rfl
  | attachmentPut e id a => rw [AttachmentTable.list_put h, if_neg fun he => hd (congrArg some he)]
  | attachmentDelete e id =>
    cases h
    rw [AttachmentTable.list_delete, if_neg fun he => hd (congrArg some he)]

theorem apply_list (h : t.apply ops = .ok t') (hd : ∀ op ∈ ops, op.docId? ≠ some d) : t'.list d = t.list d := by
  induction ops generalizing t with
  | nil => cases h; rfl
  | cons op ops ih =>
    unfold AttachmentTable.apply at h
    split at h
    · cases h
    · rename_i t₁ h₁
      rw [ih h fun x hx => hd x (mem_cons_of_mem _ hx), applyOp_list h₁ (hd op mem_cons_self)]

theorem document_grown (hc : s.append tx s.head message ops = some c) (hd : ∀ op ∈ ops, op.docId? ≠ some d) :
    (s.grown c).document d = s.document d := by
  obtain ⟨hhash, -, -, -, htree, htable⟩ := append_spec hc
  have hget : Outbox.getCommit (s.grown c).commits (s.grown c).head = some c := by
    simp [Outbox.getCommit, Outbox.grown, Outbox.head, hhash]
  have hbody : c.tree[d]? = (s.treeAt s.head)[d]? := by
    rw [htree, Tree.applyOps_get, documentOps_after_eq_none hd]
    rfl
  have hset : c.table.list d = (s.tableAt s.head).list d := apply_list htable hd
  unfold Outbox.document
  rw [← hbody, ← hset, Outbox.treeAt, Outbox.tableAt, hget]
  rfl

theorem apply_document (hd : d ∈ s.pendingDocs) (tx : TxId) (ops : List CommitOp) (source : H) (complete : Bool)
    (landing : Landing) : (s.apply tx ops source complete landing).document d = s.document d := by
  have hload : s.load.document d = s.document d := by
    unfold Outbox.document Outbox.treeAt Outbox.tableAt Outbox.head
    rw [load_commits]
  have hpending : s.load.pendingDocs = s.pendingDocs := by
    unfold Outbox.pendingDocs Outbox.pendingWrites
    rw [Outbox.load, if_pos (load_loaded s)]
  unfold Outbox.apply
  dsimp only
  split
  · exact hload
  split
  · exact hload
  · rename_i c hc
    rw [document_grown hc, hload]
    intro op hop hid
    have hkept := (mem_filter.1 hop).2
    simp only [Outbox.opDocID, hid, decide_eq_true_eq, hpending] at hkept
    exact hkept hd

/-! ## The outbox -/

/-- **The outbox.** Whatever client writes, replays, pages, decisions and reloads came before: the list is the local writes on
main that no decision names, oldest first and each once, and a page leaves every document that one of them touches as it is. -/
theorem outbox_is_undecided (accepts : DocId → Json → Bool) (events : List (Event H))
    (h : Along (step accepts) Fresh {} events) :
    let s := run (step accepts) {} events
    s.pendingWrites = undecided s.main ∧ s.pendingWrites.Pairwise (fun w x => w.commit < x.commit) ∧
      ∀ c ∈ s.main, ∀ w ∈ s.pendingWrites, c.pendingWrite = some w → ∀ op ∈ c.operations,
        ∀ tx ops source complete landing,
          (step accepts s (.page tx ops source complete landing)).document (Outbox.opDocID op) =
            s.document (Outbox.opDocID op) := by
  intro s
  have hi : Inv s := run_of_step step_inv h ⟨trivial, ⟨nofun, nofun⟩, nofun, nofun⟩
  refine ⟨?_, ?_, ?_⟩
  · rw [hi.pendingWrites_eq, hi.linear.main_eq]
  · rw [hi.pendingWrites_eq]
    exact undecided_pairwise hi.linear
  · intro c hc w hw hcw op hop tx ops source complete landing
    rw [hi.linear.main_eq] at hc
    have hid := hi.names c hc w hcw op hop
    exact apply_document (mem_flatMap.2 ⟨w, hw, hid⟩) tx ops source complete landing

def writeFive : List CommitOp := [.document (.write 5 (.obj []) false)]

def writeSix : List CommitOp := [.document (.write 6 (.obj []) false)]

/-- two writes, a page that would overwrite the first, its decision, a write that fails once made, and a restart -/
def decidedOne : List (Event ℕ) :=
  [.list, .commit 1 writeFive .lands, .replay 2 1 writeSix .lands, .page 3 writeFive 40 true .lands,
    .resolve 4 .conflict [⟨5, none⟩] .lands, .commit 5 writeFive .failsLanded, .restart, .list]

theorem outbox_is_undecided_decidedOne :
    Along (step fun _ _ => true) Fresh {} decidedOne ∧
      (run (step fun _ _ => true) {} decidedOne).pendingWrites =
        undecided (run (step fun _ _ => true) {} decidedOne).main ∧
      (run (step fun _ _ => true) {} decidedOne).pendingWrites.map PendingWrite.commit = [2, 5] := by
  have h : Along (step fun _ _ => true) Fresh {} decidedOne := by decide +kernel
  exact ⟨h, (outbox_is_undecided (fun _ _ => true) decidedOne h).1, by decide +kernel⟩

/-- a replay on the head of the moment, and the same again -/
def retried : List (Event ℕ) := [.list, .replay 1 0 writeFive .lands, .replay 1 0 writeFive .lands]

/-- the same with the decision between the two -/
def retriedLate : List (Event ℕ) :=
  [.list, .replay 1 0 writeFive .lands, .resolve 2 .applied [] .lands, .replay 1 0 writeFive .lands]

/-- a replay whose target was the head before another write -/
def overtaken : List (Event ℕ) := [.list, .commit 1 writeFive .lands, .replay 2 0 writeSix .lands]

/-- **The list is not the undecided writes.** A recognised retry lists its write twice, or again after its decision; a replay on
a head that has moved takes a listed write off main. -/
theorem list_differs_from_graph :
    ((run (step fun _ _ => true) {} retried).pendingWrites.map PendingWrite.commit = [1, 1] ∧
        (undecided (run (step fun _ _ => true) {} retried).main).map PendingWrite.commit = [1]) ∧
      ((run (step fun _ _ => true) {} retriedLate).pendingWrites.map PendingWrite.commit = [1] ∧
        undecided (run (step fun _ _ => true) {} retriedLate).main = []) ∧
      ((run (step fun _ _ => true) {} overtaken).pendingWrites.map PendingWrite.commit = [1, 2] ∧
        (undecided (run (step fun _ _ => true) {} overtaken).main).map PendingWrite.commit = [2]) := by
  decide +kernel

end WriteBack

end Kdb
