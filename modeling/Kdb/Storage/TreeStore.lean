/-
Staged writes and the building of document trees: the in-memory adapter (`storage/mem/in_memory.go`) and the
`ServerEngine` (`storage/engine/server_engine.go`, `pending_shard.go`).

Both stage puts and deletes, at most one of the two per document, and turn them into a tree at `CommitTree`. They
differ in what the tree is built on: the in-memory adapter builds on the tree the caller names, the `ServerEngine`
ignores that argument, builds on its running live tree and serves the result as the live tree from then on. Trees are
named by their contents, so a lookup by tree hash is the tree itself; blobs, caches, pins and memtables are left out.
- `overlay_put`, `overlay_delete`: staging one more operation is applying it behind the staged ones.
- `commitTree_mem`, `commitTree_server`: what `CommitTree` builds and what storage serves afterwards.
-/
import Kdb.Document.Commit

namespace Kdb

/-- the two storage adapters -/
inductive Backend where
  | mem
  | server
  deriving DecidableEq

/-- one namespace's storage: the `ServerEngine`'s running tree and the writes staged since the last `CommitTree` -/
structure Store where
  backend : Backend
  live : Tree
  puts : Tree
  deletes : List DocId

namespace Store

variable (s : Store) (d : DocId)

/-- `PutDocument`: stages a put and clears a staged delete of the document -/
def putDocument (body : Fields) : Store :=
  { s with puts := s.puts.insert d body, deletes := s.deletes.filter (· ≠ d) }

/-- `DeleteDocument`: stages a delete and clears a staged put of the document -/
def deleteDocument : Store :=
  { s with puts := s.puts.erase d, deletes := d :: s.deletes.filter (· ≠ d) }

def discardPending : Store := { s with puts := ∅, deletes := [] }

variable (base : Tree)

/-- the staged deletes, then the staged puts, applied to a tree -/
def overlay : Tree := (s.deletes.foldl (fun t d => t.erase d) base) ∪ s.puts

variable (parentTree : Tree)

/-- `CommitTree`: the staged writes over the named parent tree (in-memory adapter) or over the live tree
(`ServerEngine`, which publishes the result) -/
def commitTree : Store × Tree :=
  match s.backend with
  | .mem => (s.discardPending, s.overlay parentTree)
  | .server =>
    let built := s.overlay s.live
    ({ s.discardPending with live := built }, built)

/-- nothing is staged -/
def Clean : Prop := s.puts = ∅ ∧ s.deletes = []

/-! ## Staging is applying -/

theorem overlay_get : (s.overlay base)[d]? = s.puts[d]?.or (if d ∈ s.deletes then none else base[d]?) := by
  rw [overlay, Std.ExtTreeMap.getElem?_union, Tree.foldl_erase_get]

theorem overlay_put (body : Fields) : (s.putDocument d body).overlay base = (s.overlay base).insert d body := by
  apply Tree.ext_get
  intro e
  rw [overlay_get, Tree.get_insert, overlay_get]
  by_cases h : d = e
  · simp [putDocument, h]
  · simp [putDocument, h, Ne.symm h, Tree.get_insert]

theorem overlay_delete : (s.deleteDocument d).overlay base = (s.overlay base).erase d := by
  apply Tree.ext_get
  intro e
  rw [overlay_get, Tree.get_erase, overlay_get]
  by_cases h : d = e
  · simp [deleteDocument, h]
  · simp [deleteDocument, h, Ne.symm h, Tree.get_erase]

theorem overlay_clean {s : Store} (h : s.Clean) (base : Tree) : s.overlay base = base := by
  apply Tree.ext_get
  intro d
  rw [overlay_get, h.1, h.2]
  simp

theorem commitTree_mem {s : Store} (h : s.backend = .mem) (parentTree : Tree) :
    s.commitTree parentTree = (s.discardPending, s.overlay parentTree) := by
  simp [commitTree, h]

theorem commitTree_server {s : Store} (h : s.backend = .server) (parentTree : Tree) :
    s.commitTree parentTree = ({ s.discardPending with live := s.overlay s.live }, s.overlay s.live) := by
  simp [commitTree, h]

theorem commitTree_clean : (s.commitTree parentTree).1.Clean := by
  unfold commitTree
  cases s.backend <;> exact ⟨rfl, rfl⟩

theorem commitTree_backend : (s.commitTree parentTree).1.backend = s.backend := by
  unfold commitTree
  cases h : s.backend <;> exact h

end Store

end Kdb
