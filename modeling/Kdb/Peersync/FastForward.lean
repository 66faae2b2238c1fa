/-
Fast-forwards (`peersync/ingest.go`): main moves to a descendant, and storage is brought from the old head's tree to the new
one's by the net effect of the commits between them.

- `fast_forward_rebuilds`: the net effect of the commits between a head and a descendant takes the head's tree to the
  descendant's, over a history whose merges write the documents their parents differ on.
- `foreign_root_mismatch`: a new commit without parents whose tree is not what its operations make can break it.

The commit graph is `Ancestry.Graph`; a commit's operations and tree hash are given by its hash. Trees are those of
`document/document_tree.go`, compared by their hashes. Storage is either the in-memory adapter, which builds on the tree it is
asked to, or the server engine, which builds on its live tree. Loading evicted operations, bodies, and putting the old
documents back after a mismatch are left out.
-/
import Kdb.Lib.Kahn
import Kdb.Dag.Generations
import Kdb.Document.DocumentTree

namespace Kdb.FastForward

open Ancestry RankedGraph DocTree List Option

variable {H : Type} [LinearOrder H]

local instance lawfulBEq : LawfulBEq H := inferInstance

/-! ## Operations -/

/-- `document.Op`: a recorded write carries the whole document's text -/
inductive Op where
  | write (docId : Key) (patch : String)
  | delete (docId : Key)
  | other
  deriving DecidableEq

/-- the document a write or delete names -/
def Op.docId? : Op → Option Key
  | .write d _ => some d
  | .delete d => some d
  | .other => none

variable (contentHash : Key → String → DocTree.Hash) (m : EntryMap)

/-- one operation applied to a tree's entries -/
def applyOp : Op → EntryMap
  | .write d patch => m.insert d (contentHash d patch)
  | .delete d => m.erase d
  | .other => m

def applyOps (ops : List Op) : EntryMap := ops.foldl (applyOp contentHash) m

/-! ## The commits between two heads -/

/-- what a fast-forward reads of the commits besides their parents -/
structure Commits (H : Type) where
  operations : H → List Op
  documentTreeHash : H → DocTree.Hash

variable (L : RankedGraph H) (g : Graph H) (pruning : Bool)

/-- `AncestorTest`: by a walk for each commit with pruning on, by the closure of the base otherwise -/
def ancestorTest (base h : H) : Bool := if pruning then g.isAncestor L h base else h ∈ g.ancestorClosure L base

/-- where the collecting walk turns back -/
def turnsBack (base h : H) : Bool := h = base || ancestorTest L g pruning base h || h ∈ g.stubs || h ∉ g.nodes

/-- `commitsBetween`: what the walk collects, parents first. Turning back at a commit leaves it out of the range. -/
def commitsBetween (head base : H) : List H :=
  if head = base then []
  else L.kahn (((L.cut (turnsBack L g pruning base)).explore fifo [head]).filter fun h => !turnsBack L g pruning base h)

/-- `adoptable`: shallow roots are not newly reachable history -/
def adoptable (commits : List H) : List H := commits.filter fun h => h ∉ g.shallow

/-- the final operation on each document so far -/
def record (final : AList fun _ : Key => Op) (op : Op) : AList fun _ : Key => Op :=
  match op.docId? with
  | some d => final.insert d op
  | none => final

/-- `netEffect`, given the operations of the commits in order: one final operation per document, in id order -/
def netEffect (ops : List Op) : List Op :=
  let final := ops.foldl record ∅
  (final.keys.insertionSort (· ≤ ·)).filterMap final.lookup

/-! ## Storage -/

/-- which tree `CommitTree` builds on -/
inductive Adapter where
  /-- the tree of the hash it is given -/
  | memory
  /-- its live tree -/
  | engine
  deriving DecidableEq

/-- the trees by hash, the live tree, and what is staged -/
structure Storage where
  trees : AList fun _ : DocTree.Hash => DocumentTree
  live : DocumentTree
  puts : AList fun _ : Key => String
  deletes : AList fun _ : Key => Unit

variable (sha256 : Bytes → DocTree.Hash) (adapter : Adapter)

namespace Storage

def putDocument (s : Storage) (d : Key) (json : String) : Storage :=
  { s with deletes := s.deletes.erase d, puts := s.puts.insert d json }

def deleteDocument (s : Storage) (d : Key) : Storage :=
  { s with puts := s.puts.erase d, deletes := s.deletes.insert d () }

/-- the tree a commit on `parentTreeHash` starts from -/
def base (s : Storage) (parentTreeHash : DocTree.Hash) : Option DocumentTree :=
  match adapter with
  | .memory => s.trees.lookup parentTreeHash
  | .engine => some s.live

/-- `CommitTree`: the staged deletes, then the staged puts -/
def commitTree (s : Storage) (parentTreeHash : DocTree.Hash) : Option (DocumentTree × Storage) :=
  match s.base adapter parentTreeHash with
  | none => none
  | some base =>
    let kept := s.deletes.entries.foldl (fun t e => t.without sha256 e.1) base
    let built := s.puts.entries.foldl (fun t e => t.withDoc sha256 e.1 (contentHash e.1 e.2)) kept
    some (built, ⟨s.trees.insert built.treeHash built, built, ∅, ∅⟩)

/-- one operation staged -/
def stage (s : Storage) : Op → Storage
  | .write d patch => s.putDocument d patch
  | .delete d => s.deleteDocument d
  | .other => s

end Storage

inductive Error (H : Type) where
  | commitNotFound (h : H)
  | missingParentTree (treeHash : DocTree.Hash)
  /-- `TreeMismatchError` -/
  | treeMismatch (commitHash : H) (declared built : DocTree.Hash)
  deriving DecidableEq

variable (C : Commits H)

def applyAndVerify (s : Storage) (fromHead toHead : H) (ops : List Op) : Except (Error H) Storage :=
  if fromHead ∉ g.nodes then .error (.commitNotFound fromHead)
  else if toHead ∉ g.nodes then .error (.commitNotFound toHead)
  else
    match (ops.foldl Storage.stage s).commitTree contentHash sha256 adapter (C.documentTreeHash fromHead) with
    | none => .error (.missingParentTree (C.documentTreeHash fromHead))
    | some (built, s') =>
      if built.treeHash ≠ C.documentTreeHash toHead then
        .error (.treeMismatch toHead (C.documentTreeHash toHead) built.treeHash)
      else .ok s'

structure AdvanceStep (H : Type) where
  commits : List H
  applied : List Op

/-- `fastForward`: main's new graph, storage, and the step -/
def fastForward (applyToStorage : Bool) (s : Storage) (localHead incomingHead : H) :
    Except (Error H) (Graph H × Storage × AdvanceStep H) := do
  let commits := adoptable g (commitsBetween L g pruning incomingHead localHead)
  let applied := netEffect (commits.flatMap C.operations)
  let s' ← if applyToStorage then applyAndVerify contentHash g sha256 adapter C s localHead incomingHead applied else pure s
  if g.present incomingHead then pure ({ g with main := incomingHead }, s', ⟨commits, applied⟩)
  else .error (.commitNotFound incomingHead)

/-! ## What operations say about a document -/

/-- some operation is on the document -/
def Names (ops : List Op) (k : Key) : Prop := ∃ op ∈ ops, op.docId? = some k

/-- what one operation makes of a document, `none` when it is not on it -/
def Op.after (k : Key) : Op → Option (Option DocTree.Hash)
  | .write d patch => if d = k then some (some (contentHash d patch)) else none
  | .delete d => if d = k then some none else none
  | .other => none

/-- what operations make of a document: the last one on it decides -/
def after (k : Key) : List Op → Option (Option DocTree.Hash)
  | [] => none
  | op :: ops => (after k ops).or (op.after contentHash k)

variable {contentHash} {k : Key} {ops : List Op}

theorem Op.after_eq_none {op : Op} : op.after contentHash k = none ↔ op.docId? ≠ some k := by
  cases op with
  | write d patch => by_cases h : d = k <;> simp [Op.after, Op.docId?]
  | delete d => by_cases h : d = k <;> simp [Op.after, Op.docId?]
  | other => simp [Op.after, Op.docId?]

theorem after_eq_none : after contentHash k ops = none ↔ ¬Names ops k := by
  induction ops with
  | nil => simp [after, Names]
  | cons op ops ih =>
    rw [after, or_eq_none_iff, ih, Op.after_eq_none]
    simp only [Names, mem_cons, exists_eq_or_imp, not_or]
    exact and_comm

theorem after_append (a b : List Op) :
    after contentHash k (a ++ b) = (after contentHash k b).or (after contentHash k a) := by
  induction a with
  | nil => simp [after]
  | cons op a ih => rw [cons_append, after, ih, after, Option.or_assoc]

theorem lookup_applyOp (op : Op) : (applyOp contentHash m op).lookup k = (op.after contentHash k).getD (m.lookup k) := by
  cases op with
  | write d patch =>
    by_cases h : d = k
    · subst h
      simp [applyOp, Op.after]
    · rw [applyOp, AList.lookup_insert_ne (Ne.symm h), Op.after, if_neg h, getD_none]
  | delete d =>
    by_cases h : d = k
    · subst h
      simp [applyOp, Op.after]
    · rw [applyOp, AList.lookup_erase_ne (Ne.symm h), Op.after, if_neg h, getD_none]
  | other => rfl

theorem lookup_applyOps (ops : List Op) :
    (applyOps contentHash m ops).lookup k = (after contentHash k ops).getD (m.lookup k) := by
  induction ops generalizing m with
  | nil => rfl
  | cons op ops ih =>
    rw [applyOps, foldl_cons, ← applyOps, ih, lookup_applyOp, after]
    cases after contentHash k ops <;> simp

/-! ## The net effect -/

theorem docId_of_record {final : AList fun _ : Key => Op} (hfinal : ∀ d op, final.lookup d = some op → op.docId? = some d)
    (op : Op) : ∀ d op', (record final op).lookup d = some op' → op'.docId? = some d := by
  intro d op' hl
  unfold record at hl
  cases hd : op.docId? with
  | none =>
    rw [hd] at hl
    exact hfinal d op' hl
  | some e =>
    rw [hd] at hl
    by_cases hde : d = e
    · subst hde
      rw [AList.lookup_insert] at hl
      cases hl
      exact hd
    · rw [AList.lookup_insert_ne hde] at hl
      exact hfinal d op' hl

theorem after_record (final : AList fun _ : Key => Op) (op : Op) :
    ((record final op).lookup k).bind (Op.after contentHash k) =
      (op.after contentHash k).or ((final.lookup k).bind (Op.after contentHash k)) := by
  unfold record
  cases hd : op.docId? with
  | none =>
    have hnone : op.after contentHash k = none := Op.after_eq_none.2 (by rw [hd]; simp)
    rw [hnone, none_or]
  | some e =>
    by_cases hk : k = e
    · subst hk
      obtain ⟨v, hv⟩ := ne_none_iff_exists'.1 (mt (@Op.after_eq_none contentHash _ _).1 (not_not.2 hd))
      rw [AList.lookup_insert, bind_some, hv, some_or]
    · have hnone : op.after contentHash k = none := Op.after_eq_none.2 (by rw [hd]; simpa using Ne.symm hk)
      rw [AList.lookup_insert_ne hk, hnone, none_or]

theorem after_recordAll (final : AList fun _ : Key => Op) (ops : List Op) :
    ((ops.foldl record final).lookup k).bind (Op.after contentHash k) =
      (after contentHash k ops).or ((final.lookup k).bind (Op.after contentHash k)) := by
  induction ops generalizing final with
  | nil => simp [after]
  | cons op ops ih => rw [foldl_cons, ih, after_record, after, Option.or_assoc]

/-- of one operation for each key, the one under the document's decides -/
theorem after_filterMap {f : Key → Option Op} (hf : ∀ d op, f d = some op → op.docId? = some d) {keys : List Key}
    (hnodup : keys.Nodup) :
    after contentHash k (keys.filterMap f) = if k ∈ keys then (f k).bind (Op.after contentHash k) else none := by
  induction keys with
  | nil => rfl
  | cons d keys ih =>
    obtain ⟨hd, hnodup⟩ := nodup_cons.1 hnodup
    have hcons : after contentHash k ((d :: keys).filterMap f) =
        (after contentHash k (keys.filterMap f)).or ((f d).bind (Op.after contentHash k)) := by
      rw [filterMap_cons]
      cases f d with
      | none => simp
      | some op => rfl
    rw [hcons, ih hnodup]
    by_cases hk : k = d
    · subst hk
      rw [if_neg hd, if_pos mem_cons_self, none_or]
    · have hother : (f d).bind (Op.after contentHash k) = none := by
        cases hfd : f d with
        | none => rfl
        | some op =>
          refine Op.after_eq_none.2 ?_
          rw [hf d op hfd]
          simpa using Ne.symm hk
      rw [hother, or_none]
      exact if_congr (by simp [hk]) rfl rfl

/-- **The net effect** says of every document what the whole list does. -/
theorem after_netEffect (ops : List Op) : after contentHash k (netEffect ops) = after contentHash k ops := by
  have hdoc : ∀ (ops : List Op) (final : AList fun _ : Key => Op),
      (∀ d op, final.lookup d = some op → op.docId? = some d) →
      ∀ d op, (ops.foldl record final).lookup d = some op → op.docId? = some d := by
    intro ops
    induction ops with
    | nil => exact fun final h => h
    | cons op ops ih => exact fun final h => ih _ (docId_of_record h op)
  unfold netEffect
  have hnodup : ((ops.foldl record ∅).keys.insertionSort (· ≤ ·)).Nodup :=
    (perm_insertionSort _ _).nodup_iff.2 (AList.nodupKeys _)
  rw [after_filterMap (hdoc ops ∅ (by simp)) hnodup]
  have hall := @after_recordAll contentHash k ∅ ops
  rw [AList.lookup_empty, bind_none, or_none] at hall
  rw [← hall]
  split_ifs with hk
  · rfl
  · rw [mem_insertionSort] at hk
    rw [AList.lookup_eq_none.2 hk, bind_none]

/-! ## Storage -/

namespace Storage

variable {sha256 : Bytes → DocTree.Hash} {adapter : Adapter} {s : Storage} {m : EntryMap}

variable (contentHash) in
/-- a document as `CommitTree` would leave it, over the entries `m` -/
def staged (s : Storage) (m : EntryMap) (k : Key) : Option DocTree.Hash :=
  match s.puts.lookup k with
  | some json => some (contentHash k json)
  | none => if k ∈ s.deletes then none else m.lookup k

theorem staged_stage (op : Op) : (s.stage op).staged contentHash m k = (op.after contentHash k).getD (s.staged contentHash m k) := by
  cases op with
  | write d patch =>
    by_cases h : d = k
    · subst h
      simp [stage, putDocument, staged, Op.after]
    · simp only [stage, putDocument, staged, AList.lookup_insert_ne (Ne.symm h), Op.after, if_neg h, getD_none,
        AList.mem_erase, Ne.symm h, ne_eq, not_false_eq_true, true_and]
  | delete d =>
    by_cases h : d = k
    · subst h
      simp [stage, deleteDocument, staged, Op.after]
    · simp only [stage, deleteDocument, staged, AList.lookup_erase_ne (Ne.symm h), Op.after, if_neg h, getD_none,
        AList.mem_insert, Ne.symm h, false_or]
  | other => rfl

theorem staged_stageAll (ops : List Op) :
    (ops.foldl stage s).staged contentHash m k = (after contentHash k ops).getD (s.staged contentHash m k) := by
  induction ops generalizing s with
  | nil => rfl
  | cons op ops ih =>
    rw [foldl_cons, ih, staged_stage, after]
    cases after contentHash k ops <;> simp

theorem base_stageAll (ops : List Op) (h : DocTree.Hash) : (ops.foldl stage s).base adapter h = s.base adapter h := by
  induction ops generalizing s with
  | nil => rfl
  | cons op ops ih =>
    rw [foldl_cons, ih]
    cases op <;> rfl

variable {t : DocumentTree}

theorem holds_deletes (h : Holds sha256 t m) (es : List (Sigma fun _ : Key => Unit)) :
    ∃ m', Holds sha256 (es.foldl (fun t e => t.without sha256 e.1) t) m' ∧
      ∀ k, m'.lookup k = if k ∈ es.map Sigma.fst then none else m.lookup k := by
  induction es generalizing t m with
  | nil => exact ⟨m, h, fun k => by simp⟩
  | cons e es ih =>
    obtain ⟨m', hm', hl⟩ := ih (h.without e.1)
    refine ⟨m', hm', fun k => ?_⟩
    rw [hl]
    by_cases hk : k = e.1
    · subst hk
      simp
    · rw [AList.lookup_erase_ne hk]
      exact if_congr (by simp [hk]) rfl rfl

theorem holds_puts (h : Holds sha256 t m) (puts : AList fun _ : Key => String) :
    ∃ m', Holds sha256 (puts.entries.foldl (fun t e => t.withDoc sha256 e.1 (contentHash e.1 e.2)) t) m' ∧
      ∀ k, m'.lookup k = match puts.lookup k with
        | some json => some (contentHash k json)
        | none => m.lookup k := by
  obtain ⟨es, hnodup⟩ := puts
  change ∃ m', Holds sha256 (es.foldl _ t) m' ∧ ∀ k, m'.lookup k = match es.dlookup k with
    | some json => some (contentHash k json)
    | none => m.lookup k
  induction es generalizing t m with
  | nil => exact ⟨m, h, fun k => rfl⟩
  | cons e es ih =>
    obtain ⟨hfresh, hnodup⟩ := nodupKeys_cons.1 hnodup
    obtain ⟨m', hm', hl⟩ := ih (h.withDoc e.1 (contentHash e.1 e.2)) hnodup
    refine ⟨m', hm', fun k => ?_⟩
    rw [hl]
    by_cases hk : k = e.1
    · subst hk
      rw [dlookup_eq_none.2 hfresh, dlookup_cons_eq]
      exact AList.lookup_insert _
    · rw [dlookup_cons_ne _ _ hk, AList.lookup_insert_ne hk]

/-- **`CommitTree`.** The tree it builds holds what was staged over the tree it builds on. -/
theorem commitTree_holds {h : DocTree.Hash} (hbase : s.base adapter h = some t) (ht : Holds sha256 t m) :
    ∃ built m', s.commitTree contentHash sha256 adapter h =
        some (built, ⟨s.trees.insert built.treeHash built, built, ∅, ∅⟩) ∧
      Holds sha256 built m' ∧ ∀ k, m'.lookup k = s.staged contentHash m k := by
  obtain ⟨m₁, h₁, hl₁⟩ := holds_deletes ht s.deletes.entries
  obtain ⟨m₂, h₂, hl₂⟩ := @holds_puts contentHash _ _ _ h₁ s.puts
  refine ⟨_, m₂, ?_, h₂, fun k => ?_⟩
  · rw [commitTree, hbase]
  · rw [hl₂, staged, hl₁]
    cases s.puts.lookup k with
    | some json => rfl
    | none => exact if_congr Iff.rfl rfl rfl

end Storage

/-! ## The range -/

section Range

variable {L : RankedGraph H} {g : Graph H} {pruning : Bool} {head base : H}

variable (L g) in
/-- no stubs, no shallow roots, and every parent held -/
structure Whole : Prop where
  stubs : g.stubs = ∅
  shallow : g.shallow = ∅
  held : ∀ h ∈ g.nodes, ∀ p ∈ L.parents h, p ∈ g.nodes

variable {a h : H}

omit [LinearOrder H] in
theorem Whole.below (hw : Whole L g) (hb : L.Below a h) (hh : h ∈ g.nodes) : a ∈ g.nodes := by
  induction hb with
  | refl => exact hh
  | step hp _ ih => exact ih (hw.held _ hh _ hp)

theorem below_of_walks (hb : (g.walks L).Below a h) : L.Below a h := by
  induction hb with
  | refl => exact .refl
  | step hp _ ih => exact .step (mem_expandParents.1 hp).2.2.2 ih

theorem below_of_ancestorTest (ht : ancestorTest L g pruning base h = true) : L.Below h base := by
  unfold ancestorTest at ht
  split at ht
  · rw [Graph.isAncestor, Graph.isAncestorPruned, Bool.or_eq_true] at ht
    rcases ht with ht | ht
    · rw [of_decide_eq_true ht]
      exact .refl
    · obtain ⟨x, hx, hb⟩ := finds_iff.1 ht
      rw [mem_singleton.1 hx] at hb
      exact below_of_walks (below_of_cut hb)
  · obtain ⟨x, hx, hb⟩ := mem_explore.1 (of_decide_eq_true ht)
    rw [mem_singleton.1 hx] at hb
    exact below_of_walks hb

/-- the walk goes on from every commit strictly above the base -/
theorem Whole.turnsBack_eq_false (hw : Whole L g) (hh : h ∈ g.nodes) (hb : L.Below base h) (hne : base ≠ h) :
    turnsBack L g pruning base h = false := by
  have hlt : L.rank base < L.rank h := hb.eq_or_rank_lt.resolve_left hne
  have htest : ancestorTest L g pruning base h = false := by
    rw [Bool.eq_false_iff]
    intro ht
    have := (below_of_ancestorTest ht).rank_le
    omega
  simp [turnsBack, htest, hw.stubs, hh, Ne.symm hne]

theorem of_turnsBack_eq_false (ht : turnsBack L g pruning base h = false) :
    h ∈ g.nodes ∧ ancestorTest L g pruning base h = false := by
  simp only [turnsBack, Bool.or_eq_false_iff, decide_eq_false_iff_not, not_not] at ht
  exact ⟨ht.2, ht.1.1.2⟩

variable (L g pruning head base) in
/-- the edges the collecting walk follows -/
abbrev steps : RankedGraph H := L.cut (turnsBack L g pruning base)

/-- what a commit passes on to reach another one, it is in the range -/
theorem turnsBack_of_below (hb : (steps L g pruning base).Below a h) (hne : a ≠ h) :
    turnsBack L g pruning base h = false := by
  obtain ⟨p, hp, -⟩ := below_ne_iff.1 ⟨hb, hne⟩
  exact (mem_cut_parents.1 hp).1

theorem mem_commitsBetween (hne : head ≠ base) : h ∈ commitsBetween L g pruning head base ↔
    (steps L g pruning base).Below h head ∧ turnsBack L g pruning base h = false := by
  rw [commitsBetween, if_neg hne, (kahn_perm ((explore_nodup _).filter _)).mem_iff, mem_filter, mem_explore]
  simp

theorem commitsBetween_nodup : (commitsBetween L g pruning head base).Nodup := by
  unfold commitsBetween
  split
  · exact nodup_nil
  · exact (kahn_perm ((explore_nodup _).filter _)).nodup_iff.2 ((explore_nodup _).filter _)

/-- **Parents first.** What reaches a commit of the range over others of the range comes after it. -/
theorem after_of_below {l₁ l₂ : List H} (hne : head ≠ base)
    (hl : commitsBetween L g pruning head base = l₁ ++ a :: l₂) (hb : (steps L g pruning base).Below a h)
    (hah : a ≠ h) (hh : (steps L g pruning base).Below h head) : h ∈ l₂ := by
  have hmem : ∀ {x}, x ∈ l₁ ++ a :: l₂ ↔
      (steps L g pruning base).Below x head ∧ turnsBack L g pruning base x = false := by
    rw [← hl]
    exact mem_commitsBetween hne
  have ha : turnsBack L g pruning base a = false := (hmem.1 (by simp)).2
  have hordered : DepOrdered (L.inside (l₁ ++ a :: l₂)) (l₁ ++ a :: l₂) := by
    rw [commitsBetween, if_neg hne] at hl
    have := kahn_ordered (G := L) ((explore_nodup (G := steps L g pruning base) (D := fifo) [head]).filter
      fun h => !turnsBack L g pruning base h)
    rw [hl] at this
    refine this.weaken fun x _ p hp => ?_
    obtain ⟨hpx, hpm⟩ := mem_inside.1 hp
    rw [← hl, (kahn_perm ((explore_nodup _).filter _)).mem_iff] at hpm
    exact mem_inside.2 ⟨hpx, hpm⟩
  refine hordered.after (hl ▸ commitsBetween_nodup) ?_ (hmem.2 ⟨hh, turnsBack_of_below hb hah⟩)
  induction hb with
  | refl => exact absurd rfl hah
  | step hp hb ih =>
    rename_i x p
    have hpx := (mem_cut_parents.1 hp).2
    have hph : (steps L g pruning base).Below p head := (Below.parent hp).trans hh
    by_cases hap : a = p
    · subst hap
      exact .single (mem_inside.2 ⟨hpx, hmem.2 ⟨hph, ha⟩⟩)
    · exact .head (mem_inside.2 ⟨hpx, hmem.2 ⟨hph, turnsBack_of_below hb hap⟩⟩) (ih hap hph)

end Range

/-! ## Honest histories -/

section Honest

variable {L : RankedGraph H} {g : Graph H} {pruning : Bool} {sha256 : Bytes → DocTree.Hash} {adapter : Adapter}
  {C : Commits H} {tree : H → EntryMap}

variable (contentHash L g sha256 C) in
/-- a history whose commits declare the trees `tree` gives, each its first parent's with its operations applied, and whose
merges write every document their parents differ on -/
structure Honest (tree : H → EntryMap) : Prop where
  declared : ∀ h ∈ g.nodes, C.documentTreeHash h = merkleHash sha256 (tree h)
  single : ∀ h ∈ g.nodes, ∀ p, L.parents h = [p] →
    ∀ k, (tree h).lookup k = (applyOps contentHash (tree p) (C.operations h)).lookup k
  merge : ∀ h ∈ g.nodes, ∀ p q ps, L.parents h = p :: q :: ps →
    (∀ k, (tree h).lookup k = (applyOps contentHash (tree p) (C.operations h)).lookup k) ∧
    ∀ k, (∃ x ∈ L.parents h, ∃ y ∈ L.parents h, (tree x).lookup k ≠ (tree y).lookup k) → Names (C.operations h) k

variable (contentHash L g pruning C) in
/-- the commits without parents that are new to a head hold what their operations say -/
def RootsApply (tree : H → EntryMap) (localHead : H) : Prop :=
  ∀ r ∈ g.nodes, L.parents r = [] → ancestorTest L g pruning localHead r = false →
    ∀ k, Names (C.operations r) k → (tree r).lookup k = (applyOps contentHash ∅ (C.operations r)).lookup k

omit [LinearOrder H] in
/-- a document a commit does not name is as in each of its parents -/
theorem Honest.quiet (hh : Honest contentHash L g sha256 C tree) {h p : H} (hn : h ∈ g.nodes) (hp : p ∈ L.parents h)
    (hk : ¬Names (C.operations h) k) : (tree h).lookup k = (tree p).lookup k := by
  have hfirst : ∀ q, (tree h).lookup k = (applyOps contentHash (tree q) (C.operations h)).lookup k →
      (tree h).lookup k = (tree q).lookup k := by
    intro q hq
    rw [hq, lookup_applyOps, after_eq_none.2 hk, getD_none]
  rcases hps : L.parents h with _ | ⟨q, _ | ⟨q', ps⟩⟩
  · rw [hps] at hp
    cases hp
  · rw [hps, mem_singleton] at hp
    rw [hp]
    exact hfirst q (hh.single h hn q hps k)
  · obtain ⟨happly, hdiffer⟩ := hh.merge h hn q q' ps hps
    have hagree : (tree q).lookup k = (tree p).lookup k := by
      by_contra hne
      exact hk (hdiffer k ⟨q, by simp [hps], p, hp, hne⟩)
    exact (hfirst q (happly k)).trans hagree

variable {localHead incomingHead : H}

/-- a document a commit names is as the operations leave it -/
theorem Honest.named (hh : Honest contentHash L g sha256 C tree) {h : H}
    (hr : RootsApply contentHash L g pruning C tree localHead) (hn : h ∈ g.nodes)
    (hnew : ancestorTest L g pruning localHead h = false) (hk : Names (C.operations h) k) :
    after contentHash k (C.operations h) = some ((tree h).lookup k) := by
  obtain ⟨v, hv⟩ := ne_none_iff_exists'.1 (mt after_eq_none.1 (not_not.2 hk) : after contentHash k (C.operations h) ≠ none)
  have hval : ∀ m : EntryMap, (tree h).lookup k = (applyOps contentHash m (C.operations h)).lookup k →
      after contentHash k (C.operations h) = some ((tree h).lookup k) := by
    intro m hm
    rw [hm, lookup_applyOps, hv, getD_some]
  rcases hps : L.parents h with _ | ⟨q, _ | ⟨q', ps⟩⟩
  · exact hval ∅ (hr h hn hps hnew k hk)
  · exact hval (tree q) (hh.single h hn q hps k)
  · exact hval (tree q) ((hh.merge h hn q q' ps hps).1 k)

/-- down a path on which only its lower end may name the document -/
theorem Honest.quiet_path (hh : Honest contentHash L g sha256 C tree) {base a x : H}
    (hb : (steps L g pruning base).Below a x)
    (hquiet : ∀ y, (steps L g pruning base).Below a y → a ≠ y → (steps L g pruning base).Below y x →
      ¬Names (C.operations y) k) : (tree x).lookup k = (tree a).lookup k := by
  induction hb with
  | refl => rfl
  | step hp hb ih =>
    rename_i x p
    obtain ⟨hback, hpx⟩ := mem_cut_parents.1 hp
    have hne : a ≠ x := (below_ne_iff.2 ⟨p, hp, hb⟩).2
    rw [hh.quiet (of_turnsBack_eq_false hback).1 hpx (hquiet x (.step hp hb) hne .refl)]
    exact ih fun y hay hne hyp => hquiet y hay hne (hyp.trans (.parent hp))

theorem exists_last {α : Type*} {P : α → Prop} {l : List α} (h : ∃ x ∈ l, P x) :
    ∃ l₁ x l₂, l = l₁ ++ x :: l₂ ∧ P x ∧ ∀ y ∈ l₂, ¬P y := by
  induction l with
  | nil => simp at h
  | cons a l ih =>
    by_cases hl : ∃ x ∈ l, P x
    · obtain ⟨l₁, x, l₂, rfl, hx, hlast⟩ := ih hl
      exact ⟨a :: l₁, x, l₂, rfl, hx, hlast⟩
    · obtain ⟨x, hx, hPx⟩ := h
      rcases mem_cons.1 hx with rfl | hx
      · exact ⟨[], x, l, rfl, hPx, fun y hy hPy => hl ⟨y, hy, hPy⟩⟩
      · exact absurd ⟨x, hx, hPx⟩ hl

/-- **Every document.** What the commits between two heads say of a document, over its state at the lower one, is its state at
the upper one. -/
theorem Honest.between (hw : Whole L g) (hh : Honest contentHash L g sha256 C tree)
    (hr : RootsApply contentHash L g pruning C tree localHead) (hin : incomingHead ∈ g.nodes)
    (hb : L.Below localHead incomingHead) (k : Key) :
    (after contentHash k ((commitsBetween L g pruning incomingHead localHead).flatMap C.operations)).getD
      ((tree localHead).lookup k) = (tree incomingHead).lookup k := by
  by_cases hne : incomingHead = localHead
  · rw [commitsBetween, if_pos hne, hne]
    rfl
  have hreach : (steps L g pruning localHead).Below localHead incomingHead :=
    hb.cut fun y hay hne' hy => hw.turnsBack_eq_false (hw.below hy hin) hay hne'
  have hquiet : ∀ l : List H, (∀ y ∈ l, ¬Names (C.operations y) k) → after contentHash k (l.flatMap C.operations) = none := by
    intro l hl
    refine after_eq_none.2 ?_
    rintro ⟨op, hop, hd⟩
    obtain ⟨y, hy, hop⟩ := mem_flatMap.1 hop
    exact hl y hy ⟨op, hop, hd⟩
  by_cases hnamed : ∃ w ∈ commitsBetween L g pruning incomingHead localHead, Names (C.operations w) k
  · -- the last commit of the order that names the document decides, and no commit above it names it
    obtain ⟨l₁, w, l₂, hl, hwk, hlast⟩ := exists_last hnamed
    obtain ⟨hwb, hwback⟩ := (mem_commitsBetween hne).1 (by rw [hl]; simp : w ∈ commitsBetween L g pruning incomingHead localHead)
    obtain ⟨hwn, hwnew⟩ := of_turnsBack_eq_false hwback
    rw [hl, flatMap_append, flatMap_cons, after_append, after_append, hquiet l₂ hlast, none_or,
      hh.named hr hwn hwnew hwk, some_or]
    refine (hh.quiet_path hwb fun y hwy hwne hyh => ?_).symm
    exact hlast y (after_of_below hne hl hwy hwne hyh)
  · -- no commit on the path to the lower head names it
    rw [hquiet _ fun y hy hyk => hnamed ⟨y, hy, hyk⟩]
    refine (hh.quiet_path hreach fun y hay hane hyh hyk => hnamed ⟨y, ?_, hyk⟩).symm
    exact (mem_commitsBetween hne).2 ⟨hyh, turnsBack_of_below hay hane⟩

/-- applying them to storage that stands on the lower head's tree succeeds, and leaves it on the upper one's -/
theorem Honest.applyAndVerify (hw : Whole L g) (hh : Honest contentHash L g sha256 C tree)
    (hin : incomingHead ∈ g.nodes) (hb : L.Below localHead incomingHead)
    (hops : ∀ k, (after contentHash k ops).getD ((tree localHead).lookup k) = (tree incomingHead).lookup k)
    {s : Storage} {t : DocumentTree} (hbase : s.base adapter (C.documentTreeHash localHead) = some t)
    (ht : Holds sha256 t (tree localHead)) (hputs : s.puts = ∅) (hdeletes : s.deletes = ∅) :
    ∃ s' t', FastForward.applyAndVerify contentHash g sha256 adapter C s localHead incomingHead ops = .ok s' ∧
      s'.base adapter (C.documentTreeHash incomingHead) = some t' ∧ Holds sha256 t' (tree incomingHead) := by
  obtain ⟨built, m', hcommit, hbuilt, hlook⟩ := Storage.commitTree_holds
    ((Storage.base_stageAll ops (C.documentTreeHash localHead)).trans hbase : (ops.foldl Storage.stage s).base adapter _ = _) ht
  have hm' : ∀ k, m'.lookup k = (tree incomingHead).lookup k := by
    intro k
    rw [hlook, Storage.staged_stageAll, ← hops k, Storage.staged, hputs, hdeletes]
    rfl
  have hheld := hbuilt.congr hm'
  have hdeclared : built.treeHash = C.documentTreeHash incomingHead := hheld.treeHash.trans (hh.declared _ hin).symm
  refine ⟨⟨(ops.foldl Storage.stage s).trees.insert built.treeHash built, built, ∅, ∅⟩, built, ?_, ?_, hheld⟩
  · rw [FastForward.applyAndVerify, if_neg (not_not.2 (hw.below hb hin)), if_neg (not_not.2 hin), hcommit]
    exact if_neg (not_not.2 hdeclared)
  · cases adapter with
    | memory =>
      rw [← hdeclared]
      exact AList.lookup_insert _
    | engine => rfl

end Honest

/-- **Fast-forwards rebuild the declared tree.** The net effect of the commits between a head and a descendant of it takes the
head's tree to the descendant's; on storage that stands on the head's tree the move succeeds and leaves storage on the
descendant's. -/
theorem fast_forward_rebuilds (contentHash : Key → String → DocTree.Hash) (sha256 : Bytes → DocTree.Hash) (L : RankedGraph H)
    (g : Graph H) (pruning : Bool) (C : Commits H) (tree : H → EntryMap) (hw : Whole L g)
    (hh : Honest contentHash L g sha256 C tree) (localHead incomingHead : H) (hin : incomingHead ∈ g.nodes)
    (hb : L.Below localHead incomingHead) (hr : RootsApply contentHash L g pruning C tree localHead) :
    (∀ k, (applyOps contentHash (tree localHead)
        (netEffect ((commitsBetween L g pruning incomingHead localHead).flatMap C.operations))).lookup k =
      (tree incomingHead).lookup k) ∧
    ∀ (adapter : Adapter) (s : Storage) (t : DocumentTree), s.base adapter (C.documentTreeHash localHead) = some t →
      Holds sha256 t (tree localHead) → s.puts = ∅ → s.deletes = ∅ →
      ∃ s' t' advanced, fastForward contentHash L g pruning sha256 adapter C true s localHead incomingHead =
          .ok ({ g with main := incomingHead }, s', advanced) ∧
        s'.base adapter (C.documentTreeHash incomingHead) = some t' ∧ Holds sha256 t' (tree incomingHead) := by
  have hnet : ∀ k, (after contentHash k (netEffect ((commitsBetween L g pruning incomingHead localHead).flatMap
      C.operations))).getD ((tree localHead).lookup k) = (tree incomingHead).lookup k := by
    intro k
    rw [after_netEffect]
    exact hh.between hw hr hin hb k
  refine ⟨fun k => (lookup_applyOps _ _).trans (hnet k), ?_⟩
  intro adapter s t hbase ht hputs hdeletes
  obtain ⟨s', t', happly, hbase', ht'⟩ := hh.applyAndVerify hw hin hb hnet hbase ht hputs hdeletes
  have hall : adoptable g (commitsBetween L g pruning incomingHead localHead) =
      commitsBetween L g pruning incomingHead localHead := by
    simp [adoptable, hw.shallow]
  refine ⟨s', t', ⟨commitsBetween L g pruning incomingHead localHead,
    netEffect ((commitsBetween L g pruning incomingHead localHead).flatMap C.operations)⟩, ?_, hbase', ht'⟩
  simp only [fastForward, hall, happly, Graph.present, hin]
  rfl

/-! ## Fixed histories -/

/-- the nil id -/
def nilDoc : Key := ⟨fun _ => 0⟩

def ones : DocTree.Hash := ⟨fun _ => 1⟩

/-- the root, two branches of one commit each, and their merge -/
def diamond : RankedGraph ℕ where
  parents
    | 1 => [0]
    | 2 => [0]
    | 3 => [1, 2]
    | _ => []
  rank := id
  rank_lt := by
    intro x p hp
    split at hp <;> simp only [mem_cons, not_mem_nil, or_false] at hp
    all_goals
      simp only [id]
      omega

def diamondGraph : Graph ℕ := Machine.run (fun g h => g.putCommit diamond h true) (Graph.new 0) [1, 2, 3]

/-- one branch writes a document, and the merge writes it again -/
def diamondOps : ℕ → List Op
  | 1 => [.write nilDoc "a"]
  | 3 => [.write nilDoc "b"]
  | _ => []

def diamondTree (contentHash : Key → String → DocTree.Hash) : ℕ → EntryMap
  | 0 => ∅
  | 1 => applyOps contentHash ∅ (diamondOps 1)
  | 2 => ∅
  | _ => applyOps contentHash (applyOps contentHash ∅ (diamondOps 1)) (diamondOps 3)

theorem mem_diamondGraph {h : ℕ} : h ∈ diamondGraph.nodes ↔ h = 0 ∨ h = 1 ∨ h = 2 ∨ h = 3 := by
  have hkeys : diamondGraph.nodes.keys = [3, 2, 1, 0] := by decide +kernel
  rw [AList.mem_keys, hkeys]
  simp only [mem_cons, not_mem_nil, or_false]
  omega

/-- they declare their trees -/
def diamondCommits : Commits ℕ := ⟨diamondOps, fun h => merkleHash (fun _ => ones) (diamondTree (fun _ _ => ones) h)⟩

theorem diamond_honest :
    Honest (fun _ _ => ones) diamond diamondGraph (fun _ => ones) diamondCommits (diamondTree fun _ _ => ones) where
  declared := by
    intro h _
    rw [diamondCommits]
  single := by
    intro h hh p hp k
    rcases mem_diamondGraph.1 hh with rfl | rfl | rfl | rfl <;> cases hp <;> rfl
  merge := by
    intro h hh p q ps hp
    rcases mem_diamondGraph.1 hh with rfl | rfl | rfl | rfl <;> cases hp
    refine ⟨fun k => rfl, ?_⟩
    rintro k ⟨x, hx, y, hy, hne⟩
    -- outside the one document all trees are empty
    refine ⟨.write nilDoc "b", mem_singleton.2 rfl, congrArg some ?_⟩
    by_contra hk
    have hnone : ∀ z ∈ [1, 2], (diamondTree (fun _ _ => ones) z).lookup k = none := by
      intro z hz
      rcases mem_cons.1 hz with rfl | hz
      · exact (AList.lookup_insert_ne (Ne.symm hk)).trans (AList.lookup_empty k)
      · rw [mem_singleton.1 hz]
        exact AList.lookup_empty k
    exact hne ((hnone x hx).trans (hnone y hy).symm)

/-- storage on the tree of the first branch -/
def diamondStorage : Storage :=
  ⟨∅, DocumentTree.buildTrieDocumentTree (fun _ => ones) (diamondTree (fun _ _ => ones) 1), ∅, ∅⟩

theorem fast_forward_rebuilds_diamond :
    ∃ s' t' advanced, fastForward (fun _ _ => ones) diamond diamondGraph true (fun _ => ones) .engine diamondCommits true
        diamondStorage 1 3 = .ok ({ diamondGraph with main := 3 }, s', advanced) ∧
      s'.base .engine (diamondCommits.documentTreeHash 3) = some t' ∧
      Holds (fun _ => ones) t' (diamondTree (fun _ _ => ones) 3) := by
  have hw : Whole diamond diamondGraph := by
    refine ⟨by decide +kernel, by decide +kernel, fun h hh p hp => ?_⟩
    rcases mem_diamondGraph.1 hh with rfl | rfl | rfl | rfl <;> revert p <;> decide +kernel
  have hr : RootsApply (fun _ _ => ones) diamond diamondGraph true diamondCommits (diamondTree fun _ _ => ones) 1 := by
    rintro r hr hps - k ⟨op, hop, -⟩
    rcases mem_diamondGraph.1 hr with rfl | rfl | rfl | rfl
    · cases hop
    · cases hps
    · cases hps
    · cases hps
  have hbase : diamondStorage.base .engine (diamondCommits.documentTreeHash 1) = some diamondStorage.live := by
    rw [Storage.base]
  exact (fast_forward_rebuilds _ _ diamond diamondGraph true diamondCommits _ hw diamond_honest 1 3 (by decide +kernel)
    (by decide +kernel) hr).2 .engine diamondStorage diamondStorage.live hbase
    (Start.buildTrie (diamondTree (fun _ _ => ones) 1)).holds rfl rfl

/-- two commits without parents, and their merge -/
def twoRoots : RankedGraph ℕ where
  parents
    | 2 => [0, 1]
    | _ => []
  rank := id
  rank_lt := by
    intro x p hp
    split at hp
    · simp only [mem_cons, not_mem_nil, or_false] at hp
      simp only [id]
      omega
    · cases hp

def twoRootsGraph : Graph ℕ := Machine.run (fun g h => g.putCommit twoRoots h true) (Graph.new 0) [1, 2]

/-- every tree is empty; the second root says it wrote a document -/
def twoRootsCommits : Commits ℕ := ⟨fun h => if h = 1 then [.write nilDoc "a"] else [], fun _ => DocTree.Hash.zero⟩

/-- **A foreign root.** Parents that agree leave nothing for the merge to write, and the write of the second root, which its
tree does not hold, is applied. -/
theorem foreign_root_mismatch :
    Whole twoRoots twoRootsGraph ∧
    Honest (fun _ _ => ones) twoRoots twoRootsGraph (fun _ => ones) twoRootsCommits (fun _ => ∅) ∧
    twoRoots.Below 0 2 ∧
    (applyOps (fun _ _ => ones) ∅
      (netEffect ((commitsBetween twoRoots twoRootsGraph true 2 0).flatMap twoRootsCommits.operations))).lookup nilDoc =
      some ones ∧
    fastForward (fun _ _ => ones) twoRoots twoRootsGraph true (fun _ => ones) .engine twoRootsCommits true
      ⟨∅, DocumentTree.emptyDocumentTree fun _ => ones, ∅, ∅⟩ 0 2 = .error (.treeMismatch 2 DocTree.Hash.zero ones) := by
  have hkeys : twoRootsGraph.nodes.keys = [2, 1, 0] := by decide +kernel
  have hmem : ∀ {h : ℕ}, h ∈ twoRootsGraph.nodes ↔ h = 2 ∨ h = 1 ∨ h = 0 := by
    intro h
    rw [AList.mem_keys, hkeys]
    simp
  refine ⟨⟨by decide +kernel, by decide +kernel, fun h hh p hp => ?_⟩, ⟨fun _ _ => ?_, ?_, ?_⟩, by decide +kernel,
    by decide +kernel, ?_⟩
  · rcases hmem.1 hh with rfl | rfl | rfl <;> revert p <;> decide +kernel
  · exact (@Start.holds (fun _ => ones) .empty).treeHash
  · intro h hh p hp
    rcases hmem.1 hh with rfl | rfl | rfl <;> cases hp
  · intro h hh p q ps hp
    rcases hmem.1 hh with rfl | rfl | rfl <;> cases hp
    exact ⟨fun k => rfl, fun k ⟨_, _, _, _, hne⟩ => absurd rfl hne⟩
  · rfl

end Kdb.FastForward
