/-
The merge of two diverged heads (`peersync/merge_resolution.go`, `peersync/conflict_detection.go`,
`peersync/join.go`), as one node computes it from its local head and the incoming one.

- `resolveDiverged`: heads with the same content are joined over their joint frontier; otherwise each document the
  sides hold differently goes to the side that changed it, or to the chain and the policy when both did. What nothing
  settles is reported; else the merge commit writes every document on which its parents differ.

`Go` ranges over maps in any order: each node's order of the forks it writes is a parameter. Storage is assumed to
stand on the local head's tree. The base version and the attachments of the merge transaction are left out, as is the
log of newly reachable commits.
-/
import Kdb.Peersync.ResolutionChain

namespace Kdb.Peersync

open List

/-! ## The pieces of a merge -/

/-- what a merge writes: the value of each document, nothing for a deletion -/
abbrev Writes := Std.ExtTreeMap DocId (Option Fields) compare

def bodyOp (id : DocId) : Option Fields → Op
  | some body => .write id (.obj body) false
  | none => .delete id

/-- the operations of a set of writes, in id order -/
def Writes.ops (w : Writes) : List Op := w.toList.map fun m => bodyOp m.1 m.2

/-- `divergedDoc`: one document the two sides hold differently -/
structure DivergedDoc where
  id : DocId
  localBody : Option Fields
  remoteBody : Option Fields
  localOrig : Option Hash
  remoteOrig : Option Hash
  localChanged : Bool
  remoteChanged : Bool

/-- `mergeCommitParents`: in hash order -/
def mergeCommitParents (a b : Hash) : Hash × Hash := if a ≤ b then (a, b) else (b, a)

/-- `kdberr.ConflictItem` with its `ConflictDetail` -/
structure ConflictItem where
  docId : DocId
  operationType : ConflictType
  localDoc : Option Fields
  incomingDoc : Option Fields
  base : Option Fields
  reason : Option String
  localOrigin : Option ConflictOrigin
  incomingOrigin : Option ConflictOrigin
  deriving DecidableEq

/-- `CommitPushOutcome`; `failed` stands for the errors of unknown commits and unrelated histories -/
inductive Outcome where
  | failed
  | noOp
  | adopted (head : Hash)
  | merged (commit : Commit)
  | conflict (items : List ConflictItem)
  deriving DecidableEq

variable (H : History) (opts : Options) (localHead incomingHead : Hash)

/-- what a merge knows of a document: each side's body, its origin and whether the other side lacks that write -/
def divergedDoc (id : DocId) : DivergedDoc where
  id := id
  localBody := H.bodyAt localHead id
  remoteBody := H.bodyAt incomingHead id
  localOrig := H.origin localHead id
  remoteOrig := H.origin incomingHead id
  localChanged := H.changed (H.origin localHead id) incomingHead
  remoteChanged := H.changed (H.origin incomingHead id) localHead

/-- the documents the two sides hold differently, in id order -/
def divergedDocs : List DivergedDoc :=
  ((H.candidates localHead incomingHead).filter fun id => H.bodyAt localHead id ≠ H.bodyAt incomingHead id).map
    (divergedDoc H localHead incomingHead)

variable (dd : DivergedDoc)

/-- both sides changed the document, or neither did and they still differ -/
def DivergedDoc.conflicting : Bool := dd.localChanged == dd.remoteChanged

/-- the base the rules are handed, and why it could not be built -/
def conflictBase (p0 p1 : Hash) (id : DocId) : Option Fields × Option String :=
  match opts.chain with
  | none => (none, none)
  | some chain =>
    if chain.mergeBases then
      let out := virtualBase H opts id maxVirtualBaseDepth (H.mergeBases [p0] [p1]) none
      (out.1.body, out.2)
    else ((H.commonAncestor p0 p1).bind fun anc => H.bodyAt anc id, none)

/-- `canonicalSides`: side 0 is the first parent's -/
def canonicalSides : ConflictSides :=
  let p := mergeCommitParents localHead incomingHead
  let base := conflictBase H opts p.1 p.2 dd.id
  let heads := if opts.chain.any Chain.mergeBases then some p else none
  if p.1 = localHead then
    ⟨dd.localBody, dd.remoteBody, dd.localOrig, dd.remoteOrig, base.1, heads, if heads.isSome then base.2 else none⟩
  else
    ⟨dd.remoteBody, dd.localBody, dd.remoteOrig, dd.localOrig, base.1, heads, if heads.isSome then base.2 else none⟩

/-- what the chain makes of a document; without one every document is left to the policy -/
def chainOutcome : ChainOutcome :=
  match opts.chain with
  | none => .exhausted
  | some chain => chain.resolve H opts dd.id (canonicalSides H opts localHead incomingHead dd)

/-- `resolveConflicting` of one document: its settlement and whether an authority may overrule it -/
def settle : Option (Settlement × Bool) :=
  match chainOutcome H opts localHead incomingHead dd with
  | .decided winner fork provisional => some (⟨winner, fork⟩, provisional)
  | .queued | .held _ => none
  | .exhausted =>
    if opts.policy = .lastWrite then
      some (⟨if H.originLater dd.localOrig dd.remoteOrig then dd.localBody else dd.remoteBody, none⟩, false)
    else none

/-- the value a merge gives a document -/
def mergedBody : Option Fields :=
  if dd.localChanged && !dd.remoteChanged then dd.localBody
  else if dd.remoteChanged && !dd.localChanged then dd.remoteBody
  else (settle H opts localHead incomingHead dd).bind fun st => st.1.body

def classifyConflictOp (l r : Option Fields) : ConflictType :=
  match l, r with
  | none, some _ => .deleteWrite
  | some _, none => .writeDelete
  | _, _ => .concurrentWrite

/-- what is reported of an undecided document -/
def conflictItem : ConflictItem where
  docId := dd.id
  operationType := classifyConflictOp dd.localBody dd.remoteBody
  localDoc := dd.localBody
  incomingDoc := dd.remoteBody
  base := (canonicalSides H opts localHead incomingHead dd).base
  reason := match chainOutcome H opts localHead incomingHead dd with
    | .held reason => some reason
    | _ => none
  localOrigin := conflictOrigin H dd.localOrig
  incomingOrigin := conflictOrigin H dd.remoteOrig

/-- `forkWritten`: the id exists, or once existed, on either head's history -/
def forkWritten (id : DocId) : Bool :=
  (H.valueAt localHead id).writer.isSome || (H.valueAt incomingHead id).writer.isSome

/-- `causalTimestampLocked`: raised past every parent -/
def causalTimestamp (ts : ℕ) (parents : List Hash) : ℕ :=
  parents.foldl (fun micros p => match H.commit p with
    | some c => if micros ≤ c.timestamp then c.timestamp + 1 else micros
    | none => micros) ts

def mergeMessageFor (ids : List DocId) : String :=
  if ids = [] then History.mergeMessage
  else History.mergeMessage ++ " provisional=" ++ ",".intercalate (ids.map DocId.text)

/-! ## The merge commit -/

/-- the conflicting documents' settlements -/
def settlements : List (DocId × Settlement × Bool) :=
  ((divergedDocs H localHead incomingHead).filter DivergedDoc.conflicting).filterMap fun dd =>
    (settle H opts localHead incomingHead dd).map (dd.id, ·)

variable (order : List ForkDoc → List ForkDoc)

/-- the forks a merge writes, in the order the node's map gives them -/
def writtenForks (localHead incomingHead : Hash) : List ForkDoc :=
  (order ((settlements H opts localHead incomingHead).filterMap fun st => st.2.1.fork)).filter fun f =>
    !forkWritten H localHead incomingHead f.id

/-- the merged values of some documents, and the forks -/
def writesOf (localHead incomingHead : Hash) (docs : List DivergedDoc) : Writes :=
  .ofList (docs.map (fun dd => (dd.id, mergedBody H opts localHead incomingHead dd))
    ++ (writtenForks H opts order localHead incomingHead).map fun f => (f.id, some f.body)) compare

/-- `commitOps`: every document on which the parents differ -/
def commitWrites (localHead incomingHead : Hash) : Writes :=
  writesOf H opts order localHead incomingHead (divergedDocs H localHead incomingHead)

/-- `storageWrites`: what changes on top of the local head's tree -/
def storageWrites (localHead incomingHead : Hash) : Writes :=
  writesOf H opts order localHead incomingHead
    ((divergedDocs H localHead incomingHead).filter fun dd =>
      mergedBody H opts localHead incomingHead dd ≠ dd.localBody)

variable (derived : List Hash → TxId)

/-- `mergeNonConflicting`; `derived` makes a transaction id of the parents -/
def mergeNonConflicting (order : List ForkDoc → List ForkDoc) (localHead incomingHead : Hash) (lc ic : Commit) : Commit :=
  let p := mergeCommitParents localHead incomingHead
  { parents := [p.1, p.2]
    transactionId := derived [p.1, p.2]
    timestamp := causalTimestamp H (if lc.timestamp < ic.timestamp then ic.timestamp else lc.timestamp) [p.1, p.2]
    author := History.mergeAuthorNodeId
    operations := (commitWrites H opts order localHead incomingHead).ops
    tree := lc.tree.applyOps (storageWrites H opts order localHead incomingHead).ops
    schemaHash := if lc.schemaHash = ic.schemaHash then lc.schemaHash else none
    message := mergeMessageFor
      (((settlements H opts localHead incomingHead).filter fun st => st.2.2).map Prod.fst) }

/-! ## Heads with the same content -/

/-- `namesExactly`: the commit is a content-free merge of exactly these commits -/
def namesExactly (c : Commit) (frontier : List Hash) : Bool :=
  c.parents.length = frontier.length && H.isContentFreeMerge c
    && c.parents.insertionSort (· ≤ ·) = frontier

/-- the canonical join of a frontier (`joinTransaction`) -/
def joinCommit (lc : Commit) (frontier : List Hash) : Commit where
  parents := frontier
  transactionId := derived frontier
  timestamp := causalTimestamp H
    (frontier.foldl (fun ts h => match H.commit h with
      | some c => if ts < c.timestamp then c.timestamp else ts
      | none => ts) 0) frontier
  author := History.mergeAuthorNodeId
  operations := []
  tree := lc.tree
  schemaHash := lc.schemaHash
  message := History.mergeMessage

/-- `joinSameContent`: nothing when the heads differ in content -/
def joinSameContent (localHead incomingHead : Hash) (lc ic : Commit) : Option Outcome :=
  if lc.tree ≠ ic.tree ∨ lc.schemaHash ≠ ic.schemaHash then none
  else
    let frontier := H.frontierOf localHead incomingHead
    if frontier = [localHead] then some .noOp
    else if frontier = [incomingHead] then some (.adopted incomingHead)
    else if namesExactly H lc frontier then some .noOp
    else if namesExactly H ic frontier then some (.adopted incomingHead)
    else some (.merged (joinCommit H derived lc frontier))

/-- the conflicting documents that neither the chain nor the policy settles -/
def undecided : List DivergedDoc :=
  ((divergedDocs H localHead incomingHead).filter DivergedDoc.conflicting).filter fun dd =>
    (settle H opts localHead incomingHead dd).isNone

/-- `resolveDivergedLocked` of heads that differ in content -/
def mergeDocuments (order : List ForkDoc → List ForkDoc) (localHead incomingHead : Hash) (lc ic : Commit) : Outcome :=
  if undecided H opts localHead incomingHead ≠ [] then
    .conflict ((undecided H opts localHead incomingHead).map (conflictItem H opts localHead incomingHead))
  else .merged (mergeNonConflicting H opts derived order localHead incomingHead lc ic)

def resolveDiverged (order : List ForkDoc → List ForkDoc) (localHead incomingHead : Hash) : Outcome :=
  match H.commit localHead, H.commit incomingHead with
  | some lc, some ic =>
    if (H.commonAncestor localHead incomingHead).isNone && !opts.chain.any Chain.allowUnrelated then .failed
    else match joinSameContent H derived localHead incomingHead lc ic with
      | some out => out
      | none => mergeDocuments H opts derived order localHead incomingHead lc ic
  | _, _ => .failed

/-! ## What a merge writes -/

theorem bodyOp_after (id d : DocId) (v : Option Fields) : (bodyOp id v).after d = if id = d then some v else none := by
  cases v <;> simp [bodyOp, Op.after, Json.rootObject]

variable {d : DocId} {a b : Hash} {dd : DivergedDoc} {f : ForkDoc}

/-- operations made of writes to different documents decide exactly those documents -/
theorem after_bodyOps {m : List (DocId × Option Fields)} (hm : (m.map Prod.fst).Nodup) {v : Option Fields} :
    Ops.after d (m.map fun e => bodyOp e.1 e.2) = some v ↔ (d, v) ∈ m := by
  induction m generalizing v with
  | nil => simp [Ops.after]
  | cons e m ih =>
    obtain ⟨hnot, hm⟩ := nodup_cons.1 hm
    rw [map_cons, Ops.after, bodyOp_after]
    by_cases hed : e.1 = d
    · have hnone : Ops.after d (m.map fun e => bodyOp e.1 e.2) = none := by
        by_contra hw
        obtain ⟨v', hv'⟩ := Option.ne_none_iff_exists'.1 hw
        exact hnot (hed ▸ mem_map_of_mem ((ih hm).1 hv'))
      have hnm : (d, v) ∉ m := fun h => hnot (hed ▸ mem_map_of_mem h)
      simp [hnone, hnm, Prod.ext_iff, eq_comm]
    · have hne : (d, v) ≠ e := fun h => hed (by rw [← h])
      simp [hed, ih hm, hne]

namespace Writes

theorem nodup_keys (w : Writes) : (w.toList.map Prod.fst).Nodup := by
  refine pairwise_map.2 (Std.ExtTreeMap.distinct_keys_toList.imp ?_)
  intro a b h heq
  exact h (by simp [heq])

theorem after_ops (w : Writes) (d : DocId) : Ops.after d w.ops = w[d]? := by
  refine Option.ext ?_
  intro v
  rw [ops, after_bodyOps w.nodup_keys, Std.ExtTreeMap.mem_toList_iff_getElem?_eq_some]

theorem applyOps_get (t : Tree) (w : Writes) (d : DocId) : (t.applyOps w.ops)[d]? = (w[d]?).getD t[d]? := by
  rw [Tree.applyOps_get, after_ops]

variable {l : List (DocId × Option Fields)}

theorem ofList_get (hl : (l.map Prod.fst).Nodup) {d : DocId} {v : Option Fields} :
    (Std.ExtTreeMap.ofList l compare : Writes)[d]? = some v ↔ (d, v) ∈ l := by
  have hdistinct : l.Pairwise fun a b => ¬ compare a.1 b.1 = .eq :=
    (pairwise_map.1 hl).imp fun h heq => h (Nat.compare_eq_eq.1 heq)
  refine ⟨?_, fun h => Std.ExtTreeMap.getElem?_ofList_of_mem (by simp) hdistinct h⟩
  intro h
  by_cases hmem : d ∈ l.map Prod.fst
  · obtain ⟨e, he, rfl⟩ := mem_map.1 hmem
    rw [Std.ExtTreeMap.getElem?_ofList_of_mem (by simp) hdistinct he] at h
    cases h
    exact he
  · rw [Std.ExtTreeMap.getElem?_ofList_of_contains_eq_false (by simpa using hmem)] at h
    cases h

/-- writes to different documents may be collected in any order -/
theorem ofList_perm {l' : List (DocId × Option Fields)} (hl : (l.map Prod.fst).Nodup) (h : l.Perm l') :
    (Std.ExtTreeMap.ofList l compare : Writes) = .ofList l' compare := by
  refine Std.ExtTreeMap.ext_getElem? ?_
  intro d
  refine Option.ext ?_
  intro v
  rw [ofList_get hl, ofList_get ((h.map Prod.fst).nodup_iff.1 hl), h.mem_iff]

end Writes

variable {H opts}

section Fields

variable (derived : List Hash → TxId) (order : List ForkDoc → List ForkDoc) (a b : Hash) (lc ic : Commit)

@[simp] theorem mergeNonConflicting_parents : (mergeNonConflicting H opts derived order a b lc ic).parents =
    [(mergeCommitParents a b).1, (mergeCommitParents a b).2] := by
  rw [mergeNonConflicting]

@[simp] theorem mergeNonConflicting_operations : (mergeNonConflicting H opts derived order a b lc ic).operations =
    (commitWrites H opts order a b).ops := by
  rw [mergeNonConflicting]

@[simp] theorem mergeNonConflicting_tree : (mergeNonConflicting H opts derived order a b lc ic).tree =
    lc.tree.applyOps (storageWrites H opts order a b).ops := by
  rw [mergeNonConflicting]

end Fields

theorem mem_divergedDocs : dd ∈ divergedDocs H a b ↔
    ∃ d ∈ H.candidates a b, H.bodyAt a d ≠ H.bodyAt b d ∧ divergedDoc H a b d = dd := by
  simp [divergedDocs, and_assoc]

theorem divergedDocs_ids (a b : Hash) : ((divergedDocs H a b).map DivergedDoc.id).Nodup := by
  have hid : DivergedDoc.id ∘ divergedDoc H a b = id := rfl
  rw [divergedDocs, map_map, hid, map_id]
  exact (nodup_sorted _).filter _

/-- a rule forks a document only through a procedure -/
theorem resolveRules_fork {v2 : Bool} {sides : ConflictSides} {rules : List Rule} {winner : Option Fields}
    {provisional : Bool} (h : resolveRules H opts v2 d sides rules = .decided winner (some f) provisional) :
    ∃ run name sourceHash pc st, opts.procedure = some run ∧ run name sourceHash pc = .ok (some st) ∧ pc.docId = d ∧
      st.fork = some f := by
  fun_induction resolveRules H opts v2 d sides rules
  case case4 name sourceHash rest run hproc st hrun =>
    have hfork : st.fork = some f := (ChainOutcome.decided.inj h).2.1
    exact ⟨run, name, sourceHash, _, st, hproc, hrun, rfl, hfork⟩
  all_goals simp_all

/-- a settlement's fork is one a procedure asked for -/
theorem settle_fork {st : Settlement × Bool} (h : settle H opts a b dd = some st) (hf : st.1.fork = some f) :
    ∃ run name sourceHash pc st', opts.procedure = some run ∧ run name sourceHash pc = .ok (some st') ∧
      pc.docId = dd.id ∧ st'.fork = some f := by
  unfold settle at h
  split at h
  · rename_i winner fork provisional hout
    cases h
    subst hf
    unfold chainOutcome at hout
    split at hout
    · cases hout
    · unfold Chain.resolve at hout
      split_ifs at hout
      split at hout
      · cases hout
      · exact resolveRules_fork hout
  · cases h
  · cases h
  · split at h
    · cases h
      cases hf
    · cases h

/-- procedures fork different documents under different ids -/
def ForksApart (opts : Options) : Prop :=
  ∀ run, opts.procedure = some run → ∀ name sourceHash pc st name' sourceHash' pc' st' f f',
    run name sourceHash pc = .ok (some st) → run name' sourceHash' pc' = .ok (some st') →
      st.fork = some f → st'.fork = some f' → pc.docId ≠ pc'.docId → f.id ≠ f'.id

theorem mem_settlements {st : DocId × Settlement × Bool} (h : st ∈ settlements H opts a b) :
    ∃ dd, dd.id = st.1 ∧ settle H opts a b dd = some st.2 := by
  obtain ⟨dd, -, hst⟩ := mem_filterMap.1 h
  obtain ⟨out, hout, rfl⟩ := Option.map_eq_some_iff.1 hst
  exact ⟨dd, rfl, hout⟩

theorem settlements_ids (a b : Hash) : ((settlements H opts a b).map Prod.fst).Nodup := by
  refine pairwise_map.2 ?_
  refine Pairwise.filterMap _ ?_ ((pairwise_map.1 (divergedDocs_ids a b)).sublist filter_sublist)
  intro dd dd' hne st hst st' hst'
  obtain ⟨-, -, rfl⟩ := Option.map_eq_some_iff.1 hst
  obtain ⟨-, -, rfl⟩ := Option.map_eq_some_iff.1 hst'
  exact hne

theorem forks_ids (hforks : ForksApart opts) (a b : Hash) :
    (((settlements H opts a b).filterMap fun st => st.2.1.fork).map ForkDoc.id).Nodup := by
  refine pairwise_map.2 (pairwise_filterMap.2 ?_)
  refine Pairwise.imp_of_mem ?_ (pairwise_map.1 (settlements_ids a b))
  intro st st' hst hst' hne f hf f' hf'
  obtain ⟨dd, hid, hdd⟩ := mem_settlements hst
  obtain ⟨dd', hid', hdd'⟩ := mem_settlements hst'
  obtain ⟨run, name, src, pc, out, hrun, hout, hpc, hout_fork⟩ := settle_fork hdd hf
  obtain ⟨run', name', src', pc', out', hrun', hout', hpc', hout_fork'⟩ := settle_fork hdd' hf'
  rw [hrun] at hrun'
  cases hrun'
  exact hforks run hrun name src pc out name' src' pc' out' f f' hout hout' hout_fork hout_fork' (by grind)

/-- a fork is written under an id neither head's history holds, so under no id the sides differ on -/
theorem fork_id_ne {order : List ForkDoc → List ForkDoc} (hf : f ∈ writtenForks H opts order a b)
    (hdd : dd ∈ divergedDocs H a b) : dd.id ≠ f.id := by
  obtain ⟨d, -, hne, rfl⟩ := mem_divergedDocs.1 hdd
  have hfresh : (H.valueAt a f.id).writer = none ∧ (H.valueAt b f.id).writer = none := by
    simpa [forkWritten] using (mem_filter.1 hf).2
  intro (hid : d = f.id)
  exact hne (by rw [hid, History.body_of_writer_none hfresh.1, History.body_of_writer_none hfresh.2])

section Spec

variable {order : List ForkDoc → List ForkDoc} (horder : ∀ forks, (order forks).Perm forks) {a b : Hash}
  (hforks : (((settlements H opts a b).filterMap fun st => st.2.1.fork).map ForkDoc.id).Nodup)

include horder hforks

variable {docs : List DivergedDoc}

theorem writesOf_keys (hdocs : docs.Sublist (divergedDocs H a b)) :
    ((docs.map (fun dd => (dd.id, mergedBody H opts a b dd))
      ++ (writtenForks H opts order a b).map fun f => (f.id, some f.body)).map Prod.fst).Nodup := by
  rw [map_append, map_map, map_map]
  refine nodup_append.2 ⟨(divergedDocs_ids a b).sublist (hdocs.map _), ?_, ?_⟩
  · exact (((horder _).map _).nodup_iff.2 hforks).sublist (filter_sublist.map _)
  · intro x hx y hy
    obtain ⟨dd, hdd, rfl⟩ := mem_map.1 hx
    obtain ⟨f, hf, rfl⟩ := mem_map.1 hy
    exact fork_id_ne hf (hdocs.subset hdd)

theorem writesOf_get (hdocs : docs.Sublist (divergedDocs H a b)) {d : DocId} {v : Option Fields} :
    (writesOf H opts order a b docs)[d]? = some v ↔ (∃ dd ∈ docs, dd.id = d ∧ mergedBody H opts a b dd = v) ∨
      ∃ f ∈ writtenForks H opts order a b, f.id = d ∧ some f.body = v := by
  rw [writesOf, Writes.ofList_get (writesOf_keys horder hforks hdocs)]
  simp

/-- **One merge, either way.** The merge commit's operations on the local head's tree give what storage gives. -/
theorem merge_tree_get (hr : H.Replays) {lc : Commit} (hlc : H.commit a = some lc) (d : DocId) :
    (lc.tree.applyOps (storageWrites H opts order a b).ops)[d]? =
      ((commitWrites H opts order a b)[d]?).getD lc.tree[d]? := by
  rw [Writes.applyOps_get]
  have hsub : ((divergedDocs H a b).filter fun dd => mergedBody H opts a b dd ≠ dd.localBody).Sublist
    (divergedDocs H a b) := filter_sublist
  cases hs : (storageWrites H opts order a b)[d]? with
  | some v =>
    have hc : (commitWrites H opts order a b)[d]? = some v := by
      refine (writesOf_get horder hforks (Sublist.refl _)).2 ?_
      refine ((writesOf_get horder hforks hsub).1 hs).imp_left ?_
      rintro ⟨dd, hdd, hid, hv⟩
      exact ⟨dd, hsub.subset hdd, hid, hv⟩
    rw [hc]
  | none =>
    cases hc : (commitWrites H opts order a b)[d]? with
    | none => rfl
    | some v =>
      -- storage leaves out only what the local tree already holds
      rcases (writesOf_get horder hforks (Sublist.refl _)).1 hc with ⟨dd, hdd, hid, hv⟩ | hf
      · have hkeep : mergedBody H opts a b dd = dd.localBody := by
          by_contra hne
          have := (writesOf_get horder hforks hsub).2 (.inl ⟨dd, mem_filter.2 ⟨hdd, by simpa using hne⟩, hid, rfl⟩)
          exact absurd (hs.symm.trans this) (by simp)
        obtain ⟨e, -, -, rfl⟩ := mem_divergedDocs.1 hdd
        obtain rfl : e = d := hid
        rw [← hv, hkeep, History.tree_get hr hlc]
        rfl
      · have := (writesOf_get horder hforks hsub).2 (.inr hf)
        exact absurd (hs.symm.trans this) (by simp)

end Spec

end Kdb.Peersync
