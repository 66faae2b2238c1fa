/-
Two nodes merge the same two heads (`peersync/merge_resolution.go`, `resolveDivergedLocked`), each with its own head as
the local one.

- `merge_symmetric`: they reach one verdict: the same conflicts, the same commit, or none.
- `heads_already_joined`: the last case happens. Heads with the same content need no commit when one of them is
  already the canonical join.

The argument: the two nodes' views of a document are mirror images (`divergedDocs_swap`), and every rule reads the
sides in the order of the merge's parents (`canonicalSides_swap`). The policy's last write compares different origins,
since the bodies differ (`settle_swap`). The trees agree because the merge writes every document on which its parents
differ (`merge_tree_swap`).
-/
import Kdb.Peersync.Append
import Kdb.Peersync.Merge

namespace Kdb.Peersync

open History List

/-- held heads of a history, neither below the other, with a common ancestor -/
structure Diverged (H : History) (a b : Hash) : Prop where
  left : ∃ c, H.commit a = some c
  right : ∃ c, H.commit b = some c
  not_below : ¬ H.graph.Below a b
  not_above : ¬ H.graph.Below b a
  common : ∃ c, H.graph.Below c a ∧ H.graph.Below c b

theorem Diverged.symm {H : History} {a b : Hash} (h : Diverged H a b) : Diverged H b a :=
  ⟨h.right, h.left, h.not_above, h.not_below, h.common.imp fun _ hc => hc.symm⟩

theorem Diverged.ne {H : History} {a b : Hash} (h : Diverged H a b) : a ≠ b := by
  rintro rfl
  exact h.not_below .refl

/-- the same document seen from the other side -/
def DivergedDoc.swap (dd : DivergedDoc) : DivergedDoc :=
  ⟨dd.id, dd.remoteBody, dd.localBody, dd.remoteOrig, dd.localOrig, dd.remoteChanged, dd.localChanged⟩

/-- a head stands for a frontier: it is its one commit, or the canonical join of it -/
def standsFor (H : History) (h : Hash) (frontier : List Hash) : Bool :=
  frontier = [h] || (H.commit h).any fun c => namesExactly H c frontier

variable {H : History} {opts : Options} {a b : Hash}

/-! ## Documents from either side -/

theorem mergeCommitParents_comm (a b : Hash) : mergeCommitParents a b = mergeCommitParents b a := by
  unfold mergeCommitParents
  rcases lt_trichotomy a b with h | rfl | h
  · rw [if_pos h.le, if_neg h.not_ge]
  · rfl
  · rw [if_neg h.not_ge, if_pos h.le]

theorem first_parent_iff (hab : a ≠ b) : (mergeCommitParents a b).1 = b ↔ (mergeCommitParents a b).1 ≠ a := by
  unfold mergeCommitParents
  split_ifs
  · simp [hab]
  · simp [hab.symm]

theorem divergedDocs_swap : divergedDocs H b a = (divergedDocs H a b).map DivergedDoc.swap := by
  simp only [divergedDocs, candidates_comm b a, map_map, ne_comm (a := H.bodyAt b _)]
  rfl

theorem canonicalSides_swap (hab : a ≠ b) (dd : DivergedDoc) :
    canonicalSides H opts b a dd.swap = canonicalSides H opts a b dd := by
  unfold canonicalSides
  rw [mergeCommitParents_comm b a]
  by_cases h : (mergeCommitParents a b).1 = a
  · have hb : (mergeCommitParents a b).1 ≠ b := fun h' => (first_parent_iff hab).1 h' h
    simp only [if_pos h, if_neg hb]
    rfl
  · simp only [if_neg h, if_pos ((first_parent_iff hab).2 h)]
    rfl

theorem chainOutcome_swap (hab : a ≠ b) (dd : DivergedDoc) :
    chainOutcome H opts b a dd.swap = chainOutcome H opts a b dd := by
  unfold chainOutcome
  rw [canonicalSides_swap hab]
  rfl

/-- a document is settled alike from either side, the sides' writes being different ones -/
theorem settle_swap (hab : a ≠ b) {dd : DivergedDoc} (hne : dd.localOrig ≠ dd.remoteOrig) :
    settle H opts b a dd.swap = settle H opts a b dd := by
  unfold settle
  rw [chainOutcome_swap hab]
  have hlater : H.originLater dd.swap.localOrig dd.swap.remoteOrig = !H.originLater dd.localOrig dd.remoteOrig :=
    originLater_swap hne
  rw [hlater]
  cases H.originLater dd.localOrig dd.remoteOrig <;> rfl

theorem mergedBody_swap (hab : a ≠ b) {dd : DivergedDoc} (hne : dd.localOrig ≠ dd.remoteOrig) :
    mergedBody H opts b a dd.swap = mergedBody H opts a b dd := by
  unfold mergedBody
  rw [settle_swap hab hne]
  cases hl : dd.localChanged <;> cases hr : dd.remoteChanged <;> simp [DivergedDoc.swap, hl, hr]

theorem conflictingDocs_swap : (divergedDocs H b a).filter DivergedDoc.conflicting =
    ((divergedDocs H a b).filter DivergedDoc.conflicting).map DivergedDoc.swap := by
  rw [divergedDocs_swap, filter_map]
  congr 2
  funext dd
  exact Bool.beq_comm

section

variable (h : Diverged H a b)

include h

theorem origins_ne {dd : DivergedDoc} (hdd : dd ∈ divergedDocs H a b) : dd.localOrig ≠ dd.remoteOrig := by
  obtain ⟨d, -, hne, rfl⟩ := mem_divergedDocs.1 hdd
  obtain ⟨ca, ha⟩ := h.left
  obtain ⟨cb, hb⟩ := h.right
  exact origin_ne_of_body_ne ha hb hne

theorem settlements_swap : settlements H opts b a = settlements H opts a b := by
  unfold settlements
  rw [conflictingDocs_swap, filterMap_map]
  refine filterMap_congr ?_
  intro dd hdd
  change (settle H opts b a dd.swap).map (dd.id, ·) = _
  rw [settle_swap h.ne (origins_ne h (mem_filter.1 hdd).1)]

theorem undecided_swap : undecided H opts b a = (undecided H opts a b).map DivergedDoc.swap := by
  unfold undecided
  rw [conflictingDocs_swap, filter_map]
  congr 1
  refine filter_congr ?_
  intro dd hdd
  change (settle H opts b a dd.swap).isNone = _
  rw [settle_swap h.ne (origins_ne h (mem_filter.1 hdd).1)]

/-! ## The merge commit from either side -/

variable {orderA orderB : List ForkDoc → List ForkDoc} (hA : ∀ forks, (orderA forks).Perm forks)
  (hB : ∀ forks, (orderB forks).Perm forks) (hforks : ForksApart opts)

include hA hB hforks

omit hforks in
theorem writtenForks_swap : (writtenForks H opts orderB b a).Perm (writtenForks H opts orderA a b) := by
  unfold writtenForks
  rw [settlements_swap h]
  have hwritten : (fun f : ForkDoc => !forkWritten H b a f.id) = fun f => !forkWritten H a b f.id := by
    simp [forkWritten, Bool.and_comm]
  rw [hwritten]
  exact ((hB _).trans (hA _).symm).filter _

theorem commitWrites_swap : commitWrites H opts orderB b a = commitWrites H opts orderA a b := by
  refine Writes.ofList_perm (writesOf_keys hB (forks_ids hforks b a) (Sublist.refl _)) ?_
  refine Perm.append (.of_eq ?_) ((writtenForks_swap h hA hB).map _)
  rw [divergedDocs_swap, map_map]
  refine map_congr_left ?_
  intro dd hdd
  change (dd.id, mergedBody H opts b a dd.swap) = _
  rw [mergedBody_swap h.ne (origins_ne h hdd)]

omit hB in
/-- documents the merge does not write are the same on both sides -/
theorem body_eq_of_not_written (hw : H.WellFormed) {d : DocId}
    (hd : (commitWrites H opts orderA a b)[d]? = none) : H.bodyAt a d = H.bodyAt b d := by
  by_contra hne
  have hcand : d ∈ H.candidates a b := by
    by_contra hcand
    exact hne (body_eq_of_not_candidate hw.merges hw.nil h.common hcand)
  have hw := (writesOf_get hA (forks_ids hforks a b) (Sublist.refl _)).2
    (.inl ⟨divergedDoc H a b d, mem_divergedDocs.2 ⟨d, hcand, hne, rfl⟩, rfl, rfl⟩)
  exact absurd (hd.symm.trans hw) (by simp)

theorem merge_tree_swap (hw : H.WellFormed) {ca cb : Commit} (ha : H.commit a = some ca) (hb : H.commit b = some cb) :
    cb.tree.applyOps (storageWrites H opts orderB b a).ops =
      ca.tree.applyOps (storageWrites H opts orderA a b).ops := by
  refine Tree.ext_get ?_
  intro d
  rw [merge_tree_get hB (forks_ids hforks b a) hw.replays hb, merge_tree_get hA (forks_ids hforks a b) hw.replays ha,
    commitWrites_swap h hA hB hforks]
  cases hd : (commitWrites H opts orderA a b)[d]? with
  | some v => rfl
  | none =>
    rw [tree_get hw.replays ha, tree_get hw.replays hb, body_eq_of_not_written h hA hforks hw hd]

theorem mergeNonConflicting_swap (derived : List Hash → TxId) (hw : H.WellFormed)
    {ca cb : Commit} (ha : H.commit a = some ca) (hb : H.commit b = some cb) :
    mergeNonConflicting H opts derived orderB b a cb ca = mergeNonConflicting H opts derived orderA a b ca cb := by
  have hts : (if cb.timestamp < ca.timestamp then ca.timestamp else cb.timestamp) =
      if ca.timestamp < cb.timestamp then cb.timestamp else ca.timestamp := by
    split_ifs <;> omega
  have hschema : (if cb.schemaHash = ca.schemaHash then cb.schemaHash else none) =
      if ca.schemaHash = cb.schemaHash then ca.schemaHash else none := by
    by_cases hs : ca.schemaHash = cb.schemaHash
    · simp [hs]
    · simp [hs, Ne.symm hs]
  unfold mergeNonConflicting
  rw [mergeCommitParents_comm b a, hts, hschema, commitWrites_swap h hA hB hforks,
    merge_tree_swap h hA hB hforks hw ha hb, settlements_swap h]

/-- heads that differ in content: the same documents in conflict, or the same commit -/
theorem mergeDocuments_swap (derived : List Hash → TxId) (hw : H.WellFormed)
    {ca cb : Commit} (ha : H.commit a = some ca) (hb : H.commit b = some cb) :
    (∃ items items', mergeDocuments H opts derived orderA a b ca cb = .conflict items ∧
      mergeDocuments H opts derived orderB b a cb ca = .conflict items' ∧
      items'.map ConflictItem.docId = items.map ConflictItem.docId) ∨
    ∃ c, mergeDocuments H opts derived orderA a b ca cb = .merged c ∧
      mergeDocuments H opts derived orderB b a cb ca = .merged c := by
  unfold mergeDocuments
  rw [undecided_swap h, mergeNonConflicting_swap h hA hB hforks derived hw ha hb]
  by_cases hund : undecided H opts a b = []
  · exact .inr ⟨mergeNonConflicting H opts derived orderA a b ca cb, by simp [hund], by simp [hund]⟩
  · refine .inl ⟨_, _, if_pos hund, if_pos (by simpa using hund), ?_⟩
    simp only [map_map]
    rfl

end

/-! ## One verdict -/

theorem mem_of_namesExactly {c : Commit} {frontier : List Hash} (h : namesExactly H c frontier) {x : Hash}
    (hx : x ∈ frontier) : x ∈ c.parents := by
  have hsorted : c.parents.insertionSort (· ≤ ·) = frontier := by simp_all [namesExactly]
  rwa [← hsorted, mem_insertionSort] at hx

section Cases

variable {derived : List Hash → TxId} {lc ic : Commit}

theorem joinSameContent_none (h : joinSameContent H derived a b lc ic = none) :
    lc.tree ≠ ic.tree ∨ lc.schemaHash ≠ ic.schemaHash := by
  unfold joinSameContent at h
  split at h
  · assumption
  · dsimp only at h
    split_ifs at h

/-- where a join of heads with the same content leaves main -/
theorem joinSameContent_some {out : Outcome} (h : joinSameContent H derived a b lc ic = some out) :
    lc.tree = ic.tree ∧ lc.schemaHash = ic.schemaHash ∧
      (out = .noOp ∨ out = .adopted b ∨ out = .merged (joinCommit H derived lc (H.frontierOf a b))) := by
  simp only [joinSameContent] at h
  by_cases hdiff : lc.tree ≠ ic.tree ∨ lc.schemaHash ≠ ic.schemaHash
  · rw [if_pos hdiff] at h
    cases h
  · rw [not_or, not_not, not_not] at hdiff
    refine ⟨hdiff.1, hdiff.2, ?_⟩
    split_ifs at h
    all_goals
      cases h
      simp

/-- what a divergence ends with: the join of the frontier, or the merge of the heads, or the incoming head -/
theorem resolveDiverged_spec (H : History) (opts : Options) (derived : List Hash → TxId)
    (order : List ForkDoc → List ForkDoc) (a b : Hash) :
    match resolveDiverged H opts derived order a b with
    | .merged c => ∃ lc ic, H.commit a = some lc ∧ H.commit b = some ic ∧
      (lc.tree = ic.tree ∧ lc.schemaHash = ic.schemaHash ∧ c = joinCommit H derived lc (H.frontierOf a b) ∨
        (lc.tree ≠ ic.tree ∨ lc.schemaHash ≠ ic.schemaHash) ∧ c = mergeNonConflicting H opts derived order a b lc ic)
    | .adopted x => x = b
    | _ => True := by
  unfold resolveDiverged
  cases hlc : H.commit a with
  | none => trivial
  | some lc =>
    cases hic : H.commit b with
    | none => trivial
    | some ic =>
      dsimp only
      split_ifs
      · trivial
      cases hjoin : joinSameContent H derived a b lc ic with
      | some out =>
        obtain ⟨htree, hschema, rfl | rfl | rfl⟩ := joinSameContent_some hjoin
        · trivial
        · rfl
        · exact ⟨lc, ic, rfl, rfl, .inl ⟨htree, hschema, rfl⟩⟩
      | none =>
        dsimp only
        unfold mergeDocuments
        split_ifs
        · trivial
        · exact ⟨lc, ic, rfl, rfl, .inr ⟨joinSameContent_none hjoin, rfl⟩⟩

end Cases

/-- heads with the same content: the node whose head stands for the joint frontier stays, the other adopts that head,
and when neither does the join of the frontier is appended -/
theorem joinSameContent_eq (h : Diverged H a b) (derived : List Hash → TxId) {ca cb : Commit}
    (ha : H.commit a = some ca) (hb : H.commit b = some cb)
    (hsame : ca.tree = cb.tree ∧ ca.schemaHash = cb.schemaHash) : joinSameContent H derived a b ca cb = some
      (if standsFor H a (H.frontierOf a b) then .noOp else if standsFor H b (H.frontierOf a b) then .adopted b
      else .merged (joinCommit H derived ca (H.frontierOf a b))) := by
  -- the local head cannot be the canonical join of the incoming one: it would have it below
  have hexcl : H.frontierOf a b = [b] → ¬ namesExactly H ca (H.frontierOf a b) := by
    intro hfr hnames
    exact h.not_above (.parent (mem_parents ha (mem_of_namesExactly hnames (by simp [hfr]))))
  unfold joinSameContent standsFor
  rw [if_neg (by simp [hsame])]
  simp only [ha, hb, Option.any_some, Bool.or_eq_true, decide_eq_true_eq]
  by_cases hfa : H.frontierOf a b = [a]
  · simp [hfa]
  · by_cases hfb : H.frontierOf a b = [b]
    · have hno : ¬ namesExactly H ca [b] := hfb ▸ hexcl hfb
      simp [hfb, hno, h.ne.symm]
    · simp only [hfa, hfb, if_false, false_or]
      split_ifs <;> rfl

theorem resolveDiverged_eq (h : Diverged H a b) (derived : List Hash → TxId) (order : List ForkDoc → List ForkDoc)
    {ca cb : Commit} (ha : H.commit a = some ca) (hb : H.commit b = some cb) :
    resolveDiverged H opts derived order a b =
      (joinSameContent H derived a b ca cb).getD (mergeDocuments H opts derived order a b ca cb) := by
  have hsome := commonAncestor_isSome h.common
  have hnone : (H.commonAncestor a b).isNone = false := by
    rwa [Option.isNone_eq_false_iff]
  simp only [resolveDiverged, ha, hb, hnone]
  cases joinSameContent H derived a b ca cb <;> rfl

/-- **One verdict.** Two nodes with the same history merge the same diverged heads, each with its own as the local one.
Both report the same documents in conflict, or both append the same commit, or neither appends: a node whose head
already stands for the joint frontier stays, and otherwise it adopts the other head, which does. -/
theorem merge_symmetric (hw : H.WellFormed) (h : Diverged H a b)
    (hforks : ForksApart opts) (derived : List Hash → TxId) {orderA orderB : List ForkDoc → List ForkDoc}
    (hA : ∀ forks, (orderA forks).Perm forks) (hB : ∀ forks, (orderB forks).Perm forks) :
    (∃ items items', resolveDiverged H opts derived orderA a b = .conflict items ∧
      resolveDiverged H opts derived orderB b a = .conflict items' ∧
      items'.map ConflictItem.docId = items.map ConflictItem.docId) ∨
    (∃ c, resolveDiverged H opts derived orderA a b = .merged c ∧
      resolveDiverged H opts derived orderB b a = .merged c) ∨
    ((standsFor H a (H.frontierOf a b) ∨ standsFor H b (H.frontierOf a b)) ∧
      resolveDiverged H opts derived orderA a b =
        (if standsFor H a (H.frontierOf a b) then .noOp else .adopted b) ∧
      resolveDiverged H opts derived orderB b a =
        (if standsFor H b (H.frontierOf a b) then .noOp else .adopted a)) := by
  obtain ⟨ca, ha⟩ := h.left
  obtain ⟨cb, hb⟩ := h.right
  rw [resolveDiverged_eq h derived orderA ha hb, resolveDiverged_eq h.symm derived orderB hb ha]
  by_cases hsame : ca.tree = cb.tree ∧ ca.schemaHash = cb.schemaHash
  · have hsame' : cb.tree = ca.tree ∧ cb.schemaHash = ca.schemaHash := ⟨hsame.1.symm, hsame.2.symm⟩
    have hjoin : joinCommit H derived cb (H.frontierOf a b) = joinCommit H derived ca (H.frontierOf a b) := by
      simp [joinCommit, hsame]
    rw [joinSameContent_eq h derived ha hb hsame, joinSameContent_eq h.symm derived hb ha hsame',
      frontierOf_comm b a, hjoin]
    by_cases hsa : standsFor H a (H.frontierOf a b)
    · exact .inr (.inr ⟨.inl hsa, by simp [hsa], by simp [hsa]⟩)
    · by_cases hsb : standsFor H b (H.frontierOf a b)
      · exact .inr (.inr ⟨.inr hsb, by simp [hsb], by simp [hsb]⟩)
      · exact .inr (.inl ⟨joinCommit H derived ca (H.frontierOf a b), by simp [hsa, hsb], by simp [hsa, hsb]⟩)
  · have hnone : joinSameContent H derived a b ca cb = none := if_pos (not_and_or.1 hsame)
    have hnone' : joinSameContent H derived b a cb ca = none :=
      if_pos (not_and_or.1 fun h' => hsame ⟨h'.1.symm, h'.2.symm⟩)
    rw [hnone, hnone']
    exact (mergeDocuments_swap h hA hB hforks derived hw ha hb).imp_right .inl

/-- a root commit over the empty tree -/
def rootCommit : Commit := ⟨[], 0, 0, 1, [], ∅, none, "genesis"⟩

def writeCommit (tx : TxId) (timestamp : ℕ) (value : String) : Commit where
  parents := [1]
  transactionId := tx
  timestamp := timestamp
  author := 1
  operations := [.write 5 (.obj [("value", .str value)]) false]
  tree := .ofList [(5, [("value", .str value)])] compare
  schemaHash := none
  message := ""

def twoWriters : History := ((History.empty.append 1 rootCommit).append 2 (writeCommit 2 10 "a")).append 3
  (writeCommit 3 20 "b")

theorem twoWriters_wellFormed : twoWriters.WellFormed :=
  ((WellFormed.empty.append (.of_single (by decide) (by decide +kernel) (by decide +kernel))).append
    (.of_single (by decide) (by decide +kernel) (by decide +kernel))).append
      (.of_single (by decide) (by decide +kernel) (by decide +kernel))

theorem twoWriters_diverged : Diverged twoWriters 2 3 where
  left := ⟨writeCommit 2 10 "a", by decide +kernel⟩
  right := ⟨writeCommit 3 20 "b", by decide +kernel⟩
  not_below := by decide +kernel
  not_above := by decide +kernel
  common := ⟨1, by decide +kernel, by decide +kernel⟩

/-- last write decides, and there are no rules -/
def lastWriteOptions : Options := ⟨.lastWrite, none, none, none, none⟩

theorem lastWriteOptions_forksApart : ForksApart lastWriteOptions := by
  intro run hrun
  cases hrun

/-- Both nodes settle two concurrent writes of a document in the same commit. -/
theorem merge_symmetric_twoWriters :
    (∃ items items', resolveDiverged twoWriters lastWriteOptions List.sum id 2 3 = .conflict items ∧
      resolveDiverged twoWriters lastWriteOptions List.sum List.reverse 3 2 = .conflict items' ∧
      items'.map ConflictItem.docId = items.map ConflictItem.docId) ∨
    (∃ c, resolveDiverged twoWriters lastWriteOptions List.sum id 2 3 = .merged c ∧
      resolveDiverged twoWriters lastWriteOptions List.sum List.reverse 3 2 = .merged c) ∨
    ((standsFor twoWriters 2 (twoWriters.frontierOf 2 3) ∨ standsFor twoWriters 3 (twoWriters.frontierOf 2 3)) ∧
      resolveDiverged twoWriters lastWriteOptions List.sum id 2 3 =
        (if standsFor twoWriters 2 (twoWriters.frontierOf 2 3) then .noOp else .adopted 3) ∧
      resolveDiverged twoWriters lastWriteOptions List.sum List.reverse 3 2 =
        (if standsFor twoWriters 3 (twoWriters.frontierOf 2 3) then .noOp else .adopted 2)) :=
  merge_symmetric twoWriters_wellFormed twoWriters_diverged lastWriteOptions_forksApart List.sum Perm.refl
    reverse_perm

/-- a merge that carries nothing over three writers of the same document, all of whom wrote the same -/
def joinOf (parents : List Hash) : Commit where
  parents := parents
  transactionId := parents.sum
  timestamp := 11
  author := mergeAuthorNodeId
  operations := []
  tree := .ofList [(5, [("value", .str "a")])] compare
  schemaHash := none
  message := mergeMessage

/-- three writers of the same value; commit 5 joins two of them, commit 6 all three -/
def joinedWriters : History := (((((History.empty.append 1 rootCommit).append 2 (writeCommit 2 10 "a")).append 3
  (writeCommit 3 10 "a")).append 4 (writeCommit 4 10 "a")).append 5 (joinOf [2, 3])).append 6 (joinOf [2, 3, 4])

theorem joinedWriters_wellFormed : joinedWriters.WellFormed := by
  have h₁ := WellFormed.empty.append (h := 1) (c := rootCommit)
    (.of_single (by decide) (by decide +kernel) (by decide +kernel))
  have h₂ := h₁.append (h := 2) (c := writeCommit 2 10 "a")
    (.of_single (by decide) (by decide +kernel) (by decide +kernel))
  have h₃ := h₂.append (h := 3) (c := writeCommit 3 10 "a")
    (.of_single (by decide) (by decide +kernel) (by decide +kernel))
  have h₄ := h₃.append (h := 4) (c := writeCommit 4 10 "a")
    (.of_single (by decide) (by decide +kernel) (by decide +kernel))
  have h₅ := h₄.append (h := 5) (c := joinOf [2, 3])
    (.of_same_trees h₄ (by decide +kernel) (by decide +kernel) (t := (joinOf []).tree) (by decide +kernel))
  exact h₅.append (h := 6) (c := joinOf [2, 3, 4])
    (.of_same_trees h₅ (by decide +kernel) (by decide +kernel) (t := (joinOf []).tree) (by decide +kernel))

/-- **Heads already joined.** Commits 6 and 5 have diverged and hold the same documents. The node on 6 stays, since 6 is
the canonical join; the node on 5 moves to 6. No conflict is reported and neither node appends a commit. -/
theorem heads_already_joined :
    joinedWriters.WellFormed ∧ Diverged joinedWriters 6 5 ∧ ForksApart lastWriteOptions ∧
    resolveDiverged joinedWriters lastWriteOptions List.sum id 6 5 = .noOp ∧
    resolveDiverged joinedWriters lastWriteOptions List.sum id 5 6 = .adopted 6 := by
  refine ⟨joinedWriters_wellFormed, ⟨?_, ?_, ?_, ?_, ?_⟩, lastWriteOptions_forksApart, ?_, ?_⟩
  · exact ⟨joinOf [2, 3, 4], by decide +kernel⟩
  · exact ⟨joinOf [2, 3], by decide +kernel⟩
  · decide +kernel
  · decide +kernel
  · exact ⟨2, by decide +kernel, by decide +kernel⟩
  · decide +kernel
  · decide +kernel

end Kdb.Peersync
