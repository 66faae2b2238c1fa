/-
Whole histories under one set of merge options (`peersync/merge_resolution.go`, `dag/in_memory_commit_dag.go`): commits
on at most one parent and merges of any two heads, in any order.

- `Event`, `stepUnder`: what happens to a history, and the history after it.
- `stepUnder_cases`: an event changes nothing or appends one commit, an ordinary one, a join or a merge (`Appended`).
- `Appended.fits`: that commit fits the history, so every run keeps it well formed. `Appended.later`: it is stamped past
  its parents.

The options must settle every document and fork none (`Settles`): the policy of the last write does, and so does a chain
that ends in the last write and runs no procedure.
-/
import Kdb.Lib.Machine
import Kdb.Peersync.Symmetry

namespace Kdb.Peersync

open History List Option

variable {H : History} {x : Hash} {d : DocId}

/-! ## Histories in causal order -/

/-- every commit is later than its parents -/
def Causal (H : History) : Prop :=
  ∀ x c, H.commit x = some c → ∀ p ∈ c.parents, ∀ cp, H.commit p = some cp → cp.timestamp < c.timestamp

theorem Causal.le_of_below (hc : Causal H) {y : Hash} (hb : H.graph.Below y x) {cx cy : Commit}
    (hx : H.commit x = some cx) (hy : H.commit y = some cy) : cy.timestamp ≤ cx.timestamp := by
  induction hb generalizing cx with
  | refl => rw [Option.some.inj (hx.symm.trans hy)]
  | step hp hb ih =>
    rename_i x p
    have hp' : p ∈ H.parents x := hp
    rw [parents_of_commit hx] at hp'
    obtain ⟨cp, hcp⟩ := H.parents_held x cx hx p hp'
    exact (ih hcp).trans (hc x cx hx p hp' cp hcp).le

theorem Causal.append (hcausal : Causal H) {h : Hash} {c : Commit}
    (hts : ∀ p ∈ c.parents, ∀ cp, H.commit p = some cp → cp.timestamp < c.timestamp) : Causal (H.append h c) := by
  intro x cx hx p hp cp hcp
  obtain hx | ⟨hf, rfl, rfl⟩ := commit_append_cases hx
  · obtain ⟨cp', hcp'⟩ := H.parents_held x cx hx p hp
    cases hcp.symm.trans (commit_append hcp')
    exact hcausal x cx hx p hp cp hcp'
  · obtain ⟨cp', hcp'⟩ := isSome_iff_exists.1 (hf.2 p hp)
    cases hcp.symm.trans (commit_append hcp')
    exact hts p hp cp hcp'

theorem lt_causalTimestamp (H : History) (ts : ℕ) {parents : List Hash} {p : Hash} {cp : Commit} (hp : p ∈ parents)
    (hcp : H.commit p = some cp) : cp.timestamp < causalTimestamp H ts parents := by
  have hmono : ∀ (ps : List Hash) (ts : ℕ), ts ≤ causalTimestamp H ts ps := by
    intro ps
    induction ps with
    | nil => exact fun ts => le_rfl
    | cons q qs ih =>
      intro ts
      refine le_trans ?_ (ih _)
      dsimp only
      split
      · split_ifs <;> omega
      · exact le_rfl
  induction parents generalizing ts with
  | nil => cases hp
  | cons q qs ih =>
    rcases mem_cons.1 hp with rfl | hp
    · refine lt_of_lt_of_le ?_ (hmono qs _)
      simp only [hcp]
      split_ifs <;> omega
    · exact ih _ hp

/-! ## Events -/

/-- a transaction to commit on at most one parent -/
structure WriteTx where
  parent : Option Hash
  transactionId : TxId
  timestamp : ℕ
  author : NodeId
  operations : List Op
  schemaHash : Option ℕ
  message : String

/-- its commit, stamped past its parent -/
def WriteTx.commit (H : History) (w : WriteTx) : Commit where
  parents := w.parent.toList
  transactionId := w.transactionId
  timestamp := causalTimestamp H w.timestamp w.parent.toList
  author := w.author
  operations := w.operations
  tree := (((w.parent.bind H.commit).map Commit.tree).getD ∅).applyOps w.operations
  schemaHash := w.schemaHash
  message := w.message

/-- what happens to a history -/
inductive Event where
  | write (w : WriteTx)
  | merge (localHead incomingHead : Hash)

/-- the commit a merge of two heads appends, if any (`resolveDivergenceLocked`): none when one head is below the other -/
def mergeHeadsUnder (opts : Options) (derived : List Hash → TxId) (H : History) (a b : Hash) : Option Commit :=
  if H.graph.Below a b ∨ H.graph.Below b a then none
  else match resolveDiverged H opts derived id a b with
    | .merged c => some c
    | _ => none

/-- one event; `hash` is the content hash of a commit -/
def stepUnder (opts : Options) (hash : Commit → Hash) (derived : List Hash → TxId) (H : History) : Event → History
  | .write w => H.append (hash (w.commit H)) (w.commit H)
  | .merge a b =>
    match mergeHeadsUnder opts derived H a b with
    | some c => H.append (hash c) c
    | none => H

/-- the parents a merge of two heads has: the joint frontier of heads with the same content, else the heads -/
def mergeParents (H : History) (a b : Hash) : List Hash :=
  match H.commit a, H.commit b with
  | some ca, some cb =>
    if ca.tree = cb.tree ∧ ca.schemaHash = cb.schemaHash then H.frontierOf a b
    else [(mergeCommitParents a b).1, (mergeCommitParents a b).2]
  | _, _ => []

theorem mergeCommitParents_cases (a b : Hash) : mergeCommitParents a b = (a, b) ∨ mergeCommitParents a b = (b, a) := by
  unfold mergeCommitParents
  split_ifs
  · exact .inl rfl
  · exact .inr rfl

theorem mem_mergeCommitParents {a b q : Hash} :
    q ∈ [(mergeCommitParents a b).1, (mergeCommitParents a b).2] ↔ q = a ∨ q = b := by
  rcases mergeCommitParents_cases a b with hp | hp <;> simp [hp, or_comm]

/-- heads that agree on a document agree with every parent of their merge -/
theorem bodyAt_mergeCommitParents {a b q : Hash} (heq : H.bodyAt a d = H.bodyAt b d)
    (hq : q ∈ [(mergeCommitParents a b).1, (mergeCommitParents a b).2]) : H.bodyAt q d = H.bodyAt a d := by
  rcases mem_mergeCommitParents.1 hq with rfl | rfl
  · rfl
  · exact heq.symm

/-! ## What an event appends -/

/-- the options settle every document the sides hold differently, and write no forks -/
def Settles (H : History) (opts : Options) : Prop :=
  ∀ a b dd, ∃ st, settle H opts a b dd = some st ∧ st.1.fork = none

inductive Appended (opts : Options) (derived : List Hash → TxId) (H : History) : Event → Commit → Prop where
  | write (w : WriteTx) : Appended opts derived H (.write w) (w.commit H)
  | join {a b : Hash} {ca cb : Commit} (ha : H.commit a = some ca) (hb : H.commit b = some cb)
      (hsame : cb.tree = ca.tree) (hps : mergeParents H a b = H.frontierOf a b) :
      Appended opts derived H (.merge a b) (joinCommit H derived ca (H.frontierOf a b))
  | merge {a b : Hash} {ca cb : Commit} (ha : H.commit a = some ca) (hb : H.commit b = some cb)
      (hps : mergeParents H a b = [(mergeCommitParents a b).1, (mergeCommitParents a b).2]) :
      Appended opts derived H (.merge a b) (mergeNonConflicting H opts derived id a b ca cb)

variable {opts : Options} {derived : List Hash → TxId} {a b : Hash} {ca cb c : Commit}

theorem Settles.forks_nil (hs : Settles H opts) (a b : Hash) :
    ((settlements H opts a b).filterMap fun st => st.2.1.fork) = [] := by
  refine filterMap_eq_nil_iff.2 fun st hst => ?_
  obtain ⟨dd, -, hdd⟩ := mem_settlements hst
  obtain ⟨st', hst', hfork⟩ := hs a b dd
  rw [hdd] at hst'
  rw [Option.some.inj hst', hfork]

theorem mergeHeadsUnder_cases (hc : mergeHeadsUnder opts derived H a b = some c) :
    Appended opts derived H (.merge a b) c := by
  unfold mergeHeadsUnder at hc
  split_ifs at hc
  have hres := resolveDiverged_spec H opts derived id a b
  split at hc
  · rename_i heq
    cases hc
    rw [heq] at hres
    obtain ⟨ca, cb, ha, hb, ⟨htree, hschema, rfl⟩ | ⟨hdiff, rfl⟩⟩ := hres
    · exact .join ha hb htree.symm (by simp [mergeParents, ha, hb, htree, hschema])
    · exact .merge ha hb (by simp [mergeParents, ha, hb, not_and_or.2 hdiff])
  · cases hc

/-- **One event.** -/
theorem stepUnder_cases (hash : Commit → Hash) (derived : List Hash → TxId) (e : Event) :
    stepUnder opts hash derived H e = H ∨
      ∃ c, Appended opts derived H e c ∧ stepUnder opts hash derived H e = H.append (hash c) c := by
  cases e with
  | write w => exact .inr ⟨_, .write w, rfl⟩
  | merge a b =>
    cases hc : mergeHeadsUnder opts derived H a b with
    | none => exact .inl (by simp only [stepUnder, hc])
    | some c => exact .inr ⟨c, mergeHeadsUnder_cases hc, by simp only [stepUnder, hc]⟩

/-- heads agree on every document but the candidates, related or not -/
theorem body_eq_off_candidates (hw : H.WellFormed) (ha : H.commit a = some ca) (hb : H.commit b = some cb)
    (h : d ∉ H.candidates a b) : H.bodyAt a d = H.bodyAt b d := by
  by_cases hcommon : ∃ c, H.graph.Below c a ∧ H.graph.Below c b
  · exact body_eq_of_not_candidate hw.merges hw.nil hcommon h
  · -- without a common ancestor everything either side has is its own, so neither ever wrote the document
    have hunwritten : ∀ y z cz, H.commit z = some cz → (∀ x, H.graph.Below x z → ¬ H.graph.Below x y) →
        (d ≠ 0 → ∀ x cx, H.graph.Below x z → ¬ H.graph.Below x y → H.commit x = some cx →
          Ops.after d cx.operations = none) → H.bodyAt z d = none := by
      intro y z cz hz hapart hops
      refine body_of_writer_none ?_
      by_contra hsome
      obtain ⟨w, hwr⟩ := ne_none_iff_exists'.1 hsome
      obtain ⟨hbw, cw, hcw, hafter⟩ := writer_some hz hwr
      by_cases hd : d = 0
      · subst hd
        rw [hw.nil w cw hcw] at hafter
        cases hafter
      · rw [hops hd w cw hbw (hapart w hbw) hcw] at hafter
        cases hafter
    have hna : H.bodyAt a d = none := hunwritten b a ca ha (fun x hxa hxb => hcommon ⟨x, hxa, hxb⟩)
      fun hd x cx hxa hxb hx => after_of_not_candidate hd h (.inl ⟨hxa, hxb⟩) hx
    have hnb : H.bodyAt b d = none := hunwritten a b cb hb (fun x hxb hxa => hcommon ⟨x, hxa, hxb⟩)
      fun hd x cx hxb hxa hx => after_of_not_candidate hd h (.inr ⟨hxb, hxa⟩) hx
    rw [hna, hnb]

/-- a merge records every document its parents hold differently, with its merged value -/
theorem commitWrites_get (hs : Settles H opts) (hw : H.WellFormed) (ha : H.commit a = some ca)
    (hb : H.commit b = some cb) (d : DocId) :
    (commitWrites H opts id a b)[d]? = if H.bodyAt a d = H.bodyAt b d then none
      else some (mergedBody H opts a b (divergedDoc H a b d)) := by
  have hnil := hs.forks_nil a b
  have hforks : writtenForks H opts id a b = [] := by simp [writtenForks, hnil]
  have hget := @writesOf_get H opts id Perm.refl a b (by simp [hnil]) _ (Sublist.refl _) d
  by_cases heq : H.bodyAt a d = H.bodyAt b d
  · rw [if_pos heq]
    refine eq_none_iff_forall_ne_some.2 ?_
    intro v hv
    obtain ⟨dd, hdd, hid, -⟩ | ⟨f, hf, -⟩ := hget.1 hv
    · obtain ⟨e, -, hne, rfl⟩ := mem_divergedDocs.1 hdd
      exact hne ((show e = d from hid) ▸ heq)
    · simp [hforks] at hf
  · rw [if_neg heq]
    refine hget.2 (.inl ⟨divergedDoc H a b d, mem_divergedDocs.2 ⟨d, ?_, heq, rfl⟩, rfl, rfl⟩)
    by_contra hcand
    exact heq (body_eq_off_candidates hw ha hb hcand)

theorem merge_fits (hs : Settles H opts) (hw : H.WellFormed) (ha : H.commit a = some ca) (hb : H.commit b = some cb)
    (derived : List Hash → TxId) : H.Fits (mergeNonConflicting H opts derived id a b ca cb) := by
  have hget := commitWrites_get hs hw ha hb
  have hnil := hs.forks_nil a b
  have horder : ∀ forks : List ForkDoc, (id forks).Perm forks := Perm.refl
  refine ⟨?_, ?_, ?_⟩
  · refine Tree.ext_get ?_
    intro d
    rw [mergeNonConflicting_tree, mergeNonConflicting_operations,
      merge_tree_get horder (by simp [hnil]) hw.replays ha, Writes.applyOps_get, hget]
    split_ifs with heq <;> try rfl
    -- an unwritten document is the same at the heads, so at the first parent
    have htrees : ca.tree[d]? = cb.tree[d]? := by
      rw [tree_get hw.replays ha, tree_get hw.replays hb, heq]
    rcases mergeCommitParents_cases a b with hp | hp
    · simp [baseTree, hp, ha]
    · simp [baseTree, hp, hb, htrees]
  · intro _ p hp q hq d hne
    rw [mergeNonConflicting_parents, mem_mergeCommitParents] at hp hq
    have hab : ¬ H.bodyAt a d = H.bodyAt b d := by
      intro heq
      refine hne ?_
      rcases hp with rfl | rfl <;> rcases hq with rfl | rfl <;> simp [heq]
    rw [mergeNonConflicting_operations, Writes.after_ops, hget, if_neg hab]
    rfl
  · rw [mergeNonConflicting_operations, Writes.after_ops, hget, if_pos]
    exact body_eq_off_candidates hw ha hb (nil_not_candidate a b)

/-- the parents of a join hold the same documents -/
theorem join_bodies (hw : H.WellFormed) (ha : H.commit a = some ca) (hb : H.commit b = some cb)
    (hsame : cb.tree = ca.tree) {p q : Hash} (hp : p ∈ H.frontierOf a b) (hq : q ∈ H.frontierOf a b) (d : DocId) :
    H.bodyAt p d = H.bodyAt q d := by
  obtain ⟨-, htrees⟩ := frontierOf_spec ha hb hsame
  obtain ⟨cp, hcp, htp⟩ := map_eq_some_iff.1 (htrees p hp)
  obtain ⟨cq, hcq, htq⟩ := map_eq_some_iff.1 (htrees q hq)
  rw [← tree_get hw.replays hcp, ← tree_get hw.replays hcq, htp, htq]

/-- **The new commit fits.** -/
theorem Appended.fits {e : Event} (h : Appended opts derived H e c) (hs : Settles H opts) (hw : H.WellFormed)
    (hnil : ∀ w, e = .write w → Ops.after 0 w.operations = none) : H.Fits c := by
  cases h with
  | write w =>
    refine .of_single ?_ ?_ (hnil w rfl)
    · cases hp : w.parent <;> simp [WriteTx.commit]
    · cases hp : w.parent <;> simp [WriteTx.commit, baseTree]
  | join ha hb hsame hps =>
    obtain ⟨hne, htrees⟩ := frontierOf_spec ha hb hsame
    obtain ⟨p, ps, hfront⟩ := exists_cons_of_ne_nil hne
    obtain ⟨cp, hcp, htp⟩ := map_eq_some_iff.1 (htrees p (by simp [hfront]))
    refine .of_same_trees hw ?_ rfl htrees
    simp [joinCommit, baseTree, hfront, hcp, htp, Tree.applyOps]
  | merge ha hb hps => exact merge_fits hs hw ha hb derived

theorem Appended.later {e : Event} (h : Appended opts derived H e c) :
    ∀ p ∈ c.parents, ∀ cp, H.commit p = some cp → cp.timestamp < c.timestamp := by
  cases h with
  | write w => exact fun p hp cp hcp => lt_causalTimestamp H _ hp hcp
  | join ha hb hsame hps => exact fun p hp cp hcp => lt_causalTimestamp H _ hp hcp
  | merge ha hb hps =>
    intro p hp cp hcp
    exact lt_causalTimestamp H _ hp hcp

end Kdb.Peersync
