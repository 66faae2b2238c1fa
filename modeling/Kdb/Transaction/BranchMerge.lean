/-
`Engine.Merge` of a branch that is a line (`transaction/default_engine.go` Merge and branchDocuments.rebase): what the
merged tree holds, document by document and field by field.

The branch leaves the primary's history at commit `c` and each of its commits has the one before it as its only parent.
Merge replays its commits one by one, each write as the change it made to the branch's own document.
- `rebaseOps_carries`: one commit's rebased operations leave a document as `Carry.replay` says.
- `mergeSteps_carries`: so does the replay of the whole branch.
- `merge_carries_branch_changes`: a field of the merged document is the branch's where some write of the branch took it
  off `c`'s value, the primary's elsewhere.
- `merge_is_not_three_way`: so a merge is not a three-way merge of the two heads' trees.
-/
import Kdb.Lib.Carry
import Kdb.Dag.Walks
import Kdb.Transaction.Trees

namespace Kdb

open Machine Carry List Option

/-! ## Documents by their fields -/

/-- a document by its fields -/
def view (doc : Option Fields) : Record String Json := doc.map Fields.get

/-- a write of a JSON object -/
def Op.IsObject : Op → Prop
  | .write _ patch _ => patch.rootObject.isSome
  | _ => True

instance (op : Op) : Decidable op.IsObject := by
  cases op <;> unfold Op.IsObject <;> infer_instance

/-- what a recorded operation does to document `d`, if anything -/
def edit (d : DocId) : Op → Option (Edit String Json)
  | .write e patch _ => if e = d then patch.rootObject.map fun f => .put f.get else none
  | .delete e => if e = d then some .drop else none
  | .schemaMigration _ _ => none

/-- what recorded operations do to document `d` -/
def edits (d : DocId) (ops : List Op) : List (Edit String Json) := ops.filterMap (edit d)

/-- the bodies written to document `d` -/
def writesTo (d : DocId) (ops : List Op) : List Fields :=
  ops.filterMap fun
    | .write e patch _ => if e = d then patch.rootObject else none
    | _ => none

theorem view_rebasedOnto (after : Fields) (before onto : Option Fields) :
    view (some (after.rebasedOnto before onto)) = (Edit.put after.get).carry (view before) (view onto) := by
  have hfield : ∀ (doc : Option Fields) (k : String), field (view doc) k = (doc.getD []).get k := by
    intro doc k
    cases doc <;> rfl
  refine congrArg some (funext fun k => ?_)
  rw [Fields.get_rebasedOnto, hfield, hfield]

variable {d : DocId} {op : Op} {x : Edit String Json} {bs : List Hash} {c : Hash} {cc : Commit}

theorem edits_cons_none (h : edit d op = none) (ops : List Op) :
    edits d (op :: ops) = edits d ops := filterMap_cons_none h

theorem edits_cons_some (h : edit d op = some x) (ops : List Op) :
    edits d (op :: ops) = x :: edits d ops := filterMap_cons_some h

theorem edits_append (d : DocId) (ops ops' : List Op) : edits d (ops ++ ops') = edits d ops ++ edits d ops' :=
  filterMap_append

theorem edit_none (h : edit d op = none) : op.after d = none := by
  cases op with
  | write e patch r => by_cases he : e = d <;> simp_all [edit, Op.after]
  | delete e => by_cases he : e = d <;> simp_all [edit, Op.after]
  | schemaMigration m payload => rfl

theorem edit_eq_some : edit d op = some x ↔
    (∃ patch r f, op = .write d patch r ∧ patch.rootObject = some f ∧ .put f.get = x) ∨ op = .delete d ∧ .drop = x := by
  cases op with
  | write e patch r => by_cases he : e = d <;> simp [edit]
  | delete e => by_cases he : e = d <;> simp [edit]
  | schemaMigration m payload => simp [edit]

theorem edit_some (h : edit d op = some x) : ∃ doc, op.after d = some doc ∧ x.result = view doc := by
  obtain ⟨patch, r, f, rfl, hf, rfl⟩ | ⟨rfl, rfl⟩ := edit_eq_some.1 h
  · exact ⟨some f, by simp [Op.after, hf], rfl⟩
  · exact ⟨none, by simp [Op.after], rfl⟩

theorem after_cons (d : DocId) (op : Op) (ops : List Op) (doc : Option Fields) :
    (Ops.after d (op :: ops)).getD doc = (Ops.after d ops).getD ((op.after d).getD doc) := by
  cases h : Ops.after d ops <;> simp [Ops.after, h]

/-- the branch's own document follows its recorded operations -/
theorem view_after (d : DocId) (ops : List Op) (doc : Option Fields) (copy : Record String Json) :
    (replay (view doc) copy (edits d ops)).1 = view ((Ops.after d ops).getD doc) := by
  induction ops generalizing doc copy with
  | nil => rfl
  | cons op ops ih =>
    cases he : edit d op with
    | none =>
      rw [after_cons, edits_cons_none he, edit_none he]
      exact ih doc copy
    | some x =>
      obtain ⟨doc', hdoc, hx⟩ := edit_some he
      rw [after_cons, edits_cons_some he, hdoc, replay, hx]
      exact ih doc' _

/-! ## One commit -/

/-- **One operation rebased.** The branch's documents take it, and the rebased operation leaves each document of the
primary with the change carried over. -/
theorem rebaseOps_cons (ancestorTree primaryTree : Tree) (hop : op.IsObject) (docs primary : Pending) :
    ∃ docs' primary' op', op'.IsObject ∧ (∀ ops, rebaseOps ancestorTree primaryTree docs primary (op :: ops) =
        ((rebaseOps ancestorTree primaryTree docs' primary' ops).1,
          op' :: (rebaseOps ancestorTree primaryTree docs' primary' ops).2)) ∧
      ∀ d, docs'.current ancestorTree d = (op.after d).getD (docs.current ancestorTree d) ∧
        (∀ ops, foldDoc d (primary.current primaryTree d) (op' :: ops) = foldDoc d (primary'.current primaryTree d) ops) ∧
        view (primary'.current primaryTree d) = (edit d op).elim (view (primary.current primaryTree d))
          (Edit.carry (view (docs.current ancestorTree d)) (view (primary.current primaryTree d))) := by
  cases op with
  | write e patch r =>
    obtain ⟨after, hp⟩ := isSome_iff_exists.1 hop
    refine ⟨_, _, .write e (.obj (after.rebasedOnto (docs.current ancestorTree e) (primary.current primaryTree e))) true,
      rfl, fun ops => by simp only [rebaseOps, hp]; rfl, fun d => ?_⟩
    rw [Pending.current_update, Pending.current_update]
    by_cases he : d = e
    · subst he
      rw [if_pos rfl, if_pos rfl, view_rebasedOnto]
      refine ⟨by simp [Op.after, hp], fun ops => ?_, by simp [edit, hp]⟩
      cases primary.current primaryTree d <;> simp [foldDoc, candidate, Json.rootObject]
    · simp [Op.after, edit, foldDoc, he, Ne.symm he]
  | delete e =>
    refine ⟨_, _, .delete e, trivial, fun _ => rfl, fun d => ?_⟩
    rw [Pending.current_update, Pending.current_update]
    by_cases he : d = e
    · subst he
      simp [Op.after, edit, foldDoc, view, Edit.carry]
    · simp [Op.after, edit, foldDoc, he, Ne.symm he]
  | schemaMigration m payload =>
    exact ⟨docs, primary, .schemaMigration m payload, trivial, fun _ => rfl, fun _ => ⟨rfl, fun _ => rfl, rfl⟩⟩

/-- **One commit rebased.** The branch's documents move on, and the rebased operations leave each document of the
primary with the commit's changes carried over. -/
theorem rebaseOps_carries (ancestorTree primaryTree : Tree) {ops : List Op} (hobj : ∀ op ∈ ops, op.IsObject)
    (docs primary : Pending) (d : DocId) :
    (rebaseOps ancestorTree primaryTree docs primary ops).1.current ancestorTree d =
        (Ops.after d ops).getD (docs.current ancestorTree d) ∧
      ∃ y, foldDoc d (primary.current primaryTree d) (rebaseOps ancestorTree primaryTree docs primary ops).2 = some y ∧
        view y = (replay (view (docs.current ancestorTree d)) (view (primary.current primaryTree d)) (edits d ops)).2 := by
  induction ops generalizing docs primary with
  | nil => exact ⟨rfl, _, rfl, rfl⟩
  | cons op ops ih =>
    obtain ⟨hop, hrest⟩ := forall_mem_cons.1 hobj
    obtain ⟨docs', primary', op', -, hrec, hstep⟩ := rebaseOps_cons ancestorTree primaryTree hop docs primary
    obtain ⟨hdocs, hfold, hprimary⟩ := hstep d
    obtain ⟨h1, y, hy, hview⟩ := ih hrest docs' primary'
    rw [hrec]
    refine ⟨?_, y, (hfold _).trans hy, ?_⟩
    · rw [h1, hdocs, after_cons]
    · rw [hview, hdocs, hprimary]
      cases he : edit d op with
      | none =>
        rw [edits_cons_none he, edit_none he]
        rfl
      | some x =>
        obtain ⟨doc, hdoc, hx⟩ := edit_some he
        rw [edits_cons_some he, hdoc, replay, hx]
        rfl

/-! ## The branch -/

/-- the commits `bs` stand on commit `c` (which is `cc`) in a line; each tree is its parent's with the recorded
operations applied, every write is of an object, and each commit is the first of its transaction -/
def Strand (d : Dag) : Commit → Hash → List Hash → Prop
  | _, _, [] => True
  | cc, c, b :: bs => ∃ cb, d.get b = some cb ∧ cb.parents = [c] ∧ cb.tree = cc.tree.applyOps cb.operations ∧
      (∀ op ∈ cb.operations, op.IsObject) ∧ d.commitByTransactionId cb.transactionId = some b ∧ Strand d cb b bs

/-- the operations the commits `bs` record, in order -/
def branchOps (d : Dag) (bs : List Hash) : List Op := bs.flatMap fun b => ((d.get b).map Commit.operations).getD []

theorem Strand.mono {d d' : Dag} (he : Dag.Extends d d') (hs : Strand d cc c bs) : Strand d' cc c bs := by
  induction bs generalizing cc c with
  | nil => trivial
  | cons b bs ih =>
    obtain ⟨cb, hg, hp, ht, ho, hi, hrest⟩ := hs
    exact ⟨cb, he _ _ hg, hp, ht, ho, Dag.commitByTransactionId_mono he hi, ih hrest⟩

theorem Strand.branchOps_eq {d d' : Dag} (he : Dag.Extends d d') (hs : Strand d cc c bs) : branchOps d' bs = branchOps d bs := by
  induction bs generalizing cc c with
  | nil => rfl
  | cons b bs ih =>
    obtain ⟨cb, hg, -, -, -, -, hrest⟩ := hs
    have htail := ih hrest
    simp only [branchOps, flatMap_cons] at htail ⊢
    rw [htail, hg, he _ _ hg]

theorem Strand.parents_mem {d : Dag} (hs : Strand d cc c bs) {b : Hash} (hb : b ∈ bs) :
    ∃ cb a, d.get b = some cb ∧ cb.parents = [a] ∧ a ∈ c :: bs := by
  induction bs generalizing cc c with
  | nil => cases hb
  | cons x bs ih =>
    obtain ⟨cx, hg, hp, -, -, -, hrest⟩ := hs
    rcases mem_cons.1 hb with rfl | hb
    · exact ⟨cx, c, hg, hp, by simp⟩
    · obtain ⟨cb, a, h1, h2, h3⟩ := ih hrest hb
      exact ⟨cb, a, h1, h2, .tail _ h3⟩

/-! ## One step of the replay loop -/

section Steps

variable {σ : Type} {S : SchemaOps σ}

/-- what storage builds the next step's tree on is the head's tree -/
def Serves (ns : Namespace σ) (tree : Tree) : Prop := ns.store.backend = .server → ns.store.live = tree

variable {E : Engine} {message : String} {ns ns' : Namespace σ} {ancestorTree : Tree} {b head : Hash}
  {cb ch cx : Commit} {docs : Pending} {rest : List Hash} {ops : List Op} {d : DocId}

/-- a replay that lands leaves each document at the fold of the replayed operations over the head's document -/
theorem Landed.fold {tx : Transaction} {anchor : Hash} {p : PreparedCommit σ} {a : Commit} {h : Hash}
    (hp : Planned S E ns tx anchor a.tree a.tree a.tree p) (hl : Landed S ns ns' p a message h)
    (hserve : Serves ns a.tree) : ∃ c, ns'.dag.get h = some c ∧ c.parents = [anchor] ∧ Serves ns' c.tree ∧
      ∀ d, foldDoc d a.tree[d]? tx.operations = some c.tree[d]? := by
  refine ⟨_, hl.appended.stored, by simp [Dag.buildCommit, hp.anchor_eq], ?_, ?_⟩
  · intro hb
    exact hl.live (hl.backend ▸ hb)
  · intro d
    change foldDoc d a.tree[d]? tx.operations = some (p.tree ns.store a.tree)[d]?
    rw [PreparedCommit.tree_eq hserve, Tree.applyOps_get, hp.fold fun _ _ _ => rfl]

/-- the state of the replay loop: the branch up to `b` is replayed and `head` is where it got; a step is not taken for
one already made, or storage does not care which tree the next one is built on -/
structure Replayed (ns : Namespace σ) (ancestorTree : Tree) (docs : Pending) (cb : Commit) (b : Hash)
    (rest : List Hash) (ch : Commit) (head : Hash) : Prop where
  clean : ns.store.Clean
  strand : Strand ns.dag cb b rest
  stored : ns.dag.get b = some cb
  seen : ∀ d, docs.current ancestorTree d = cb.tree[d]?
  reached : ns.dag.get head = some ch
  serves : Serves ns ch.tree
  off : ns.store.backend = .mem ∨ head ∉ b :: rest

/-- the rebased operations of one commit leave every document with the commit's edits carried over -/
theorem Replayed.rebased (hr : Replayed ns ancestorTree docs cb b rest ch head)
    (hobj : ∀ op ∈ cx.operations, op.IsObject) (d : DocId) :
    ∃ y, foldDoc d ch.tree[d]? (rebaseOps ancestorTree ch.tree docs (fun _ => none) cx.operations).2 = some y ∧
      view y = (replay (view cb.tree[d]?) (view ch.tree[d]?) (edits d cx.operations)).2 := by
  have h := (rebaseOps_carries ancestorTree ch.tree hobj docs (fun _ => none) d).2
  rw [hr.seen d] at h
  exact h

/-- **One step.** A branch commit `x` replayed onto `head` gives a new head whose documents carry `x`'s edits. -/
theorem Replayed.step {x : Hash} {h' : Hash} (hr : Replayed ns ancestorTree docs cb b (x :: rest) ch head)
    (hx : ns.dag.get x = some cx)
    (hstep : E.replay S ns (mergeStep cx head (rebaseOps ancestorTree ch.tree docs (fun _ => none) cx.operations).2) head message = (ns', .ok (.success h'))) :
    ∃ ch', Replayed ns' ancestorTree (rebaseOps ancestorTree ch.tree docs (fun _ => none) cx.operations).1 cx x rest
        ch' h' ∧ Dag.Extends ns.dag ns'.dag ∧ (head ∉ b :: x :: rest → h' ∉ x :: rest) ∧
      ∀ d, view ch'.tree[d]? = (replay (view cb.tree[d]?) (view ch.tree[d]?) (edits d cx.operations)).2 := by
  obtain ⟨cx', hg, hpar, htree, hobj, hfirst, hrest⟩ := hr.strand
  obtain rfl : cx' = cx := Option.some.inj (hg.symm.trans hx)
  have hdocs : ∀ d, (rebaseOps ancestorTree ch.tree docs (fun _ => none) cx'.operations).1.current ancestorTree d =
      cx'.tree[d]? := by
    intro d
    rw [(rebaseOps_carries ancestorTree ch.tree hobj docs (fun _ => none) d).1, hr.seen d, htree, Tree.applyOps_get]
  have ho := replay_outcome (S := S) E hr.clean (mergeStep cx' head
    (rebaseOps ancestorTree ch.tree docs (fun _ => none) cx'.operations).2) head message
  rw [hstep] at ho
  cases ho with
  | refused hne => exact absurd rfl (hne h')
  | found hf =>
    -- the commit found is `x` itself, and it stands on the head: the head is the branch's
    have hx' : h' = x ∧ ns.dag.parents x = [head] := by
      simp only [findExistingCommit, mergeStep, hfirst] at hf
      split at hf
      · rename_i hp
        exact ⟨(Option.some.inj hf).symm, hp⟩
      · cases hf
    obtain ⟨rfl, hph⟩ := hx'
    obtain rfl : b = head := by
      have : [b] = [head] := by simpa [Dag.parents, hg, hpar] using hph
      simpa using this
    obtain rfl : ch = cb := Option.some.inj (hr.reached.symm.trans hr.stored)
    refine ⟨cx', ⟨hr.clean, hrest, hg, hdocs, hg, ?_, ?_⟩, .refl _, fun hoff => absurd (.head _) hoff, ?_⟩
    · intro hb
      rcases hr.off with hm | hoff
      · rw [hm] at hb
        cases hb
      · exact absurd (.head _) hoff
    · rcases hr.off with hm | hoff
      · exact .inl hm
      · exact absurd (.head _) hoff
    · intro d
      rw [replay_same, view_after, htree, Tree.applyOps_get]
  | landed ha hb' _ hp hl =>
    cases ha.symm.trans hr.reached
    cases hb'.symm.trans hr.reached
    obtain ⟨ch', hch', hpar', hserve', hfold⟩ := hl.fold hp hr.serves
    have hgrow := hl.appended.grows
    -- a branch commit stands on the branch, the new commit on the head
    have hoff' : head ∉ b :: x :: rest → h' ∉ x :: rest := by
      intro hoff hmem
      obtain ⟨cy, a, hcy, hcya, haa⟩ := hr.strand.parents_mem hmem
      have heq : cy = ch' := Option.some.inj ((hgrow _ _ hcy).symm.trans hch')
      have hah : a = head := by
        rw [heq, hpar'] at hcya
        simpa using hcya.symm
      exact hoff (hah ▸ haa)
    refine ⟨ch', ⟨hl.clean, hrest.mono hgrow, hgrow _ _ hg, hdocs, hch', hserve', ?_⟩, hgrow, hoff', ?_⟩
    · exact hr.off.imp (fun hm => hl.backend.trans hm) hoff'
    · intro d
      obtain ⟨y, hy, hview⟩ := hr.rebased hobj d
      have hyd : y = ch'.tree[d]? := Option.some.inj (hy.symm.trans (hfold d))
      rw [← hyd, hview]

theorem Replayed.skip {x : Hash} (hr : Replayed ns ancestorTree docs cb b (x :: rest) ch head) (hx : ns.dag.get x = some cx)
    (hempty : cx.operations = []) : cx.tree = cb.tree ∧ Replayed ns ancestorTree docs cx x rest ch head := by
  obtain ⟨cx', hg, -, htree, -, -, hrest⟩ := hr.strand
  obtain rfl : cx' = cx := Option.some.inj (hg.symm.trans hx)
  have hsame : cx'.tree = cb.tree := by rw [htree, hempty]; rfl
  refine ⟨hsame, hr.clean, hrest, hg, hsame ▸ hr.seen, hr.reached, hr.serves, ?_⟩
  exact hr.off.imp_right fun hoff hmem => hoff (.tail _ hmem)

/-- **The replay loop.** Where it reaches a tip, the tip's documents carry the edits of the whole branch. -/
theorem mergeSteps_carries (rest : List Hash) {tip' : Hash} (hr : Replayed ns ancestorTree docs cb b rest ch head)
    (hres : E.mergeSteps S ancestorTree rest ns docs head = (ns', .ok (.ok tip'))) :
    Dag.Extends ns.dag ns'.dag ∧ ∃ ct, ns'.dag.get tip' = some ct ∧
      ∀ d, view ct.tree[d]? = (replay (view cb.tree[d]?) (view ch.tree[d]?) (edits d (branchOps ns.dag rest))).2 := by
  induction rest generalizing ns docs cb ch b head with
  | nil =>
    obtain ⟨rfl, rfl⟩ := hres
    exact ⟨.refl _, ch, hr.reached, fun _ => rfl⟩
  | cons x rest ih =>
    obtain ⟨cx, hg, -, htree, -, -, hrest⟩ := hr.strand
    have hops : branchOps ns.dag (x :: rest) = cx.operations ++ branchOps ns.dag rest := by
      simp [branchOps, hg]
    unfold Engine.mergeSteps at hres
    simp only [hg] at hres
    by_cases hempty : cx.operations = []
    · rw [if_pos hempty] at hres
      obtain ⟨hsame, hr'⟩ := hr.skip hg hempty
      obtain ⟨hgrow, ct, hct, hview⟩ := ih hr' hres
      refine ⟨hgrow, ct, hct, fun d => ?_⟩
      rw [hview d, hops, hempty, nil_append, hsame]
    · rw [if_neg hempty, hr.reached] at hres
      simp only at hres
      generalize hrep : E.replay S ns (mergeStep cx head
        (rebaseOps ancestorTree ch.tree docs (fun _ => none) cx.operations).2) head s!"merge-step:{x}" = r at hres
      obtain ⟨ns₁, res⟩ := r
      cases res with
      | error e => simp at hres
      | ok result =>
        cases result with
        | rejected reason => simp at hres
        | success h' =>
          obtain ⟨ch', hr', hgrow, -, hstep⟩ := hr.step hg hrep
          obtain ⟨hgrow', ct, hct, hview⟩ := ih hr' hres
          refine ⟨hgrow.trans hgrow', ct, hct, fun d => ?_⟩
          have hcx : view cx.tree[d]? = (replay (view cb.tree[d]?) (view ch.tree[d]?) (edits d cx.operations)).1 := by
            rw [view_after, htree, Tree.applyOps_get]
          rw [hview d, hops, edits_append, replay_append, ← hcx, ← hstep d, hrest.branchOps_eq hgrow]

/-! ## The loop goes through -/

/-- the schema accepts every document and every migration -/
def Permissive (S : SchemaOps σ) : Prop :=
  (∀ s body, S.validate s body = []) ∧ ∀ s payload, ∃ s', S.applyMigration s payload = .ok s'

theorem Permissive.accepted (hS : Permissive S) (hobj : ∀ op ∈ ops, op.IsObject) (baseline : Tree) (index : ℕ)
    (rolling : σ) (pending : Pending) : (schemaPhaseFrom S baseline index rolling pending ops).violations = [] := by
  induction ops generalizing index rolling pending with
  | nil => rfl
  | cons op ops ih =>
    have hrest : ∀ o ∈ ops, o.IsObject := fun o ho => hobj o (mem_cons_of_mem _ ho)
    cases op with
    | write d patch replace =>
      obtain ⟨f, hf⟩ := isSome_iff_exists.1 (hobj _ mem_cons_self)
      have hc : ∃ body, candidate (pending.current baseline d) patch replace = some body := by
        cases pending.current baseline d <;> cases replace <;> simp [candidate, hf]
      obtain ⟨body, hbody⟩ := hc
      simp only [schemaPhaseFrom, hbody, hS.1]
      exact ih hrest _ _ _
    | delete d =>
      exact ih hrest _ _ _
    | schemaMigration m payload =>
      obtain ⟨next, hnext⟩ := hS.2 rolling payload
      simp only [schemaPhaseFrom, hnext]
      exact ih hrest _ _ _

/-- a transaction planned from the tree it lands on meets no conflict -/
theorem detectConflicts_self (tree : Tree) (guarded : List ℕ) (ops : List Op) (writes : List (Option Fields)) :
    detectConflicts tree tree guarded ops writes = [] := by
  rw [detectConflicts, filterMap_eq_nil_iff]
  intro e _
  unfold operationConflict
  split
  · rfl
  · split <;> simp

theorem plan_of_permissive (hS : Permissive S) (hE : E.uniqueKeys = false) (ns : Namespace σ) (tx : Transaction)
    (hpre : tx.preconditions = []) (hobj : ∀ op ∈ tx.operations, op.IsObject) (anchor : Hash) (tree : Tree) :
    ∃ p, E.plan S ns tx anchor tree tree tree = .ok p := by
  have hacc := hS.accepted hobj tree 0 ns.schema fun _ => none
  have hsettle : ∀ rolling guarded writes, E.settleConflicts S rolling tx tree tree guarded writes = .ok writes := by
    unfold Engine.settleConflicts
    cases E.conflictPolicy <;> simp [detectConflicts_self]
  simp only [Engine.plan, runSchemaPhase, hacc, ne_eq, not_true, Engine.checkPreconditions, hpre,
    and_false, hsettle, Engine.checkUniqueKeys, hE]
  exact ⟨_, rfl⟩

theorem rebaseOps_objects (ancestorTree primaryTree : Tree) (hobj : ∀ op ∈ ops, op.IsObject) (docs primary : Pending) :
    ∀ op ∈ (rebaseOps ancestorTree primaryTree docs primary ops).2, op.IsObject := by
  induction ops generalizing docs primary with
  | nil => simp [rebaseOps]
  | cons op ops ih =>
    obtain ⟨hop, hrest⟩ := forall_mem_cons.1 hobj
    obtain ⟨docs', primary', op', hop', hrec, -⟩ := rebaseOps_cons ancestorTree primaryTree hop docs primary
    rw [hrec]
    exact forall_mem_cons.2 ⟨hop', ih hrest docs' primary'⟩

/-- a permissive replay onto a head off the branch lands -/
theorem Replayed.lands (hS : Permissive S) (hE : E.uniqueKeys = false) {x : Hash}
    (hr : Replayed ns ancestorTree docs cb b (x :: rest) ch head) (hoff : head ≠ b) (hx : ns.dag.get x = some cx)
    (message : String) :
    ∃ ns' h', E.replay S ns (mergeStep cx head (rebaseOps ancestorTree ch.tree docs (fun _ => none) cx.operations).2)
      head message = (ns', .ok (.success h')) ∧ ns'.dag.main = h' ∧ ns'.dag.treeStore = ns.dag.treeStore := by
  obtain ⟨cx', hg, hpar, -, hobj, hfirst, -⟩ := hr.strand
  obtain rfl : cx' = cx := Option.some.inj (hg.symm.trans hx)
  have hnew : findExistingCommit ns.dag (mergeStep cx' head
      (rebaseOps ancestorTree ch.tree docs (fun _ => none) cx'.operations).2) [head] = none := by
    have hne : ns.dag.parents x ≠ [head] := by
      simpa [Dag.parents, hg, hpar] using hoff.symm
    simp only [findExistingCommit, mergeStep, hfirst, if_neg hne]
  obtain ⟨p, hp⟩ := plan_of_permissive hS hE ns (mergeStep cx' head
    (rebaseOps ancestorTree ch.tree docs (fun _ => none) cx'.operations).2) rfl
    (rebaseOps_objects ancestorTree ch.tree hobj docs fun _ => none) head ch.tree
  obtain ⟨ns', h', happ, hl⟩ := (planned hp).apply_lands hr.reached hr.clean message
  refine ⟨ns', h', ?_, hl.appended.main, hl.appended.treeStore⟩
  unfold Engine.replay
  simp only [hr.reached, hnew, Engine.finalizeTransaction, hp, happ]

/-- **The loop goes through**, and leaves main at its tip. -/
theorem mergeSteps_total (hS : Permissive S) (hE : E.uniqueKeys = false) (rest : List Hash)
    (hr : Replayed ns ancestorTree docs cb b rest ch head) (hoff : head ∉ b :: rest) (hmain : ns.dag.main = head) :
    ∃ ns' tip', E.mergeSteps S ancestorTree rest ns docs head = (ns', .ok (.ok tip')) ∧ ns'.dag.main = tip' ∧
      ns'.dag.treeStore = ns.dag.treeStore := by
  induction rest generalizing ns docs cb ch b head with
  | nil => exact ⟨ns, head, rfl, hmain, rfl⟩
  | cons x rest ih =>
    obtain ⟨cx, hg, -⟩ := hr.strand
    by_cases hempty : cx.operations = []
    · obtain ⟨ns', tip', hres, hrem⟩ := ih (hr.skip hg hempty).2 (fun hmem => hoff (.tail _ hmem)) hmain
      refine ⟨ns', tip', ?_, hrem⟩
      unfold Engine.mergeSteps
      simp only [hg, if_pos hempty]
      exact hres
    · have hne : head ≠ b := fun he => hoff (he ▸ .head _)
      obtain ⟨ns₁, h', hrep, hmain', hts⟩ := hr.lands hS hE hne hg s!"merge-step:{x}"
      obtain ⟨ch', hr', hgrow, hoff', -⟩ := hr.step hg hrep
      obtain ⟨ns', tip', hres, hm, ht⟩ := ih hr' (hoff' hoff) hmain'
      refine ⟨ns', tip', ?_, hm, ht.trans hts⟩
      unfold Engine.mergeSteps
      simp only [hg, if_neg hempty, hr.reached, hrep]
      exact hres

/-! ## What the merged tree holds -/

/-- document `d` merged, where the branch recorded `ops` since the ancestor: the primary's if the branch did not name it;
the branch's if the branch deleted it, at any point; otherwise the primary's with every field some write of the branch
took off the ancestor's value at the branch's value -/
structure MergedDoc (d : DocId) (ops : List Op) (base primary other merged : Option Fields) : Prop where
  untouched : ¬ Touches ops d → view merged = view primary
  deleted : .delete d ∈ ops → view merged = view other
  written : Touches ops d → .delete d ∉ ops → merged.isSome ∧ ∀ k,
    ((∀ body ∈ writesTo d ops, body.get k = field (view base) k) → field (view merged) k = field (view primary) k) ∧
    ((∃ body ∈ writesTo d ops, body.get k ≠ field (view base) k) → field (view merged) k = field (view other) k)

theorem edit_isSome {op : Op} (hobj : op.IsObject) : (edit d op).isSome ↔ op.docId? = some d := by
  cases op with
  | write e patch r =>
    obtain ⟨f, hf⟩ := isSome_iff_exists.1 hobj
    by_cases he : e = d <;> simp [edit, Op.docId?, hf]
  | delete e => by_cases he : e = d <;> simp [edit, Op.docId?]
  | schemaMigration m payload => simp [edit, Op.docId?]

theorem edits_eq_nil (hobj : ∀ op ∈ ops, op.IsObject) : edits d ops = [] ↔ ¬ Touches ops d := by
  rw [edits, filterMap_eq_nil_iff]
  constructor
  · rintro h ⟨op, hop, hd⟩
    have := (edit_isSome (hobj op hop)).2 hd
    rw [h op hop] at this
    cases this
  · intro h op hop
    by_contra hne
    exact h ⟨op, hop, (edit_isSome (hobj op hop)).1 (isSome_iff_ne_none.2 hne)⟩

theorem drop_mem_edits : .drop ∈ edits d ops ↔ .delete d ∈ ops := by
  simp [edits, edit_eq_some]

theorem put_mem_edits {g : String → Option Json} : .put g ∈ edits d ops ↔ ∃ body ∈ writesTo d ops, body.get = g := by
  simp only [edits, writesTo, mem_filterMap, edit_eq_some]
  constructor
  · rintro ⟨op, hop, ⟨patch, r, f, rfl, hf, hg⟩ | ⟨-, ⟨⟩⟩⟩
    exact ⟨f, ⟨_, hop, by simp [hf]⟩, Edit.put.inj hg⟩
  · rintro ⟨body, ⟨op, hop, he⟩, rfl⟩
    cases op with
    | write e patch r =>
      by_cases h : e = d
      · exact ⟨_, hop, .inl ⟨patch, r, body, h ▸ rfl, by simpa [h] using he, rfl⟩⟩
      · simp [h] at he
    | delete e => cases he
    | schemaMigration m payload => cases he

/-- the carried document, field by field -/
theorem mergedDoc_of_replay (hobj : ∀ op ∈ ops, op.IsObject) {base primary other merged : Option Fields}
    (hother : other = (Ops.after d ops).getD base)
    (hmerged : view merged = (replay (view base) (view primary) (edits d ops)).2) :
    MergedDoc d ops base primary other merged := by
  have hown : (replay (view base) (view primary) (edits d ops)).1 = view other := by rw [view_after, hother]
  refine ⟨?_, ?_, ?_⟩
  · intro hun
    rw [hmerged, (edits_eq_nil hobj).2 hun]
    rfl
  · intro hdel
    rw [hmerged, replay_of_drop (drop_mem_edits.2 hdel), hown]
  · intro ht hdel
    have hne : edits d ops ≠ [] := fun h => (edits_eq_nil hobj).1 h ht
    have hputs : ∀ e ∈ edits d ops, ∃ f, e = .put f := by
      intro e he
      cases e with
      | put f => exact ⟨f, rfl⟩
      | drop => exact absurd (drop_mem_edits.1 he) hdel
    obtain ⟨hsome, hk⟩ := replay_of_puts (view base) (view primary) hne hputs
    rw [← hmerged] at hsome
    refine ⟨by simpa [view] using hsome, fun k => ?_⟩
    rw [hmerged, ← hown]
    refine ⟨fun hall => (hk k).1 ?_, fun hex => (hk k).2 ?_⟩
    · intro f hf
      obtain ⟨body, hbody, rfl⟩ := put_mem_edits.1 hf
      exact hall body hbody
    · obtain ⟨body, hbody, hne⟩ := hex
      exact ⟨body.get, put_mem_edits.2 ⟨body, hbody, rfl⟩, hne⟩

/-- the branch `bs` leaves the history of `p` at `c` and is a line of object writes, each commit the first of its
transaction -/
structure Branch (d : Dag) (p c : Hash) (bs : List Hash) : Prop where
  line : d.Line c bs
  ahead : bs ≠ []
  base : d.Ancestor c p
  apart : ∀ b ∈ bs, ¬ d.Ancestor b p
  objects : ∀ b ∈ bs, ∀ cb ∈ d.get b, ∀ op ∈ cb.operations, op.IsObject
  first : ∀ b ∈ bs, ∀ cb ∈ d.get b, d.commitByTransactionId cb.transactionId = some b

/-- a line in a DAG whose trees stand is a strand; its last commit's tree is the first one's with the operations of the
line applied -/
theorem strand_of_line {d : Dag} (hstands : ∀ h c, d.get h = some c → TreeStands d c) {bs : List Hash} {c : Hash}
    {cc : Commit} (hc : d.get c = some cc) (hl : d.Line c bs)
    (hobj : ∀ b ∈ bs, ∀ cb, d.get b = some cb → ∀ op ∈ cb.operations, op.IsObject)
    (hfirst : ∀ b ∈ bs, ∀ cb, d.get b = some cb → d.commitByTransactionId cb.transactionId = some b) :
    Strand d cc c bs ∧ (∀ op ∈ branchOps d bs, op.IsObject) ∧
      ∃ co, d.get (Dag.tip c bs) = some co ∧ co.tree = cc.tree.applyOps (branchOps d bs) := by
  induction bs generalizing c cc with
  | nil => exact ⟨trivial, by simp [branchOps], cc, hc, rfl⟩
  | cons b bs ih =>
    obtain ⟨cb, hg⟩ : ∃ cb, d.get b = some cb := by
      cases hg : d.get b with
      | none => simp [Dag.Line, Dag.parents, hg] at hl
      | some cb => exact ⟨cb, rfl⟩
    have hpar : cb.parents = [c] := by simpa [Dag.parents, hg] using hl.1
    have htree : cb.tree = cc.tree.applyOps cb.operations := by
      cases hstands b cb hg with
      | root hp _ _ => simp [hp] at hpar
      | ops hp hq ht =>
        obtain rfl : _ = c := by simpa [hp] using hpar
        cases hq.symm.trans hc
        exact ht
      | marker hp _ _ _ _ => simp [hp] at hpar
    obtain ⟨hs, ho, co, hco, hcotree⟩ := ih hg hl.2 (fun x hx => hobj x (.tail _ hx))
      (fun x hx => hfirst x (.tail _ hx))
    have hops : branchOps d (b :: bs) = cb.operations ++ branchOps d bs := by simp [branchOps, hg]
    have hobjb := hobj b (.head _) cb hg
    refine ⟨⟨cb, hg, hpar, htree, hobjb, hfirst b (.head _) cb hg, hs⟩, ?_, co, ?_, ?_⟩
    · intro op hop
      rw [hops] at hop
      rcases mem_append.1 hop with hop | hop
      · exact hobjb op hop
      · exact ho op hop
    · have htip : Dag.tip c (b :: bs) = Dag.tip b bs := by cases bs <;> rfl
      rw [htip]
      exact hco
    · rw [hcotree, htree, hops]
      simp [Tree.applyOps]

/-- **A merge carries the branch's changes over.** For every DAG whose trees stand and every branch that leaves the
primary's history at `c` in a line: the commits replayed are those of the branch above `c`, oldest first, none of them in
the primary's history. A merge that succeeds moves main to a commit on both heads whose tree holds, per document and
field, the branch's value where some write of the branch took it off `c`'s and the primary's value elsewhere, and a
document the branch deleted as the branch left it. With main at the primary's head and a schema that accepts every
document, it succeeds. -/
theorem merge_carries_branch_changes (S : SchemaOps σ) (E : Engine) (hexLe : Hash → Hash → Bool) {ns : Namespace σ}
    (hinv : TreeInv ns) (hord : ns.dag.Ordered) {p c : Hash} {bs : List Hash} {cp cc : Commit}
    (hp : ns.dag.get p = some cp) (hc : ns.dag.get c = some cc) (hb : Branch ns.dag p c bs)
    (hstore : ns.store.backend = .server → ns.store.live = cp.tree ∧ p ≠ c) (markerId : TxId) (now : ℕ)
    (message : String) :
    let o := Dag.tip c bs
    let ops := branchOps ns.dag bs
    (ns.dag.commonAncestor p o = some c ∧ branchOrder hexLe ns.dag o c = bs) ∧
      (∀ ns' h, E.merge S hexLe ns p o markerId now message = (ns', .ok (.success h)) →
        ∃ m co, ns'.dag.get h = some m ∧ ns'.dag.main = h ∧ m.parents = [p, o] ∧ ns.dag.get o = some co ∧
          ∀ d, MergedDoc d ops cc.tree[d]? cp.tree[d]? co.tree[d]? m.tree[d]?) ∧
      (ns.dag.main = p → p ≠ c → ns.dag.treeStore = false → E.uniqueKeys = false → Permissive S →
        ∃ ns' h, E.merge S hexLe ns p o markerId now message = (ns', .ok (.success h))) := by
  intro o ops
  obtain ⟨hstrand, hobj, co, hco, hcotree⟩ := strand_of_line hinv.stands hc hb.line hb.objects hb.first
  have hcommon : ns.dag.commonAncestor p o = some c := Dag.commonAncestor_of_line hb.line hb.base hb.apart
  have hnotc : ∀ b ∈ bs, ¬ ns.dag.Ancestor b c := fun b hbs ha => hb.apart b hbs (ha.trans hb.base)
  have horder : branchOrder hexLe ns.dag o c = bs := by
    obtain ⟨hnodup, hmem⟩ := Dag.commitsSince_of_line hexLe hb.line hnotc
    have hne : ns.dag.commitsSince hexLe o c ≠ [] := by
      obtain ⟨b, rest, rfl⟩ := exists_cons_of_ne_nil hb.ahead
      exact ne_nil_of_mem ((hmem b).2 mem_cons_self)
    rw [branchOrder, if_neg hne]
    exact Dag.topoSort_of_line hord hb.line hb.ahead hnodup hmem
  have hpbs : p ∉ bs := fun hmem => hb.apart p hmem .refl
  -- the loop starts with nothing replayed and the head at the primary
  have hstart : Replayed ns cc.tree (fun _ => none) cc c bs cp p := by
    refine ⟨hinv.clean, hstrand, hc, fun d => rfl, hp, fun hbe => (hstore hbe).1, ?_⟩
    cases hbe : ns.store.backend with
    | mem => exact .inl rfl
    | server => exact .inr (by simpa using ⟨(hstore hbe).2, hpbs⟩)
  refine ⟨⟨hcommon, horder⟩, ?_, ?_⟩
  · intro ns' h hmerge
    simp only [Engine.merge, hcommon, hc, horder] at hmerge
    generalize hsteps : E.mergeSteps S cc.tree bs ns (fun _ => none) p = r at hmerge
    obtain ⟨ns₁, res⟩ := r
    cases res with
    | error e => simp at hmerge
    | ok res =>
      cases res with
      | error reason => simp at hmerge
      | ok tip' =>
        obtain ⟨hgrow, ct, hct, hview⟩ := mergeSteps_carries bs hstart hsteps
        have hco₁ : ns₁.dag.get o = some co := hgrow _ _ hco
        simp only [capMerge, hct, hco₁] at hmerge
        split at hmerge
        · simp at hmerge
        · split at hmerge
          · simp at hmerge
          · rename_i happ
            obtain ⟨rfl, rfl⟩ := hmerge
            have ha := Dag.append_cases happ
            refine ⟨_, co, ha.stored, ha.main, rfl, hco, fun d => ?_⟩
            exact mergedDoc_of_replay hobj (by rw [hcotree, Tree.applyOps_get]) (hview d)
  · intro hmain hne hts hE hS
    have hoff : p ∉ c :: bs := by simpa using ⟨hne, hpbs⟩
    obtain ⟨ns₁, tip', hsteps, hmain', hts'⟩ := mergeSteps_total hS hE bs hstart hoff hmain
    obtain ⟨hgrow, ct, hct, -⟩ := mergeSteps_carries bs hstart hsteps
    obtain ⟨⟨dag, h⟩, happ⟩ := Dag.append_ok ns₁.dag (mergeMarker markerId now co.author p) [p, o] ct.tree
      ct.schemaHash message (some tip') (by simp [hgrow _ _ hp, hgrow _ _ hco, o])
      (by rintro x ⟨⟩; exact hmain')
    refine ⟨{ ns₁ with dag := dag }, h, ?_⟩
    simp only [Engine.merge, hcommon, hc, horder, hsteps, capMerge, hct, hgrow _ _ hco, hts', hts, happ, o,
      Bool.false_eq_true, if_false]

/-! ## Closed merges -/

/-- a branch on commit 1 changes field `a` of document 1 and changes it back; the primary, commit 4, changes it too -/
def changedBack : List Call :=
  [.commit .strict (writeTx 11 0 1 [("a", .num 1)]) "", .replay .strict (writeTx 12 1 1 [("a", .num 2)]) 1 "",
    .replay .strict (writeTx 13 2 1 [("a", .num 1)]) 2 "", .replay .strict (writeTx 14 1 1 [("a", .num 5)]) 1 ""]

/-- document 1 is written, document 2 is written, document 1 is deleted -/
def deletedLater : List Call :=
  [.commit .strict (writeTx 11 0 1 [("a", .num 1)]) "", .commit .strict (writeTx 12 1 2 [("b", .num 2)]) "",
    .commit .strict ⟨13, 2, [.delete 1], 10, 7, []⟩ ""]

/-- document `d` in the tree of commit `h` -/
def Dag.docAt (dag : Dag) (h : Hash) (d : DocId) : Option Fields := (dag.get h).bind fun c => c.tree[d]?

/-- Merge is not a three-way merge of the two heads' trees. A field the branch changed and changed back takes the
branch's value, although it is the ancestor's and the primary's is another. Merging an ancestor of the primary replays
its last commit: the document the primary deleted is back, empty. With a tree store installed the merge fails after its
steps have moved main. -/
theorem merge_is_not_three_way :
    (let ns := run (callStep .schemaless (· ≤ ·)) (Namespace.init .mem false ()) changedBack
      let r := Engine.strict.merge .schemaless (· ≤ ·) ns 4 3 15 20 "merge"
      ns.dag.main = 4 ∧ ns.dag.commonAncestor 4 3 = some 1 ∧ (r.2 matches .ok (.success 7)) ∧
        [1, 3, 4].map (ns.dag.docAt · 1) = [some [("a", .num 1)], some [("a", .num 1)], some [("a", .num 5)]] ∧
        r.1.dag.docAt 7 1 = some [("a", .num 1)]) ∧
    (let ns := run (callStep .schemaless (· ≤ ·)) (Namespace.init .mem false ()) deletedLater
      let r := Engine.strict.merge .schemaless (· ≤ ·) ns 3 1 15 20 "merge"
      ns.dag.main = 3 ∧ ns.dag.parents 2 = [1] ∧ ns.dag.parents 3 = [2] ∧ (r.2 matches .ok (.success 5)) ∧
        ns.dag.docAt 3 1 = none ∧ r.1.dag.docAt 5 1 = some []) ∧
    (let ns := run (callStep .schemaless (· ≤ ·)) (Namespace.init .server true ()) (mergedBranches.take 2)
      let r := Engine.strict.merge .schemaless (· ≤ ·) ns 2 1 15 20 "merge"
      ns.dag.main = 2 ∧ (r.2 matches .error .treeNotFound) ∧ r.1.dag.main = 3) := by
  decide +kernel

/-- two fields of document 1 change on the branch of commits 2 and 3, another on the primary -/
def apartFields : List Call :=
  [.commit .strict (writeTx 11 0 1 [("a", .num 1), ("b", .num 1), ("c", .num 1)]) "",
    .replay .strict (writeTx 12 1 1 [("a", .num 2)]) 1 "", .replay .strict (writeTx 13 2 1 [("b", .num 3)]) 2 "",
    .replay .strict (writeTx 14 1 1 [("c", .num 5)]) 1 ""]

theorem merge_carries_branch_changes_apartFields :
    let ns := run (callStep .schemaless (· ≤ ·)) (Namespace.init .mem false ()) apartFields
    ∃ ns' h, Engine.strict.merge .schemaless (· ≤ ·) ns 4 3 15 20 "merge" = (ns', .ok (.success h)) ∧
      ∃ m co cc cp, ns'.dag.get h = some m ∧ ns'.dag.main = h ∧ m.parents = [4, 3] ∧ ns.dag.get 3 = some co ∧
        ns.dag.get 1 = some cc ∧ ns.dag.get 4 = some cp ∧
        ∀ d, MergedDoc d (branchOps ns.dag [2, 3]) cc.tree[d]? cp.tree[d]? co.tree[d]? m.tree[d]? := by
  intro ns
  have hinv : TreeInv ns := ((TreeInv.init .mem false ()).run .schemaless (· ≤ ·) (by decide +kernel)).1
  obtain ⟨cp, hp⟩ := isSome_iff_exists.1 (show (ns.dag.get 4).isSome by decide +kernel)
  obtain ⟨cc, hc⟩ := isSome_iff_exists.1 (show (ns.dag.get 1).isSome by decide +kernel)
  have hb : Branch ns.dag 4 1 [2, 3] :=
    ⟨by decide +kernel, by decide, by decide +kernel, by decide +kernel, by decide +kernel, by decide +kernel⟩
  have hmem : ns.store.backend = .mem := by decide +kernel
  obtain ⟨-, hgood, htotal⟩ := merge_carries_branch_changes .schemaless .strict (· ≤ ·) hinv (by decide +kernel) hp hc hb
    (fun h => absurd (hmem.symm.trans h) (by decide)) 15 20 "merge"
  obtain ⟨ns', h, hmerge⟩ := htotal (by decide +kernel) (by decide) (by decide +kernel) rfl
    ⟨fun _ _ => rfl, fun s _ => ⟨s, rfl⟩⟩
  obtain ⟨m, co, hm, hmain, hpar, hco, hdocs⟩ := hgood ns' h hmerge
  exact ⟨ns', h, hmerge, m, co, cc, cp, hm, hmain, hpar, hco, hc, hp, hdocs⟩

end Steps

end Kdb
