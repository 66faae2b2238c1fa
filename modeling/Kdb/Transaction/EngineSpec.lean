/-
What the engine's calls do, stated once for the invariants built on them.
- `planned`: everything a plan that is not refused has checked.
- `stageOps_overlay`: staging a plan's writes is applying the operations the commit records, in order.
- `Planned.apply_lands`: a plan made in a state lands in that state, and `Landed` says everything it changes.
- `commit_outcome`, `replay_outcome`: a call is refused and changes nothing, finds the transaction's earlier commit, or lands.
- `MergeRule`: a merge is a run of replays and a marker; what they keep, it keeps.
- `schemaPhase_step`: one operation the schema phase accepts; `schemaPhase_fold`: a transaction leaves each document at the fold of its operations over the baseline document.
-/
import Kdb.Transaction.Engine

namespace Kdb

open List Option

section EngineSpec

variable {σ : Type} {S : SchemaOps σ}

/-! ## What a plan has checked -/

/-- everything a plan that is not refused has checked -/
structure Planned (S : SchemaOps σ) (E : Engine) (ns : Namespace σ) (tx : Transaction) (anchor : Hash)
    (base baseline target : Tree) (p : PreparedCommit σ) : Prop where
  tx_eq : p.tx = tx
  anchor_eq : p.anchorCommit = anchor
  tip : p.extendingTip = ns.dag.headIs anchor
  accepted : (runSchemaPhase S ns.schema baseline tx.operations).violations = []
  rolling : p.rollingSchema = (runSchemaPhase S ns.schema baseline tx.operations).rollingSchema
  settled : ∃ guarded, E.checkPreconditions tx target = .ok guarded ∧
    E.settleConflicts S p.rollingSchema tx base target guarded
      (runSchemaPhase S ns.schema baseline tx.operations).writes = .ok p.writes
  uniques : E.checkUniqueKeys S p.rollingSchema ns.owners target tx.operations p.writes = .ok p.uniques

theorem bind_eq_ok {ε α β : Type} {x : Except ε α} {f : α → Except ε β} {b : β} (h : x.bind f = .ok b) :
    ∃ a, x = .ok a ∧ f a = .ok b := by
  cases x with
  | error e => cases h
  | ok a => exact ⟨a, rfl, h⟩

variable {E : Engine} {anchor : Hash} {base baseline target : Tree} {ns : Namespace σ} {p : PreparedCommit σ}
  {tx : Transaction} {index i : ℕ} {pending : Pending} {rolling : σ} {guarded : List ℕ}
  {writes : List (Option Fields)} {d : DocId} {patch : Json} {replace : Bool} {a : Commit} {w : Option Fields}
  {body : Fields}

theorem planned (h : E.plan S ns tx anchor base baseline target = .ok p) :
    Planned S E ns tx anchor base baseline target p := by
  unfold Engine.plan at h
  by_cases hv : (runSchemaPhase S ns.schema baseline tx.operations).violations = []
  · simp only [hv] at h
    obtain ⟨guarded, hg, h⟩ := bind_eq_ok h
    obtain ⟨writes, hw, h⟩ := bind_eq_ok h
    obtain ⟨uniques, hu, h⟩ := bind_eq_ok h
    cases h
    exact ⟨rfl, rfl, rfl, hv, rfl, ⟨guarded, hg, hw⟩, hu⟩
  · simp [hv] at h

/-! ## The fold of a transaction's operations over one document -/

/-- the fold of operations over document `d`, in order: a patch merges over what is there, a replacing write and a
delete start afresh; `none` when a patch cannot be merged -/
def foldDoc (d : DocId) : Option Fields → List Op → Option (Option Fields)
  | cur, [] => some cur
  | cur, .write e patch replace :: ops =>
    if e = d then
      match candidate cur patch replace with
      | some body => foldDoc d (some body) ops
      | none => none
    else foldDoc d cur ops
  | cur, .delete e :: ops => if e = d then foldDoc d none ops else foldDoc d cur ops
  | cur, .schemaMigration _ _ :: ops => foldDoc d cur ops

/-- the first operation naming `d` is a merge patch -/
def mergesFirst (d : DocId) : List Op → Bool
  | [] => false
  | .write e _ replace :: ops => if e = d then !replace else mergesFirst d ops
  | .delete e :: ops => if e = d then false else mergesFirst d ops
  | .schemaMigration _ _ :: ops => mergesFirst d ops

/-- where the first operation on a document does not merge, the fold does not depend on what was there -/
theorem foldDoc_of_not_mergesFirst (ht : Touches ops d) (hm : mergesFirst d ops = false) (a b : Option Fields) :
    foldDoc d a ops = foldDoc d b ops := by
  induction ops with
  | nil => simp [Touches] at ht
  | cons op ops ih =>
    have htail : op.docId? ≠ some d → Touches ops d := by
      intro hne
      obtain ⟨o, ho, hd⟩ := ht
      rcases mem_cons.1 ho with rfl | ho
      · exact absurd hd hne
      · exact ⟨o, ho, hd⟩
    cases op with
    | write e patch replace =>
      by_cases he : e = d
      · simp only [mergesFirst, he, if_true, Bool.not_eq_false'] at hm
        subst hm
        cases a <;> cases b <;> simp [foldDoc, candidate, he]
      · simp only [mergesFirst, he] at hm
        simpa [foldDoc, he] using ih (htail (by simpa [Op.docId?] using he)) hm
    | delete e =>
      by_cases he : e = d
      · simp [foldDoc, he]
      · simp only [mergesFirst, he] at hm
        simpa [foldDoc, he] using ih (htail (by simpa [Op.docId?] using he)) hm
    | schemaMigration m payload => exact ih (htail (by simp [Op.docId?])) hm

theorem Pending.current_update (pending : Pending) (baseline : Tree) (e d : DocId) (s : Option Fields) :
    Pending.current (Function.update pending e (some s)) baseline d =
      if d = e then s else pending.current baseline d := by
  by_cases h : d = e
  · subst h
    simp [Pending.current]
  · simp [Pending.current, h]

/-- every write has a staged body, every other operation none -/
def Op.StagedAs : Op → Option Fields → Prop
  | .write _ _ _, w => w.isSome
  | _, w => w = none

theorem after_append (d : DocId) (ops ops' : List Op) : Ops.after d (ops ++ ops') = (Ops.after d ops').or (Ops.after d ops) := by
  induction ops with
  | nil => simp [Ops.after]
  | cons op ops ih => rw [cons_append, Ops.after, ih, Ops.after, Option.or_assoc]

theorem operationsAsStored_cons (op : Op) (w : Option Fields) (ops : List Op) (writes : List (Option Fields)) :
    operationsAsStored (op :: ops) (w :: writes) = operationsAsStored [op] [w] ++ operationsAsStored ops writes := by
  cases op <;> cases w <;> rfl

/-- **One accepted operation.** It stages a body if it is a write, the document it names is then as it is recorded, and
for every document that is one step of the fold. -/
theorem schemaPhase_step (h : (schemaPhaseFrom S baseline index rolling pending (op :: ops)).violations = []) :
    ∃ rolling' pending' w, (schemaPhaseFrom S baseline (index + 1) rolling' pending' ops).violations = [] ∧
      (schemaPhaseFrom S baseline index rolling pending (op :: ops)).writes =
        w :: (schemaPhaseFrom S baseline (index + 1) rolling' pending' ops).writes ∧ op.StagedAs w ∧
      ∀ d, pending' d = (Ops.after d (operationsAsStored [op] [w])).or (pending d) ∧
        ∀ rest, foldDoc d (pending.current baseline d) (op :: rest) = foldDoc d (pending'.current baseline d) rest := by
  cases op with
  | write e patch replace =>
    rw [schemaPhaseFrom] at h ⊢
    cases hc : candidate (pending.current baseline e) patch replace with
    | none => simp [hc, SchemaFrame.reject] at h
    | some body =>
      cases hv : S.validate rolling body with
      | cons v vs => simp [hc, hv, SchemaFrame.reject] at h
      | nil =>
        simp only [hc, hv] at h ⊢
        refine ⟨_, _, _, h, rfl, rfl, fun d => ?_⟩
        rw [Pending.current_update]
        by_cases he : e = d
        · subst he
          simp [operationsAsStored, Ops.after, Op.after, Json.rootObject, foldDoc, hc]
        · simp [operationsAsStored, Ops.after, Op.after, foldDoc, he, Ne.symm he]
  | delete e =>
    refine ⟨_, _, _, h, rfl, rfl, fun d => ?_⟩
    rw [Pending.current_update]
    by_cases he : e = d
    · subst he
      simp [operationsAsStored, Ops.after, Op.after, foldDoc]
    · simp [operationsAsStored, Ops.after, Op.after, foldDoc, he, Ne.symm he]
  | schemaMigration m payload =>
    rw [schemaPhaseFrom] at h ⊢
    cases hm : S.applyMigration rolling payload with
    | error v => simp [hm, SchemaFrame.reject] at h
    | ok next =>
      simp only [hm] at h ⊢
      exact ⟨_, _, _, h, rfl, rfl, fun d => ⟨rfl, fun _ => rfl⟩⟩

theorem schemaPhase_staged (h : (schemaPhaseFrom S baseline index rolling pending ops).violations = []) :
    List.Forall₂ Op.StagedAs ops (schemaPhaseFrom S baseline index rolling pending ops).writes := by
  induction ops generalizing index rolling pending with
  | nil => exact .nil
  | cons op ops ih =>
    obtain ⟨_, _, w, hrest, hwrites, hop, -⟩ := schemaPhase_step h
    rw [hwrites]
    exact .cons hop (ih hrest)

/-- **The schema phase folds.** What a transaction records for a document, over what was pending before, is the fold
of its operations over the document as the phase found it. -/
theorem schemaPhase_fold (d : DocId) (h : (schemaPhaseFrom S baseline index rolling pending ops).violations = []) :
    foldDoc d (pending.current baseline d) ops =
      some (((Ops.after d (operationsAsStored ops (schemaPhaseFrom S baseline index rolling pending ops).writes)).or
        (pending d)).getD baseline[d]?) := by
  induction ops generalizing index rolling pending with
  | nil => simp [foldDoc, operationsAsStored, schemaPhaseFrom, Ops.after, Pending.current]
  | cons op ops ih =>
    obtain ⟨_, _, w, hrest, hwrites, -, hstep⟩ := schemaPhase_step h
    obtain ⟨hpending, hfold⟩ := hstep d
    rw [hfold, ih hrest, hwrites, operationsAsStored_cons, after_append, hpending, Option.or_assoc]

/-- the body a write stages is the fold of the operations up to it -/
theorem schemaPhase_fold_take (h : (schemaPhaseFrom S baseline index rolling pending ops).violations = [])
    (hop : ops[i]? = some (.write d patch replace))
    (hw : (schemaPhaseFrom S baseline index rolling pending ops).writes[i]? = some (some body)) :
    foldDoc d (pending.current baseline d) (ops.take (i + 1)) = some (some body) := by
  induction ops generalizing index rolling pending i with
  | nil => simp at hop
  | cons op ops ih =>
    obtain ⟨_, _, w, hrest, hwrites, -, hstep⟩ := schemaPhase_step h
    obtain ⟨hpending, hfold⟩ := hstep d
    rw [hwrites] at hw
    rw [take_succ_cons, hfold]
    cases i with
    | zero =>
      simp only [List.getElem?_cons_zero, Option.some.injEq] at hop hw
      subst hop hw
      simp [foldDoc, Pending.current, hpending, operationsAsStored, Ops.after, Op.after, Json.rootObject]
    | succ i => exact ih hrest (by simpa using hop) (by simpa using hw)

/-- a reported conflict names an operation of the transaction by its index -/
theorem mem_detectConflicts {c : OperationConflict} (h : c ∈ detectConflicts base target guarded ops writes) :
    ops[c.opIndex]? = some c.op := by
  obtain ⟨⟨⟨op, w⟩, i⟩, hi, hc⟩ := mem_filterMap.1 h
  obtain ⟨h1, -⟩ := List.getElem?_zip_eq_some.1 (mem_zipIdx_iff_getElem?.1 hi)
  unfold operationConflict at hc
  split at hc
  · cases hc
  · cases op with
    | write d patch replace =>
      simp only at hc
      split at hc
      · cases hc
      · cases hc
        exact h1
    | delete d =>
      simp only at hc
      split at hc
      · cases hc
      · cases hc
        exact h1
    | schemaMigration m payload => cases hc

variable {op : Op}

/-- where no conflict is reported, every document an unguarded operation names is the same in base and target -/
theorem detectConflicts_nil (hlen : ops.length = writes.length)
    (h : detectConflicts base target guarded ops writes = []) (hi : ops[i]? = some op) (hg : i ∉ guarded)
    (hd : op.docId? = some d) : base[d]? = target[d]? := by
  have hlt : i < writes.length := hlen ▸ (List.getElem?_eq_some_iff.1 hi).1
  have hmem : ((op, writes[i]), i) ∈ (ops.zip writes).zipIdx :=
    mem_zipIdx_iff_getElem?.2 (List.getElem?_zip_eq_some.2 ⟨hi, List.getElem?_eq_getElem hlt⟩)
  rw [detectConflicts, filterMap_eq_nil_iff] at h
  have hnone := h _ hmem
  by_contra hne
  cases op with
  | write e patch replace =>
    obtain rfl : e = d := by simpa [Op.docId?] using hd
    simp [operationConflict, hg, hne] at hnone
  | delete e =>
    obtain rfl : e = d := by simpa [Op.docId?] using hd
    simp [operationConflict, hg, hne] at hnone
  | schemaMigration m payload => simp [Op.docId?] at hd

theorem forall₂_set (h : List.Forall₂ Op.StagedAs ops writes) (hi : ops[i]? = some (.write d patch replace))
    (body : Fields) : List.Forall₂ Op.StagedAs ops (writes.set i (some body)) := by
  induction h generalizing i with
  | nil => simp at hi
  | cons hop hrest ih =>
    cases i with
    | zero =>
      simp only [List.getElem?_cons_zero, Option.some.injEq] at hi
      subst hi
      exact .cons rfl hrest
    | succ i => exact .cons hop (ih (by simpa using hi))

theorem resolveConflicts_staged {resolve : DocumentConflict → Option Fields} {conflicts cs : List OperationConflict}
    {writes' : List (Option Fields)} (hcs : ∀ c ∈ cs, ops[c.opIndex]? = some c.op)
    (hst : List.Forall₂ Op.StagedAs ops writes)
    (h : resolveConflicts S resolve rolling conflicts cs writes = .ok writes') :
    List.Forall₂ Op.StagedAs ops writes' := by
  induction cs generalizing writes with
  | nil =>
    cases h
    exact hst
  | cons c cs ih =>
    have hc := hcs c (mem_cons_self ..)
    rw [resolveConflicts] at h
    cases hop : c.op with
    | write d patch replace =>
      rw [hop] at h hc
      cases hr : resolve ⟨d, c.type, c.existingDoc, c.incomingDoc, c.baseDoc⟩ with
      | none => simp [hr] at h
      | some body =>
        cases hv : S.validate rolling body with
        | nil =>
          simp only [hr, hv] at h
          exact ih (fun x hx => hcs x (.tail _ hx)) (forall₂_set hst hc body) h
        | cons v vs => simp [hr, hv] at h
    | delete d => simp [hop] at h
    | schemaMigration m payload => simp [hop] at h

/-- conflicts are settled by leaving the writes, or by a custom resolver -/
theorem settleConflicts_ok {writes' : List (Option Fields)}
    (h : E.settleConflicts S rolling tx base target guarded writes = .ok writes') : writes' = writes ∨
      E.conflictPolicy = .custom ∧ detectConflicts base target guarded tx.operations writes ≠ [] ∧
      ∃ resolve, resolveConflicts S resolve rolling (detectConflicts base target guarded tx.operations writes)
        (detectConflicts base target guarded tx.operations writes) writes = .ok writes' := by
  unfold Engine.settleConflicts at h
  split at h
  · exact .inl (Except.ok.inj h).symm
  · exact .inl (Except.ok.inj h).symm
  · split at h
    · exact .inl (Except.ok.inj h).symm
    · cases h
  · rename_i hpol
    split at h
    · exact .inl (Except.ok.inj h).symm
    · rename_i hne
      split at h
      · cases h
      · exact .inr ⟨hpol, hne, _, h⟩

theorem Planned.staged (h : Planned S E ns tx anchor base baseline target p) :
    List.Forall₂ Op.StagedAs tx.operations p.writes := by
  have hst : List.Forall₂ Op.StagedAs tx.operations (runSchemaPhase S ns.schema baseline tx.operations).writes :=
    schemaPhase_staged h.accepted
  obtain ⟨guarded, -, hw⟩ := h.settled
  rcases settleConflicts_ok hw with heq | ⟨-, -, resolve, hres⟩
  · exact heq ▸ hst
  · exact resolveConflicts_staged (fun c hc => mem_detectConflicts hc) hst hres

/-! ## What applying does -/

/-- **Staging is applying.** The tree the staged writes make of a base is the base with the recorded operations
applied in order. -/
theorem stageOps_overlay (h : List.Forall₂ Op.StagedAs ops writes) (s : Store) (base : Tree) :
    (stageOps s ops writes).overlay base = (s.overlay base).applyOps (operationsAsStored ops writes) := by
  induction h generalizing s with
  | nil => rfl
  | @cons op w ops writes hop _ ih =>
    cases op with
    | write d patch replace =>
      obtain ⟨body, rfl⟩ := isSome_iff_exists.1 hop
      rw [stageOps, ih, Store.overlay_put]
      rfl
    | delete d =>
      rw [stageOps, ih, Store.overlay_delete]
      rfl
    | schemaMigration m payload =>
      have hw : w = none := hop
      rw [stageOps, ih]
      · rfl
      all_goals simp

theorem stageOps_fields (s : Store) (ops : List Op) (writes : List (Option Fields)) :
    (stageOps s ops writes).backend = s.backend ∧ (stageOps s ops writes).live = s.live := by
  induction ops generalizing s writes with
  | nil => cases writes <;> exact ⟨rfl, rfl⟩
  | cons op ops ih =>
    cases writes with
    | nil => cases op <;> exact ⟨rfl, rfl⟩
    | cons w writes =>
      cases op with
      | write d patch replace =>
        cases w with
        | none => exact ih s writes
        | some body => exact ih (s.putDocument d body) writes
      | delete d => exact ih (s.deleteDocument d) writes
      | schemaMigration m payload => exact ih s writes

/-- the tree a prepared commit is appended with: the recorded operations over the tree storage builds on -/
def PreparedCommit.tree (p : PreparedCommit σ) (s : Store) (anchor : Tree) : Tree :=
  (match s.backend with
    | .mem => anchor
    | .server => s.live).applyOps p.recorded.operations

/-- storage that serves the anchor's tree builds on it -/
theorem PreparedCommit.tree_eq {s : Store} {anchor : Tree} (hserve : s.backend = .server → s.live = anchor) :
    p.tree s anchor = anchor.applyOps p.recorded.operations := by
  unfold PreparedCommit.tree
  cases hb : s.backend with
  | mem => rfl
  | server => simp only [hserve hb]

/-- **What landing does.** The commit is appended with the recorded operations and their tree, storage is clean and
(`ServerEngine`) serves that tree, and the registry has moved by the plan. -/
structure Landed (S : SchemaOps σ) (ns ns' : Namespace σ) (p : PreparedCommit σ) (anchor : Commit) (message : String)
    (h : Hash) : Prop where
  appended : Dag.Appended ns.dag ns'.dag h
    (ns.dag.buildCommit p.recorded [p.anchorCommit] (p.tree ns.store anchor.tree)
      (schemaHashWire S p.rollingSchema) message)
    (if p.extendingTip then some p.anchorCommit else none)
  clean : ns'.store.Clean
  backend : ns'.store.backend = ns.store.backend
  live : ns.store.backend = .server → ns'.store.live = p.tree ns.store anchor.tree
  owners : ns'.owners = p.uniques.apply ns.owners
  schema : ns'.schema = ns.schema

theorem commitTree_staged {s : Store} (hclean : s.Clean) (hst : List.Forall₂ Op.StagedAs p.tx.operations p.writes)
    (anchor : Tree) : ((stageOps s p.tx.operations p.writes).commitTree anchor).2 = p.tree s anchor ∧
      (s.backend = .server → ((stageOps s p.tx.operations p.writes).commitTree anchor).1.live = p.tree s anchor) := by
  obtain ⟨hb, hl⟩ := stageOps_fields s p.tx.operations p.writes
  have hover : ∀ base, (stageOps s p.tx.operations p.writes).overlay base = base.applyOps p.recorded.operations := by
    intro base
    rw [stageOps_overlay hst, Store.overlay_clean hclean]
    rfl
  cases hback : s.backend with
  | mem =>
    rw [Store.commitTree_mem (hb.trans hback)]
    exact ⟨by simp [PreparedCommit.tree, hback, hover], by simp⟩
  | server =>
    rw [Store.commitTree_server (hb.trans hback), hl]
    simp [PreparedCommit.tree, hback, hover]

/-- applying a plan made in this state lands it: neither the anchor lookup nor the compare-and-swap can fail -/
theorem Planned.apply_lands (hp : Planned S E ns tx anchor base baseline target p) (ha : ns.dag.get anchor = some a)
    (hclean : ns.store.Clean) (message : String) :
    ∃ ns' h, p.apply S ns message = (ns', .ok (.success h)) ∧ Landed S ns ns' p a message h := by
  have hanchor : ns.dag.get p.anchorCommit = some a := by rw [hp.anchor_eq]; exact ha
  have hst : List.Forall₂ Op.StagedAs p.tx.operations p.writes := by rw [hp.tx_eq]; exact hp.staged
  obtain ⟨htree, hlive⟩ := commitTree_staged hclean hst a.tree
  obtain ⟨r, hr⟩ := Dag.append_ok ns.dag p.recorded [p.anchorCommit] (p.tree ns.store a.tree)
    (schemaHashWire S p.rollingSchema) message (if p.extendingTip then some p.anchorCommit else none)
    (by simp [hanchor]) (by
      intro x hx
      by_cases ht : p.extendingTip
      · simp only [ht, if_true, Option.some.injEq] at hx
        have htip := hp.tip
        rw [ht] at htip
        have : ns.dag.main = anchor := by simpa [Dag.headIs] using htip.symm
        rw [this, ← hx, hp.anchor_eq]
      · simp [ht] at hx)
  obtain ⟨dag, h⟩ := r
  refine ⟨⟨dag, ((stageOps ns.store p.tx.operations p.writes).commitTree a.tree).1, p.uniques.apply ns.owners,
    ns.schema⟩, h, ?_, ?_⟩
  · unfold PreparedCommit.apply
    simp only [hanchor]
    rw [htree, hr]
  · refine ⟨Dag.append_cases hr, Store.commitTree_clean _ _, ?_, hlive, rfl, rfl⟩
    exact (Store.commitTree_backend _ _).trans (stageOps_fields _ _ _).1

/-! ## The three ways a call can go -/

/-- a call is refused and changes nothing, finds the transaction's earlier commit on the same parent, or lands on
`anchor` what was planned from the tree of `baseVersion` -/
inductive Outcome (S : SchemaOps σ) (E : Engine) (ns : Namespace σ) (tx : Transaction) (anchor baseVersion : Hash)
    (message : String) : Namespace σ × Except EngineError TransactionResult → Prop
  | refused {r : Except EngineError TransactionResult} (hr : ∀ h, r ≠ .ok (.success h)) :
    Outcome S E ns tx anchor baseVersion message (ns, r)
  | found {h : Hash} (hf : findExistingCommit ns.dag tx [anchor] = some h) :
    Outcome S E ns tx anchor baseVersion message (ns, .ok (.success h))
  | landed {ns' : Namespace σ} {h : Hash} {p : PreparedCommit σ} {a b : Commit} (ha : ns.dag.get anchor = some a)
    (hb : ns.dag.get baseVersion = some b) (hnew : findExistingCommit ns.dag tx [anchor] = none)
    (hp : Planned S E ns tx anchor b.tree b.tree a.tree p) (hl : Landed S ns ns' p a message h) :
    Outcome S E ns tx anchor baseVersion message (ns', .ok (.success h))

theorem finalize_outcome {baseVersion : Hash} {b : Commit} (ha : ns.dag.get anchor = some a)
    (hb : ns.dag.get baseVersion = some b) (hnew : findExistingCommit ns.dag tx [anchor] = none)
    (hclean : ns.store.Clean) (message : String) : Outcome S E ns tx anchor baseVersion message
      (E.finalizeTransaction S ns tx anchor b.tree b.tree a.tree message) := by
  unfold Engine.finalizeTransaction
  cases hplan : E.plan S ns tx anchor b.tree b.tree a.tree with
  | error reason => exact .refused (by simp)
  | ok p =>
    have hp := planned hplan
    obtain ⟨ns', h, happ, hl⟩ := hp.apply_lands ha hclean message
    simp only [happ]
    exact .landed ha hb hnew hp hl

/-- **Commit.** Anchored at main's head, planned from the tree of the transaction's base version. -/
theorem commit_outcome (E : Engine) (hclean : ns.store.Clean) (tx : Transaction) (message : String) :
    Outcome S E ns tx ns.dag.main tx.baseVersion message (E.commit S ns tx message) := by
  unfold Engine.commit
  cases hb : ns.dag.get tx.baseVersion with
  | none => exact .refused (by simp)
  | some b =>
    cases hf : findExistingCommit ns.dag tx [ns.dag.main] with
    | some h =>
      simp only [hf]
      exact .found hf
    | none =>
      cases ha : ns.dag.get ns.dag.main with
      | none =>
        simp only [hf, ha]
        exact .refused (by simp)
      | some a =>
        simp only [hf, ha]
        exact finalize_outcome ha hb hf hclean message

/-- **Replay.** Anchored at the named commit and planned from its tree. -/
theorem replay_outcome (E : Engine) (hclean : ns.store.Clean) (tx : Transaction) (target : Hash) (message : String) :
    Outcome S E ns tx target target message (E.replay S ns tx target message) := by
  unfold Engine.replay
  cases ha : ns.dag.get target with
  | none => exact .refused (by simp)
  | some a =>
    cases hf : findExistingCommit ns.dag tx [target] with
    | some h => exact .found hf
    | none => exact finalize_outcome ha ha hf hclean message

theorem findExistingCommit_get {dag : Dag} {p h : Hash} (hf : findExistingCommit dag tx [p] = some h) :
    ∃ c, dag.get h = some c ∧ c.parents = [p] := by
  unfold findExistingCommit at hf
  cases ht : dag.commitByTransactionId tx.id with
  | none => simp [ht] at hf
  | some x =>
    simp only [ht] at hf
    by_cases hp : dag.parents x = [p]
    · simp only [hp, if_true, Option.some.injEq] at hf
      subst hf
      cases hg : dag.get x with
      | none => simp [Dag.parents, hg] at hp
      | some c => exact ⟨c, rfl, by simpa [Dag.parents, hg] using hp⟩
    · simp [hp] at hf

/-! ## What the recorded operations say about one document -/

/-- a staged operation speaks about the document it names, and about no other -/
theorem after_stored (h : op.StagedAs w) (d : DocId) :
    (Ops.after d (operationsAsStored [op] [w])).isSome ↔ op.docId? = some d := by
  cases op with
  | write e patch replace =>
    obtain ⟨body, rfl⟩ := isSome_iff_exists.1 h
    by_cases he : e = d <;> simp [operationsAsStored, Ops.after, Op.after, Op.docId?, Json.rootObject]
  | delete e => by_cases he : e = d <;> simp [operationsAsStored, Ops.after, Op.after, Op.docId?]
  | schemaMigration m payload =>
    have hw : w = none := h
    simp [operationsAsStored, Ops.after, Op.after, Op.docId?]

/-- the recorded operations speak about exactly the documents the transaction touches -/
theorem after_isSome_iff (h : List.Forall₂ Op.StagedAs ops writes) (d : DocId) :
    (Ops.after d (operationsAsStored ops writes)).isSome ↔ Touches ops d := by
  induction h with
  | nil => simp [operationsAsStored, Ops.after, Touches]
  | @cons op w ops writes hop _ ih =>
    rw [operationsAsStored_cons, after_append, isSome_or, Bool.or_eq_true, Touches, exists_mem_cons_iff, ← Touches, ← ih, after_stored hop d,
      or_comm]

theorem Stages.cons (h : Stages ops writes d body) : Stages (op :: ops) (w :: writes) d body := by
  obtain ⟨i, patch, replace, h1, h2⟩ := h
  exact ⟨i + 1, patch, replace, by simpa using h1, by simpa using h2⟩

theorem stages_of_after (h : List.Forall₂ Op.StagedAs ops writes)
    (ha : Ops.after d (operationsAsStored ops writes) = some (some body)) : Stages ops writes d body := by
  induction h with
  | nil => simp [operationsAsStored, Ops.after] at ha
  | @cons op w ops writes hop _ ih =>
    rw [operationsAsStored_cons, after_append, or_eq_some_iff] at ha
    rcases ha with ha | ⟨-, ha⟩
    · exact (ih ha).cons
    · cases op with
      | write e patch replace =>
        obtain ⟨b, rfl⟩ := isSome_iff_exists.1 hop
        by_cases he : e = d
        · have hb : b = body := by simpa [operationsAsStored, Ops.after, Op.after, Json.rootObject, he] using ha
          exact ⟨0, patch, replace, by simp [he], by simp [hb]⟩
        · simp [operationsAsStored, Ops.after, Op.after, he] at ha
      | delete e => by_cases he : e = d <;> simp [operationsAsStored, Ops.after, Op.after] at ha
      | schemaMigration m payload => cases w <;> simp [operationsAsStored, Ops.after, Op.after] at ha

/-- without a custom resolver to rewrite them, a plan's writes are those of the schema phase -/
theorem Planned.writes_eq (h : Planned S E ns tx anchor base baseline target p)
    (hcustom : E.conflictPolicy = .custom → ∀ d, Touches tx.operations d → base[d]? = target[d]?) :
    p.writes = (runSchemaPhase S ns.schema baseline tx.operations).writes := by
  obtain ⟨guarded, -, hw⟩ := h.settled
  refine (settleConflicts_ok hw).resolve_right ?_
  rintro ⟨hpol, hne, -⟩
  refine hne (filterMap_eq_nil_iff.2 ?_)
  rintro ⟨⟨op, w⟩, i⟩ hi
  obtain ⟨h1, -⟩ := List.getElem?_zip_eq_some.1 (mem_zipIdx_iff_getElem?.1 hi)
  have htouch : ∀ d, op.docId? = some d → base[d]? = target[d]? := by
    intro d hd
    exact hcustom hpol d ⟨op, mem_of_getElem? h1, hd⟩
  unfold operationConflict
  cases op with
  | write d p r => simp [htouch d rfl]
  | delete d => simp [htouch d rfl]
  | schemaMigration m p => simp

section Recorded

variable (h : Planned S E ns tx anchor base baseline target p)
include h

theorem Planned.recorded_eq : p.recorded.operations = operationsAsStored tx.operations p.writes := by
  rw [PreparedCommit.recorded, h.tx_eq]

theorem Planned.after_isSome (d : DocId) : (Ops.after d p.recorded.operations).isSome ↔ Touches tx.operations d := by
  rw [h.recorded_eq, after_isSome_iff h.staged]

/-- without a custom resolver a plan records the fold of its operations over the baseline document -/
theorem Planned.fold (hcustom : E.conflictPolicy = .custom → ∀ d, Touches tx.operations d → base[d]? = target[d]?)
    (d : DocId) : foldDoc d baseline[d]? tx.operations = some ((Ops.after d p.recorded.operations).getD baseline[d]?) := by
  have hfold := schemaPhase_fold d h.accepted
  have hw : (schemaPhaseFrom S baseline 0 ns.schema (fun _ => none) tx.operations).writes = p.writes :=
    (h.writes_eq hcustom).symm
  rw [hw] at hfold
  rw [h.recorded_eq]
  simpa [Pending.current] using hfold

end Recorded

/-! ## Merges -/

/-- what the steps of a merge keep: `I` of a state and the head reached in it, `J` of every state the merge may end in -/
structure MergeRule (S : SchemaOps σ) (E : Engine) (primary merged : Hash) (I : Namespace σ → Hash → Prop)
    (J : Namespace σ → Prop) : Prop where
  clean : ∀ {ns head}, I ns head → ns.store.Clean
  ends : ∀ {ns head}, I ns head → J ns
  replay : ∀ {ns head tx message r}, I ns head → Outcome S E ns tx head head message r →
    J r.1 ∧ ∀ h, r.2 = .ok (.success h) → I r.1 h
  cap : ∀ {ns head hc tx dag h message}, I ns head → ns.dag.get head = some hc → tx.operations = [] →
    Dag.Appended ns.dag dag h (ns.dag.buildCommit tx [primary, merged] hc.tree hc.schemaHash message) (some head) →
    J { ns with dag := dag }

variable {primary merged head markerId : ℕ} {I : Namespace σ → Hash → Prop} {J : Namespace σ → Prop}

section

variable (R : MergeRule S E primary merged I J)
include R

theorem MergeRule.mergeSteps (ancestorTree : Tree) (hs : List Hash) (docs : Pending)
    (h : I ns head) : J (E.mergeSteps S ancestorTree hs ns docs head).1 ∧
      ∀ tip, (E.mergeSteps S ancestorTree hs ns docs head).2 = .ok (.ok tip) →
        I (E.mergeSteps S ancestorTree hs ns docs head).1 tip := by
  induction hs generalizing ns docs head with
  | nil =>
    refine ⟨R.ends h, ?_⟩
    rintro tip ⟨⟩
    exact h
  | cons x hs ih =>
    unfold Engine.mergeSteps
    cases hx : ns.dag.get x with
    | none => exact ⟨R.ends h, by simp⟩
    | some mc =>
      by_cases hops : mc.operations = []
      · simp only [hops]
        exact ih docs h
      · simp only [hops]
        cases hh : ns.dag.get head with
        | none => exact ⟨R.ends h, by simp⟩
        | some hc =>
          simp only
          -- the replay of one branch commit, by its three outcomes
          obtain ⟨hends, hnext⟩ := R.replay h (replay_outcome (S := S) E (R.clean h) (mergeStep mc head
            (rebaseOps ancestorTree hc.tree docs (fun _ => none) mc.operations).2) head s!"merge-step:{x}")
          generalize E.replay S ns (mergeStep mc head
            (rebaseOps ancestorTree hc.tree docs (fun _ => none) mc.operations).2) head s!"merge-step:{x}" = r at *
          obtain ⟨ns', res⟩ := r
          cases res with
          | error e => exact ⟨hends, by simp⟩
          | ok result =>
            cases result with
            | rejected reason => exact ⟨hends, by simp⟩
            | success h' => exact ih _ (hnext h' rfl)

theorem MergeRule.capMerge {now : ℕ} {message : String} (h : I ns head) :
    J (Kdb.capMerge ns primary merged head markerId now message).1 := by
  unfold Kdb.capMerge
  split
  · exact R.ends h
  · rename_i hh
    split
    · exact R.ends h
    · split
      · exact R.ends h
      · split
        · exact R.ends h
        · exact R.cap h hh rfl (Dag.append_cases ‹_›)

/-- **Merge.** What holds of every state its steps may leave holds after it. -/
theorem MergeRule.merge {hexLe : Hash → Hash → Bool} {now : ℕ} {message : String}
    (h : I ns primary) : J (E.merge S hexLe ns primary merged markerId now message).1 := by
  unfold Engine.merge
  split
  · exact R.ends h
  · split
    · exact R.ends h
    · rename_i ancestor _ _ ac _
      obtain ⟨hends, htip⟩ := R.mergeSteps ac.tree (branchOrder hexLe ns.dag merged ancestor) (fun _ => none) h
      generalize E.mergeSteps S ac.tree (branchOrder hexLe ns.dag merged ancestor) ns (fun _ => none) primary = r at *
      obtain ⟨ns', res⟩ := r
      cases res with
      | error e => exact hends
      | ok res =>
        cases res with
        | error reason => exact hends
        | ok tip => exact R.capMerge (htip tip rfl)

end

end EngineSpec

end Kdb
