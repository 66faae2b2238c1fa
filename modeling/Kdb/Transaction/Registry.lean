/-
The unique-key registry is the registry of main's head: an invariant of runs of Commit, Upsert and Replay calls.

The registry moves by each transaction's plan, which claims the keys of every staged write, the intermediate versions
of a document included. So the invariant holds for transactions whose intermediate versions hold no key that the
version left behind does not hold (`KeysSettle`), and fails as soon as one does.
- `registry_of_head`: the registry is what `rebuild` computes from the tree of main's head, in every run whose calls
  meet the condition.
- `phantom_claim`: a transaction that writes a document twice leaves the first version's key claimed.
-/
import Kdb.Transaction.Trees

namespace Kdb

open Machine Option

variable {σ : Type}

/-! ## The condition -/

/-- the document a write names -/
def Op.writtenId? : Op → Option DocId
  | .write d _ _ => some d
  | _ => none

/-- the operation is a schema migration -/
def Op.isMigration : Op → Bool
  | .schemaMigration _ _ => true
  | _ => false

/-- the keys a document holds after operations over a base tree -/
def keysAfter (tuples : List (List FieldPath)) (base : Tree) (d : DocId) (ops : List Op) : List UniqueKey :=
  match foldDoc d base[d]? ops with
  | some state => keysOf tuples state
  | none => []

/-- every key of every version a transaction writes is a key of the version it leaves behind -/
def KeysSettle (tuples : List (List FieldPath)) (base : Tree) (ops : List Op) : Prop :=
  ∀ i < ops.length, ∀ d ∈ ops[i]?.bind Op.writtenId?,
    ∀ k ∈ keysAfter tuples base d (ops.take (i + 1)), k ∈ keysAfter tuples base d ops

instance (tuples : List (List FieldPath)) (base : Tree) (ops : List Op) : Decidable (KeysSettle tuples base ops) := by
  unfold KeysSettle
  infer_instance

variable (S : SchemaOps σ)

/-- the engine enforces the registry, the transaction migrates no schema, its keys settle over the tree of its base
version, and a custom resolver has no conflict to rewrite -/
def TxSettles (ns : Namespace σ) (E : Engine) (tx : Transaction) (baseVersion : Hash) : Prop :=
  E.uniqueKeys = true ∧ (∀ op ∈ tx.operations, op.isMigration = false) ∧
    ∀ b ∈ ns.dag.get baseVersion, ∀ a ∈ ns.dag.get ns.dag.main,
      KeysSettle (S.uniqueTuples ns.schema) b.tree tx.operations ∧
        (E.conflictPolicy = .custom → ∀ op ∈ tx.operations, ∀ d ∈ op.docId?, b.tree[d]? = a.tree[d]?)

instance (S : SchemaOps σ) (ns : Namespace σ) (E : Engine) (tx : Transaction) (baseVersion : Hash) :
    Decidable (TxSettles S ns E tx baseVersion) := by
  unfold TxSettles
  infer_instance

/-- a commit or a replay onto main's head whose transaction settles its keys -/
def Call.Settles (ns : Namespace σ) : Call → Prop
  | .commit E tx _ => TxSettles S ns E tx tx.baseVersion
  | .replay E tx target _ => target = ns.dag.main ∧ TxSettles S ns E tx target
  | .merge _ _ _ _ _ _ => False

instance (S : SchemaOps σ) (ns : Namespace σ) (c : Call) : Decidable (c.Settles S ns) :=
  match c with
  | .commit .. | .replay .. | .merge .. => by unfold Call.Settles; infer_instance

/-! ## The invariant -/

/-- trees stand, the schema is the namespace's, and the registry is the registry of main's head -/
structure RegistryInv (schema : σ) (ns : Namespace σ) : Prop where
  trees : TreeInv ns
  schema_eq : ns.schema = schema
  registry : ∀ c, ns.dag.get ns.dag.main = some c → IsRegistryOf (S.uniqueTuples schema) c.tree ns.owners

variable {S : SchemaOps σ} {baseline target : Tree} {ops : List Op} {rolling schema : σ} {ns : Namespace σ}
  {p : PreparedCommit σ} {tx : Transaction} {baseVersion : Hash} {message : String}

theorem schemaPhase_rolling {index : ℕ} {pending : Pending} (h : ∀ op ∈ ops, op.isMigration = false) :
    (schemaPhaseFrom S baseline index rolling pending ops).rollingSchema = rolling := by
  induction ops generalizing index pending with
  | nil => rfl
  | cons op ops ih =>
    have htail : ∀ op ∈ ops, op.isMigration = false := fun o ho => h o (.tail _ ho)
    cases op with
    | write d patch replace =>
      rw [schemaPhaseFrom]
      cases candidate (pending.current baseline d) patch replace with
      | none => exact ih htail
      | some body =>
        simp only
        cases S.validate rolling body with
        | nil => exact ih htail
        | cons v vs => exact ih htail
    | delete d => exact ih htail
    | schemaMigration m payload => simpa [Op.isMigration] using h _ (List.mem_cons_self ..)

variable {E : Engine}

theorem Planned.rolling_eq {anchor : Hash} {base : Tree} (h : Planned S E ns tx anchor base baseline target p)
    (hm : ∀ op ∈ tx.operations, op.isMigration = false) : p.rollingSchema = ns.schema := by
  rw [h.rolling]
  exact schemaPhase_rolling hm

theorem checkUniqueKeys_ok (hu : E.uniqueKeys = true) {owners : Owners} {writes : List (Option Fields)}
    {p : UniquePlan} (h : E.checkUniqueKeys S rolling owners target ops writes = .ok p) :
    (planUniqueKeys (S.uniqueTuples rolling) owners target ops writes).2 = [] ∧
      (planUniqueKeys (S.uniqueTuples rolling) owners target ops writes).1 = p := by
  unfold Engine.checkUniqueKeys at h
  rw [if_pos hu] at h
  split at h
  · rename_i q heq
    simp only [Except.ok.injEq] at h
    rw [heq]
    exact ⟨rfl, h⟩
  · cases h

/-- the step: landing on main's head with settled keys moves the registry to the new head -/
theorem RegistryInv.landed {ns' : Namespace σ} {a b : Commit} {h : Hash} (hinv : RegistryInv S schema ns)
    (ha : ns.dag.get ns.dag.main = some a) (hb : ns.dag.get baseVersion = some b)
    (hs : TxSettles S ns E tx baseVersion) (hp : Planned S E ns tx ns.dag.main b.tree b.tree a.tree p)
    (hl : Landed S ns ns' p a message h) : RegistryInv S schema ns' := by
  obtain ⟨hu, hmig, hkeys⟩ := hs
  obtain ⟨hsettle, hcustom⟩ := hkeys b hb a ha
  have htrees : TreeInv ns' := by
    refine hinv.trees.landed ?_ (fun _ => hp.anchor_eq) hl
    rw [hp.anchor_eq]
    exact ha
  refine ⟨htrees, hl.schema.trans hinv.schema_eq, ?_⟩
  intro c hc
  rw [hl.appended.main, hl.appended.stored] at hc
  cases hc
  -- the tree appended is main's tree with the recorded operations applied
  have hget : ∀ d : DocId, (p.tree ns.store a.tree)[d]? = (Ops.after d p.recorded.operations).getD a.tree[d]? := by
    intro d
    rw [PreparedCommit.tree_eq fun hback => hinv.trees.live hback a ha, Tree.applyOps_get]
  have hroll := hp.rolling_eq hmig
  have hplain : E.conflictPolicy = .custom → ∀ d, Touches tx.operations d → b.tree[d]? = a.tree[d]? :=
    fun hpol d ⟨op, hop, hd⟩ => hcustom hpol op hop d hd
  obtain ⟨hviol, hplan⟩ := checkUniqueKeys_ok hu hp.uniques
  rw [hroll, hinv.schema_eq] at hviol hplan
  change IsRegistryOf _ (p.tree ns.store a.tree) ns'.owners
  rw [hl.owners, ← hplan]
  refine (hinv.registry a ha).apply hviol ?_ ?_ ?_
  · intro d ht
    rw [hget, not_isSome_iff_eq_none.1 (mt (hp.after_isSome d).1 ht)]
    rfl
  · intro d body ht hd
    obtain ⟨st, hst⟩ := isSome_iff_exists.1 ((hp.after_isSome d).2 ht)
    rw [hget, hst] at hd
    have hbody : st = some body := hd
    exact stages_of_after hp.staged (hp.recorded_eq ▸ hbody ▸ hst)
  · -- a staged version's keys are keys of the version left, by the condition read through the fold
    rintro d body ⟨i, patch, replace, hi, hw⟩ k hk
    have htake := schemaPhase_fold_take hp.accepted hi (hp.writes_eq hplain ▸ hw)
    have htouch : Touches tx.operations d := ⟨_, List.mem_of_getElem? hi, rfl⟩
    obtain ⟨st, hst⟩ := isSome_iff_exists.1 ((hp.after_isSome d).2 htouch)
    have hlt : i < tx.operations.length := (List.getElem?_eq_some_iff.1 hi).1
    have hin := hsettle i hlt d (by simp [hi, Op.writtenId?]) k (by
      rw [hinv.schema_eq]
      have h0 : foldDoc d b.tree[d]? (tx.operations.take (i + 1)) = some (some body) := htake
      simpa [keysAfter, h0, keysOf] using hk)
    rw [hget, hst]
    have h1 : foldDoc d b.tree[d]? tx.operations = some st := by
      rw [hp.fold hplain, hst]
      rfl
    rw [hinv.schema_eq] at hin
    simpa [keysAfter, h1] using hin

theorem RegistryInv.outcome {r : Namespace σ × Except EngineError TransactionResult} (hinv : RegistryInv S schema ns)
    (hs : TxSettles S ns E tx baseVersion) (ho : Outcome S E ns tx ns.dag.main baseVersion message r) :
    RegistryInv S schema r.1 := by
  cases ho with
  | refused _ => exact hinv
  | found _ => exact hinv
  | landed ha hb _ hp hl => exact hinv.landed ha hb hs hp hl

theorem RegistryInv.init (S : SchemaOps σ) (backend : Backend) (treeStore : Bool) (schema : σ) :
    RegistryInv S schema (Namespace.init backend treeStore schema) := by
  refine ⟨TreeInv.init backend treeStore schema, rfl, ?_⟩
  intro c hc
  obtain rfl : _ = c := Option.some.inj hc
  intro k d
  simp [Namespace.init, keysOf]

theorem RegistryInv.step (hexLe : Hash → Hash → Bool) (hinv : RegistryInv S schema ns) (c : Call)
    (hs : c.Settles S ns) : RegistryInv S schema (callStep S hexLe ns c) := by
  cases c with
  | commit E tx message => exact hinv.outcome hs (commit_outcome E hinv.trees.clean tx message)
  | replay E tx target message =>
    obtain ⟨rfl, hs⟩ := hs
    exact hinv.outcome hs (replay_outcome E hinv.trees.clean tx ns.dag.main message)
  | merge E primary merged markerId now message => exact hs.elim

/-- **The registry is always the registry of the head.** In every run of commits (upserts included) and replays onto
main's head whose transactions settle their keys: `rebuild` of the tree of main's head succeeds and computes exactly the
registry, every key tuple belongs to exactly the document holding it, and no two documents of the head share one. -/
theorem registry_of_head (S : SchemaOps σ) (hexLe : Hash → Hash → Bool) (backend : Backend) (treeStore : Bool)
    (schema : σ) (calls : List Call)
    (hg : Along (callStep S hexLe) (fun ns c => c.Settles S ns) (Namespace.init backend treeStore schema) calls) :
    let ns := run (callStep S hexLe) (Namespace.init backend treeStore schema) calls
    ∃ c, ns.dag.get ns.dag.main = some c ∧ rebuild (S.uniqueTuples schema) c.tree = .ok ns.owners ∧
      (∀ k d, ns.owners k = some d ↔ k ∈ keysOf (S.uniqueTuples schema) c.tree[d]?) ∧
      ∀ (k : UniqueKey) (d e : DocId), k ∈ keysOf (S.uniqueTuples schema) c.tree[d]? →
        k ∈ keysOf (S.uniqueTuples schema) c.tree[e]? → d = e := by
  intro ns
  have hinv : RegistryInv S schema ns :=
    run_of_step (fun ns c hc hi => hi.step hexLe c hc) hg (RegistryInv.init S backend treeStore schema)
  obtain ⟨c, hc⟩ := isSome_iff_exists.1 hinv.trees.head
  have hreg := hinv.registry c hc
  refine ⟨c, hc, hreg.rebuild, hreg, ?_⟩
  intro k d e hd he
  exact hreg.unique hd he

/-! ## Closed runs -/

/-- a namespace whose documents are unique in the field `k` -/
def SchemaOps.uniqueK : SchemaOps Unit := { SchemaOps.schemaless with uniqueTuples := fun _ => [[["k"]]] }

/-- an engine under STRICT with the registry and preconditions wired -/
def Engine.guarded : Engine := ⟨.strict, none, true, true⟩

/-- the key `n` of the constraint on `k` -/
def keyK (n : ℤ) : UniqueKey := ⟨[["k"]], [.num n]⟩

/-- two documents swap their keys in one transaction -/
def swappedKeys : List Call :=
  [.commit .guarded ⟨11, 0, [.write 1 (.obj [("k", .num 1)]) false, .write 2 (.obj [("k", .num 2)]) false], 10, 7, []⟩ "",
    .commit .guarded ⟨12, 1, [.write 1 (.obj [("k", .num 2)]) false, .write 2 (.obj [("k", .num 1)]) false], 11, 7, []⟩ ""]

theorem registry_of_head_swappedKeys :
    let ns := run (callStep .uniqueK (· ≤ ·)) (Namespace.init .server true ()) swappedKeys
    ns.owners (keyK 1) = some 2 ∧
      ∃ c, ns.dag.get ns.dag.main = some c ∧ rebuild (SchemaOps.uniqueK.uniqueTuples ()) c.tree = .ok ns.owners := by
  obtain ⟨c, hc, hr, -, -⟩ := registry_of_head .uniqueK (· ≤ ·) .server true () swappedKeys (by decide +kernel)
  exact ⟨by decide +kernel, c, hc, hr⟩

/-- document 1 is written with key 1 and then, in the same transaction, with key 2; document 2 then asks for key 1 -/
def rewrittenKey : List Call :=
  [.commit .guarded ⟨11, 0, [.write 1 (.obj [("k", .num 1)]) false, .write 1 (.obj [("k", .num 2)]) false], 10, 7, []⟩ ""]

/-- A document written twice in one transaction keeps the first version's key in the registry: the head's document 1
holds key 2 only, a rebuild leaves key 1 free, the registry has it with document 1, and a write of key 1 to another
document is refused. -/
theorem phantom_claim :
    let ns := run (callStep .uniqueK (· ≤ ·)) (Namespace.init .server true ()) rewrittenKey
    ns.owners (keyK 1) = some 1 ∧
      ((ns.dag.get ns.dag.main).map fun c => (c.tree[(1 : DocId)]?,
        (rebuild (SchemaOps.uniqueK.uniqueTuples ()) c.tree).toOption.map fun o => o (keyK 1))) =
        some (some [("k", .num 2)], some none) ∧
      (match ((Call.commit .guarded (writeTx 12 1 2 [("k", .num 1)]) "").exec .uniqueK (· ≤ ·) ns).2 with
        | .ok (.rejected (.schemaError [v])) => v.violations.map (·.violationType)
        | _ => []) = [.uniqueConstraint] := by
  decide +kernel

end Kdb
