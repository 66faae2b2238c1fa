/-
The unique-key registry (`transaction/unique_registry.go`).

The registry maps each claimed key tuple to the document holding it. `uniqueKeysFor` lists the keys a body claims
(absent and null parts claim nothing, an array claims each element, a compound tuple every combination),
`planUniqueKeys` resolves a transaction's effect on the registry, `UniquePlan.apply` moves it and `rebuild` computes it
from a tree. One namespace, so keys carry no namespace; a key's value is the tuple of canonical values its canonical
JSON text stands for.
- `IsRegistryOf.rebuild`: where a tree has a registry (each key held by one document), `rebuild` computes it.
- `planUniqueKeys_spec`: what a plan without violations claims and retracts.
- `IsRegistryOf.apply`: the plan moves the registry of the target tree to that of the new tree, when the keys a
  transaction stages are settled.
-/
import Kdb.Transaction.Types

namespace Kdb

open Function (update update_of_ne update_self)
open List

/-- `UniqueKey`: the constraint's fields and the canonical values of its parts -/
structure UniqueKey where
  fields : List FieldPath
  value : List Json
  deriving DecidableEq

/-- a registry, or one of the maps a plan collects: keys to document ids -/
abbrev Owners := UniqueKey → Option DocId

/-! ## The keys a body claims -/

/-- members sorted by key, as `encoding/json` marshals a map -/
def sortMembers (f : Fields) : Fields := f.insertionSort fun a b => a.1 ≤ b.1

mutual
/-- the value `canonicalTuple` prints: object members sorted at every depth -/
def Json.canonical : Json → Json
  | .arr elements => .arr (Json.canonicalList elements)
  | .obj fields => .obj (sortMembers (Json.canonicalFields fields))
  | v => v
/-- canonical elements -/
def Json.canonicalList : List Json → List Json
  | [] => []
  | v :: vs => v.canonical :: Json.canonicalList vs
/-- canonical member values -/
def Json.canonicalFields : List (String × Json) → List (String × Json)
  | [] => []
  | (k, v) :: rest => (k, v.canonical) :: Json.canonicalFields rest
end

/-- `schema.FieldValue`: nothing when a part is missing or not an object -/
def fieldValue : Json → FieldPath → Option Json
  | v, [] => some v
  | .obj fields, k :: rest => (Fields.get fields k).bind fun v => fieldValue v rest
  | _, _ :: _ => none

/-- `multikeyValues`: what one constraint part claims -/
def multikeyValues : Option Json → List Json
  | none => []
  | some .null => []
  | some (.arr elements) => elements.filter (· ≠ .null)
  | some v => [v]

/-- `combinations`: the cartesian product of the parts' values, in field order -/
def combinations (choices : List (List Json)) : List (List Json) :=
  choices.foldl (fun out values => out.flatMap fun front => values.map fun v => front ++ [v]) [[]]

/-- `UniqueKeysFor`: one key per combination of each unique tuple, repeated keys once -/
def uniqueKeysFor (tuples : List (List FieldPath)) (body : Fields) : List UniqueKey :=
  (tuples.flatMap fun fields =>
    (combinations (fields.map fun name => multikeyValues (fieldValue (.obj body) name))).map fun parts =>
      ⟨fields, parts.map Json.canonical⟩).dedup

/-- the keys of a document that may be absent -/
def keysOf (tuples : List (List FieldPath)) : Option Fields → List UniqueKey
  | some body => uniqueKeysFor tuples body
  | none => []

/-! ## Planning and applying -/

structure UniquePlan where
  retract : Owners
  claim : Owners

/-- a claim a staged write makes -/
structure Claim where
  opIndex : ℕ
  op : Op
  docId : DocId
  key : UniqueKey

/-- `FieldName`: the field of a single-field constraint, the parenthesised list of a compound one -/
def UniqueKey.fieldName (k : UniqueKey) : String :=
  match k.fields.map (String.intercalate ".") with
  | [name] => name
  | names => "(" ++ String.intercalate ", " names ++ ")"

def uniqueViolation (c : Claim) (owner : DocId) : OperationViolation where
  opIndex := c.opIndex
  op := some c.op
  violations := [⟨c.key.fieldName, .uniqueConstraint, "value already held by document " ++ DocId.text owner⟩]

variable (tuples : List (List FieldPath))

/-- pass one: the keys held in the target tree by the documents the operations touch -/
def releasedBy (target : Tree) (ops : List Op) : Owners :=
  ops.foldl (fun m op =>
    match op.docId? with
    | some d => (keysOf tuples target[d]?).foldl (fun m k => update m k (some d)) m
    | none => m) fun _ => none

/-- the claims of pass two, in order: every key of every staged write -/
def claimsOf (ops : List Op) (writes : List (Option Fields)) : List Claim :=
  (ops.zip writes).zipIdx.flatMap fun e =>
    match e.1.1, e.1.2 with
    | .write d _ _, some body => (uniqueKeysFor tuples body).map fun k => ⟨e.2, e.1.1, d, k⟩
    | _, _ => []

/-- the holder that stands against a claim: another document that holds the key and does not release it -/
def heldAgainst (owners released : Owners) (c : Claim) : Option DocId :=
  match owners c.key with
  | none => none
  | some owner => if owner = c.docId ∨ released c.key = some owner then none else some owner

/-- the document a claim is refused for: another claimant of this transaction, then the holder -/
def claimRefusedFor (owners released claimed : Owners) (c : Claim) : Option DocId :=
  match claimed c.key with
  | some claimant => if claimant ≠ c.docId then some claimant else heldAgainst owners released c
  | none => heldAgainst owners released c

/-- one claim of pass two; a key the document claims again is no longer retracted -/
def claimKey (owners released : Owners) (s : UniquePlan × List OperationViolation) (c : Claim) :
    UniquePlan × List OperationViolation :=
  match claimRefusedFor owners released s.1.claim c with
  | some owner => (s.1, s.2 ++ [uniqueViolation c owner])
  | none =>
    (⟨if s.1.retract c.key = some c.docId then update s.1.retract c.key none else s.1.retract,
      update s.1.claim c.key (some c.docId)⟩, s.2)

def planUniqueKeys (owners : Owners) (target : Tree) (ops : List Op) (writes : List (Option Fields)) :
    UniquePlan × List OperationViolation :=
  let released := releasedBy tuples target ops
  (claimsOf tuples ops writes).foldl (claimKey owners released) (⟨released, fun _ => none⟩, [])

/-- `UniqueKeyRegistry.Apply`: retract what the retracting document still owns, then claim -/
def UniquePlan.apply (p : UniquePlan) (owners : Owners) : Owners := fun k =>
  match p.claim k with
  | some d => some d
  | none => if p.retract k = owners k then none else owners k

/-- one document of the scan of `Rebuild` -/
def rebuildDoc (fresh : Owners) (d : DocId) (keys : List UniqueKey) : Except (UniqueKey × DocId × DocId) Owners :=
  keys.foldlM (fun fresh k =>
    match fresh k with
    | some owner => if owner ≠ d then .error (k, owner, d) else .ok (update fresh k (some d))
    | none => .ok (update fresh k (some d))) fresh

/-- `Rebuild`: scan the tree, fail on a key two documents hold -/
def rebuild (tree : Tree) : Except (UniqueKey × DocId × DocId) Owners :=
  tree.toList.foldlM (fun fresh e => rebuildDoc fresh e.1 (uniqueKeysFor tuples e.2)) fun _ => none

/-! ## The registry of a tree -/

/-- `owners` is the registry of `tree`: a key belongs to a document exactly when the document holds it -/
def IsRegistryOf (tree : Tree) (owners : Owners) : Prop :=
  ∀ k d, owners k = some d ↔ k ∈ keysOf tuples tree[d]?

variable {tuples}

variable {d : DocId} {k : UniqueKey} {owners released : Owners} {tree target : Tree} {ops : List Op}
  {writes : List (Option Fields)} {c : Claim} {s : UniquePlan × List OperationViolation} {done : List Claim}

/-- no two documents of a tree with a registry share a key -/
theorem IsRegistryOf.unique (h : IsRegistryOf tuples tree owners) {e : DocId} (hd : k ∈ keysOf tuples tree[d]?)
    (he : k ∈ keysOf tuples tree[e]?) : d = e := by
  have h1 := (h k d).2 hd
  have h2 := (h k e).2 he
  exact Option.some.inj (h1.symm.trans h2)

theorem rebuildDoc_eq {fresh : Owners} {keys : List UniqueKey} (h : ∀ k ∈ keys, ∀ e, fresh k = some e → e = d) :
    rebuildDoc fresh d keys = .ok fun k => if k ∈ keys then some d else fresh k := by
  induction keys generalizing fresh with
  | nil => simp [rebuildDoc, pure, Except.pure]
  | cons k keys ih =>
    have hstep : rebuildDoc fresh d (k :: keys) = rebuildDoc (update fresh k (some d)) d keys := by
      unfold rebuildDoc
      rw [foldlM_cons]
      cases hf : fresh k with
      | none => rfl
      | some e =>
        have he : e = d := h k (mem_cons_self ..) e hf
        simp [he, bind, Except.bind]
    rw [hstep, ih]
    · congr 1
      funext x
      by_cases hx : x = k <;> simp [hx]
    · intro x hx e he
      by_cases hxk : x = k
      · subst hxk
        simpa using he.symm
      · rw [update_of_ne hxk] at he
        exact h x (.tail _ hx) e he

/-- the scan of a list of documents none of which shares a key with another -/
theorem rebuild_scan (docs : List (DocId × Fields))
    (hdocs : ∀ p ∈ docs, ∀ q ∈ docs, ∀ k ∈ uniqueKeysFor tuples p.2, k ∈ uniqueKeysFor tuples q.2 → p.1 = q.1) :
    ∃ o, docs.foldlM (fun fresh e => rebuildDoc fresh e.1 (uniqueKeysFor tuples e.2)) (fun _ => none) = .ok o ∧
      ∀ k d, o k = some d ↔ ∃ p ∈ docs, p.1 = d ∧ k ∈ uniqueKeysFor tuples p.2 := by
  induction docs using List.reverseRecOn with
  | nil => exact ⟨_, rfl, by simp⟩
  | append_singleton docs p ih =>
    have hin : ∀ q ∈ docs, q ∈ docs ++ [p] := fun q hq => mem_append_left _ hq
    have hlast : p ∈ docs ++ [p] := by simp
    obtain ⟨o, ho, hspec⟩ := ih fun a ha b hb => hdocs a (hin a ha) b (hin b hb)
    have hown : ∀ k ∈ uniqueKeysFor tuples p.2, ∀ e, o k = some e → e = p.1 := by
      intro k hk e he
      obtain ⟨q, hq, rfl, hqk⟩ := (hspec k e).1 he
      exact hdocs q (hin q hq) p hlast k hqk hk
    refine ⟨fun k => if k ∈ uniqueKeysFor tuples p.2 then some p.1 else o k, ?_, fun k d => ?_⟩
    · rw [foldlM_append, ho]
      exact congrArg (· >>= pure) (rebuildDoc_eq hown)
    · by_cases hk : k ∈ uniqueKeysFor tuples p.2
      · simp only [hk, if_true, Option.some.injEq]
        constructor
        · rintro rfl
          exact ⟨p, hlast, rfl, hk⟩
        · rintro ⟨q, hq, rfl, hqk⟩
          exact hdocs p hlast q hq k hk hqk
      · simp [hk, hspec]

theorem mem_keysOf :
    k ∈ keysOf tuples tree[d]? ↔ ∃ body, (d, body) ∈ tree.toList ∧ k ∈ uniqueKeysFor tuples body := by
  simp only [Std.ExtTreeMap.mem_toList_iff_getElem?_eq_some]
  cases tree[d]? <;> simp [keysOf]

/-- **Rebuild computes the registry of the tree.** Where every key belongs to the one document holding it, the scan
meets no duplicate and files exactly that. -/
theorem IsRegistryOf.rebuild (h : IsRegistryOf tuples tree owners) : rebuild tuples tree = .ok owners := by
  have hdocs : ∀ p ∈ tree.toList, ∀ q ∈ tree.toList, ∀ k ∈ uniqueKeysFor tuples p.2,
      k ∈ uniqueKeysFor tuples q.2 → p.1 = q.1 := by
    intro p hp q hq k hkp hkq
    exact h.unique (mem_keysOf.2 ⟨p.2, hp, hkp⟩) (mem_keysOf.2 ⟨q.2, hq, hkq⟩)
  obtain ⟨o, ho, hspec⟩ := rebuild_scan tree.toList hdocs
  have hoeq : o = owners := by
    funext k
    apply Option.ext
    intro d
    rw [hspec, h, mem_keysOf]
    constructor
    · rintro ⟨p, hp, rfl, hk⟩
      exact ⟨p.2, hp, hk⟩
    · rintro ⟨body, hb, hk⟩
      exact ⟨(d, body), hb, rfl, hk⟩
  rw [Kdb.rebuild, ho, hoeq]

/-! ## What a plan does -/

theorem foldl_update_get (ks : List UniqueKey) (m : Owners) (d : DocId) (k : UniqueKey) :
    ks.foldl (fun m k => update m k (some d)) m k = if k ∈ ks then some d else m k := by
  induction ks generalizing m with
  | nil => simp
  | cons x ks ih =>
    rw [foldl_cons, ih]
    by_cases hx : k = x <;> simp [hx]

/-- an operation names a document -/
def Touches (ops : List Op) (d : DocId) : Prop := ∃ op ∈ ops, op.docId? = some d

theorem releasedBy_snoc (target : Tree) (ops : List Op) (op : Op) (k : UniqueKey) :
    releasedBy tuples target (ops ++ [op]) k =
      match op.docId? with
      | some d => if k ∈ keysOf tuples target[d]? then some d else releasedBy tuples target ops k
      | none => releasedBy tuples target ops k := by
  unfold releasedBy
  rw [foldl_append, foldl_cons]
  cases op.docId? with
  | none => rfl
  | some d => exact foldl_update_get _ _ d k

/-- a released key is one a touched document holds in the target tree, and all of those are released -/
theorem releasedBy_iff (h : IsRegistryOf tuples target owners) (ops : List Op) (k : UniqueKey) (d : DocId) :
    releasedBy tuples target ops k = some d ↔ Touches ops d ∧ k ∈ keysOf tuples target[d]? := by
  induction ops using List.reverseRecOn with
  | nil => simp [releasedBy, Touches]
  | append_singleton ops op ih =>
    rw [releasedBy_snoc]
    have htouch : Touches (ops ++ [op]) d ↔ Touches ops d ∨ op.docId? = some d := by
      simp [Touches]
    cases hop : op.docId? with
    | none => simp [htouch, hop, ih]
    | some e =>
      by_cases hk : k ∈ keysOf tuples target[e]?
      · simp only [hk, if_true, htouch, hop, Option.some.injEq]
        constructor
        · rintro rfl
          exact ⟨.inr rfl, hk⟩
        · rintro ⟨-, hkd⟩
          exact h.unique hk hkd
      · simp only [hk, if_false, htouch, hop, ih, Option.some.injEq]
        constructor
        · rintro ⟨ht, hkd⟩
          exact ⟨.inl ht, hkd⟩
        · rintro ⟨ht | rfl, hkd⟩
          · exact ⟨ht, hkd⟩
          · exact absurd hkd hk

/-- some write of document `d` stages `body` -/
def Stages (ops : List Op) (writes : List (Option Fields)) (d : DocId) (body : Fields) : Prop :=
  ∃ (i : ℕ) (patch : Json) (replace : Bool), ops[i]? = some (Op.write d patch replace) ∧ writes[i]? = some (some body)

/-- the claims are the keys of the staged writes -/
theorem mem_claimsOf :
    (∃ c ∈ claimsOf tuples ops writes, c.key = k ∧ c.docId = d) ↔
      ∃ body, Stages ops writes d body ∧ k ∈ uniqueKeysFor tuples body := by
  simp only [claimsOf, mem_flatMap, mem_zipIdx_iff_getElem?]
  constructor
  · rintro ⟨c, ⟨⟨⟨op, w⟩, i⟩, hi, hc⟩, rfl, rfl⟩
    obtain ⟨h1, h2⟩ := List.getElem?_zip_eq_some.1 hi
    cases op with
    | write d patch replace =>
      cases w with
      | none => simp at hc
      | some body =>
        obtain ⟨k, hk, rfl⟩ := mem_map.1 hc
        exact ⟨body, ⟨i, patch, replace, h1, h2⟩, hk⟩
    | delete d => simp at hc
    | schemaMigration m p => simp at hc
  · rintro ⟨body, ⟨i, patch, replace, h1, h2⟩, hk⟩
    refine ⟨⟨i, .write d patch replace, d, k⟩, ⟨((.write d patch replace, some body), i), ?_, ?_⟩, rfl, rfl⟩
    · exact List.getElem?_zip_eq_some.2 ⟨h1, h2⟩
    · exact mem_map.2 ⟨k, hk, rfl⟩

/-- what is true after the claims `done` were accepted -/
structure PlanInv (owners released : Owners) (done : List Claim) (p : UniquePlan) : Prop where
  claim : ∀ k d, p.claim k = some d ↔ ∃ c ∈ done, c.key = k ∧ c.docId = d
  held : ∀ c ∈ done, heldAgainst owners released c = none
  retract : ∀ k d, p.retract k = some d ↔ released k = some d ∧ p.claim k ≠ some d

theorem claimKey_violations (owners released : Owners) (cs : List Claim)
    (s : UniquePlan × List OperationViolation) (h : (cs.foldl (claimKey owners released) s).2 = []) : s.2 = [] := by
  induction cs generalizing s with
  | nil => exact h
  | cons c cs ih =>
    have hc := ih _ h
    unfold claimKey at hc
    split at hc
    · simp at hc
    · exact hc

/-- an accepted claim, with the two reasons it could have been refused ruled out -/
theorem claimKey_accepted (h : (claimKey owners released s c).2 = []) :
    (∀ e, s.1.claim c.key = some e → e = c.docId) ∧ heldAgainst owners released c = none ∧
      (claimKey owners released s c).1 =
        ⟨if s.1.retract c.key = some c.docId then update s.1.retract c.key none else s.1.retract,
          update s.1.claim c.key (some c.docId)⟩ := by
  unfold claimKey at h ⊢
  cases hr : claimRefusedFor owners released s.1.claim c with
  | some owner => simp [hr] at h
  | none =>
    unfold claimRefusedFor at hr
    cases hcl : s.1.claim c.key with
    | none =>
      rw [hcl] at hr
      exact ⟨by simp, hr, rfl⟩
    | some e =>
      rw [hcl] at hr
      by_cases he : e = c.docId
      · simp only [he, ne_eq] at hr
        exact ⟨by simp [he], hr, rfl⟩
      · simp [he] at hr

theorem PlanInv.accept (hinv : PlanInv owners released done s.1) (h : (claimKey owners released s c).2 = []) :
    PlanInv owners released (done ++ [c]) (claimKey owners released s c).1 := by
  obtain ⟨hcl, hheld, heq⟩ := claimKey_accepted h
  rw [heq]
  refine ⟨?_, ?_, ?_⟩
  · intro k d
    by_cases hk : k = c.key
    · subst hk
      simp only [update_self, Option.some.injEq, mem_append, mem_singleton]
      constructor
      · rintro rfl
        exact ⟨c, .inr rfl, rfl, rfl⟩
      · rintro ⟨c', hc' | rfl, hk', rfl⟩
        · exact (hcl _ ((hinv.claim _ _).2 ⟨c', hc', hk', rfl⟩)).symm
        · rfl
    · simp only [update_of_ne hk, hinv.claim, mem_append, mem_singleton]
      constructor
      · rintro ⟨c', hc', hc⟩
        exact ⟨c', .inl hc', hc⟩
      · rintro ⟨c', hc' | rfl, hk', hd⟩
        · exact ⟨c', hc', hk', hd⟩
        · exact absurd hk'.symm hk
  · exact forall_mem_append.2 ⟨hinv.held, forall_mem_singleton.2 hheld⟩
  · intro k d
    by_cases hk : k = c.key
    · subst hk
      have hr := hinv.retract c.key
      by_cases hret : s.1.retract c.key = some c.docId
      · -- the document takes its own key back: the retraction is dropped
        have hrel := (hr _).1 hret
        simp only [hret, if_true, update_self, reduceCtorEq, false_iff, not_and, not_not]
        intro hd
        rw [hrel.1] at hd
        exact hd
      · simp only [hret, update_self, ne_eq, Option.some.injEq]
        constructor
        · intro hd
          refine ⟨((hr d).1 hd).1, ?_⟩
          rintro rfl
          exact hret hd
        · rintro ⟨hrel, hne⟩
          refine (hr d).2 ⟨hrel, ?_⟩
          intro hcd
          exact hne (hcl d hcd).symm
    · have hsame : (if s.1.retract c.key = some c.docId then update s.1.retract c.key none
          else s.1.retract) k = s.1.retract k := by
        split
        · exact update_of_ne hk _ _
        · rfl
      simp only [hsame, update_of_ne hk]
      exact hinv.retract k d

theorem PlanInv.fold {cs : List Claim} (hinv : PlanInv owners released done s.1)
    (h : (cs.foldl (claimKey owners released) s).2 = []) :
    PlanInv owners released (done ++ cs) (cs.foldl (claimKey owners released) s).1 := by
  induction cs generalizing done s with
  | nil => simpa using hinv
  | cons c cs ih =>
    have hc := claimKey_violations owners released cs _ h
    have := ih (hinv.accept hc) h
    simpa using this

/-- **What a plan without violations does.** It claims exactly the keys of the staged writes, each for one document;
a key somebody else holds is claimed only when the holder is touched and held it in the target tree; and it retracts
what the touched documents held and do not claim again. -/
theorem planUniqueKeys_spec (h : (planUniqueKeys tuples owners target ops writes).2 = []) :
    PlanInv owners (releasedBy tuples target ops) (claimsOf tuples ops writes)
      (planUniqueKeys tuples owners target ops writes).1 := by
  have hinit : PlanInv owners (releasedBy tuples target ops) []
      (⟨releasedBy tuples target ops, fun _ => none⟩, ([] : List OperationViolation)).1 :=
    ⟨by simp, by simp, by simp⟩
  exact hinit.fold h

/-- **The plan keeps the registry exact.** Let `owners` be the registry of the target tree, and `tree'` the tree the
staged operations make of it. If every key a staged write claims is held by the document the transaction leaves
behind, the applied plan is the registry of `tree'`. -/
theorem IsRegistryOf.apply {tree' : Tree} (hreg : IsRegistryOf tuples target owners)
    (hplan : (planUniqueKeys tuples owners target ops writes).2 = [])
    (huntouched : ∀ d, ¬ Touches ops d → tree'[d]? = target[d]?)
    (hstaged : ∀ d body, Touches ops d → tree'[d]? = some body → Stages ops writes d body)
    (hsettled : ∀ d body, Stages ops writes d body → ∀ k ∈ uniqueKeysFor tuples body, k ∈ keysOf tuples tree'[d]?) :
    IsRegistryOf tuples tree' ((planUniqueKeys tuples owners target ops writes).1.apply owners) := by
  have hinv := planUniqueKeys_spec hplan
  set p := (planUniqueKeys tuples owners target ops writes).1 with hp
  have hclaim : ∀ k d, p.claim k = some d ↔ ∃ body, Stages ops writes d body ∧ k ∈ uniqueKeysFor tuples body :=
    fun k d => (hinv.claim k d).trans mem_claimsOf
  have hrel := releasedBy_iff hreg ops
  -- the final body of a touched document was staged, so its keys were claimed for it
  have hfinal : ∀ k d, Touches ops d → k ∈ keysOf tuples tree'[d]? → p.claim k = some d := by
    intro k d ht hk
    cases hb : tree'[d]? with
    | none => simp [hb, keysOf] at hk
    | some body => exact (hclaim k d).2 ⟨body, hstaged d body ht hb, by simpa [hb, keysOf] using hk⟩
  intro k d
  unfold UniquePlan.apply
  cases hc : p.claim k with
  | some e =>
    simp only [Option.some.injEq]
    constructor
    · rintro rfl
      obtain ⟨body, hst, hk⟩ := (hclaim k e).1 hc
      exact hsettled e body hst k hk
    · intro hk
      by_cases ht : Touches ops d
      · exact Option.some.inj (hc.symm.trans (hfinal k d ht hk))
      · -- an untouched holder stands against every claim
        rw [huntouched d ht] at hk
        have hown := (hreg k d).2 hk
        obtain ⟨c, hcm, rfl, rfl⟩ := (hinv.claim k e).1 hc
        have hheld := hinv.held c hcm
        simp only [heldAgainst, hown] at hheld
        by_cases hcond : d = c.docId ∨ releasedBy tuples target ops c.key = some d
        · rcases hcond with rfl | hr
          · rfl
          · exact absurd ((hrel _ _).1 hr).1 ht
        · simp [hcond] at hheld
  | none =>
    have hret : p.retract k = releasedBy tuples target ops k := by
      apply Option.ext
      intro x
      rw [hinv.retract, hc]
      simp
    simp only [hret]
    constructor
    · intro ho
      by_cases heq : releasedBy tuples target ops k = owners k
      · simp [heq] at ho
      · simp only [heq] at ho
        have hkd := (hreg k d).1 ho
        have ht : ¬ Touches ops d := by
          intro ht
          exact heq (((hrel k d).2 ⟨ht, hkd⟩).trans ho.symm)
        rw [huntouched d ht]
        exact hkd
    · intro hk
      have ht : ¬ Touches ops d := by
        intro ht
        rw [hfinal k d ht hk] at hc
        cases hc
      rw [huntouched d ht] at hk
      have hown := (hreg k d).2 hk
      have hne : releasedBy tuples target ops k ≠ owners k := by
        intro heq
        rw [hown] at heq
        exact ht ((hrel k d).1 heq).1
      rw [if_neg hne]
      exact hown

end Kdb
