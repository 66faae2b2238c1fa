/-
The server's index provider (`server/index_provider.go`): SQL lookups answered from the namespace's index registry.

A literal is looked up under the key of its own type. The predicate it stands for compares across types: a stored
boolean reads as 0 or 1, integers compare with doubles, and a typed index files values under other key types. So a
value may satisfy the predicate and be filed where the lookup does not look.

- `Probe.outside`: which key types, for each operator, lie outside the interval a literal's lookup reads. The only
  values of the literal's own type outside it are the zeros against the literal -0.0 and every number against NaN.
- `superset_iff_wellFiled`: an answered lookup returns every document that satisfies its conjunct exactly when each
  document with a value filed outside also has a value inside.
- `indexed_query_answers_as_scan`: the two for every lookup of a WHERE clause, and the query's answer that follows.

Full text and vector search, index maintenance and DDL are left out.
-/
import Kdb.Sql.AccessPath

namespace Kdb.Server

open Kdb.Sql Kdb.Index Option

/-! ## The provider -/

def indexKeyForCell : Cell → Option Key
  | .str s => some (.str s)
  | .long n => some (.int64 n)
  | .double f => some (.float64 f)
  | .bool b => some (.bool b)
  | .null => some .null
  | _ => none

/-- `boundKey`: an absent or NULL bound is open -/
def boundKey : Option Cell → Option (Option Key)
  | none => some none
  | some .null => some none
  | some c => (indexKeyForCell c).map some

variable (reg : Registry)

/-- `keyedStore`: a HASH index is preferred for equality -/
def keyedStore (field : Name) : Option Store :=
  (reg.byField field .hash).or (reg.byField field .btree)

/-- `RegistryIndexProvider`; a store that no longer holds the commit does not answer -/
def registryIndexProvider : IndexProvider where
  exactLookup field value :=
    (keyedStore reg field).bind fun store => (indexKeyForCell value).bind fun key => store.view.map (·.ids key)
  exactCount field value :=
    (keyedStore reg field).bind fun store => (indexKeyForCell value).bind fun key =>
      store.view.map fun postings => (postings.ids key).length
  rangeLookup field low high _ _ :=
    (reg.byField field .btree).bind fun store => (boundKey low).bind fun lo => (boundKey high).bind fun hi =>
      store.view.map (·.rangeScan lo hi)

/-! ## What a lookup reads -/

/-- the keys a lookup for `op` against a literal of key `key` reads -/
def reads (op : BinaryOp) (key k : Key) : Bool :=
  match op with
  | .eq => k = key
  | .lt | .le => k.order key ≠ .gt
  | .gt | .ge => k.order key ≠ .lt
  | _ => false

/-- the keys of values that satisfy the comparison and that the lookup for `op` does not read: of another type than
the literal's (on the wrong side of it, for an ordering), or a number against -0.0 or NaN in an index of doubles -/
def outside (op : BinaryOp) (key k : Key) : Bool :=
  match op with
  | .eq => k.tag ≠ key.tag || key = .float64 .negZero
  | .lt => key.tag < k.tag
  | .le => key.tag < k.tag || (key = .float64 .negZero && k = .float64 (.fin 0))
  | .gt | .ge => k.tag < key.tag || (k.tag = key.tag && key = .float64 .nan)
  | _ => false

variable {k key : Key} {op : BinaryOp} {fieldType : FieldType} {c : Cell} {v : Json} {field : Name} {s : Store}
  {p : Probe}

theorem reads_of_tag_ne (ht : k.tag ≠ key.tag) (hop : op.Served) : reads op key k = !outside op key k := by
  have hne : k ≠ key := fun h => ht (by rw [h])
  rcases lt_or_gt_of_ne ht with h | h
  · have ho : k.order key = .lt := by simp [Key.order, Nat.compare_eq_lt.2 h]
    have hz : ¬ (key = .float64 .negZero ∧ k = .float64 (.fin 0)) := by
      rintro ⟨rfl, rfl⟩
      exact ht rfl
    rcases hop with rfl | rfl | rfl | rfl | rfl <;> simp [reads, outside, hne, ho, ht, h, h.le]
    exact not_and_or.1 hz
  · have ho : k.order key = .gt := by simp [Key.order, Nat.compare_eq_gt.2 h]
    rcases hop with rfl | rfl | rfl | rfl | rfl <;> simp [reads, outside, hne, ho, ht, h, h.le]

/-! ### Keys of the literal's own type -/

theorem order_fin (p q : ℚ) : (Float64.fin p).order (.fin q) = compare p q := by
  rcases lt_trichotomy p q with h | h | h
  · simp [Float64.order, Float64.lt, Float64.place, h, compare_lt_iff_lt.2 h]
  · subst h
    simp [Float64.order, Float64.lt]
  · simp [Float64.order, Float64.lt, Float64.place, h, not_lt.2 h.le, compare_gt_iff_gt.2 h]

theorem order_special (p : ℚ) : (Float64.fin p).order .negInf = .gt ∧ (Float64.fin p).order .posInf = .lt ∧
    (Float64.fin p).order .nan = .gt ∧ encOrder (.fin p) .negInf = .gt ∧ encOrder (.fin p) .posInf = .lt ∧
    encOrder (.fin p) .nan = .lt := ⟨rfl, rfl, rfl, rfl, rfl, rfl⟩

theorem order_negZero (p : ℚ) : (Float64.fin p).order .negZero = compare p 0 := order_fin p 0

theorem encOrder_negZero (p : ℚ) : encOrder (.fin p) .negZero = (compare p 0).then .gt := rfl

/-- in an index of doubles the stored order is the predicate's, but for the literals -0.0 and NaN -/
theorem reads_double {p : ℚ} {f : Float64} (hop : op.Served) (h : op.accepts ((Float64.fin p).order f) = true) :
    reads op (.float64 f) (.float64 (.fin p)) = !outside op (.float64 f) (.float64 (.fin p)) := by
  have hkey : ∀ o, Key.order (.float64 (.fin p)) (.float64 o) = encOrder (.fin p) o := fun o => by
    simp [Key.order, Key.tag]
  cases f with
  | fin q =>
    rw [order_fin] at h
    rcases hop with rfl | rfl | rfl | rfl | rfl <;>
      simp_all [reads, outside, Key.tag, encOrder, Float64.place, BinaryOp.accepts]
  | negInf | posInf | nan =>
    rcases hop with rfl | rfl | rfl | rfl | rfl <;>
      simp_all [reads, outside, Key.tag, order_special p, BinaryOp.accepts]
  | negZero =>
    rw [order_negZero] at h
    have hz : compare p 0 = .eq ↔ p = 0 := compare_eq_iff_eq
    cases hc : compare p 0 <;> rcases hop with rfl | rfl | rfl | rfl | rfl <;>
      simp_all [reads, outside, Key.tag, encOrder_negZero, BinaryOp.accepts]

theorem accepts_of_compareOp {l r : Cell} (hop : op.Served) (h : compareOp op l r = true) :
    l.typeRank = r.typeRank ∧ l.typeRank ≠ 0 ∧ op.accepts (compareSameKind l r) = true := by
  have hne : op ≠ .ne := by rcases hop with rfl | rfl | rfl | rfl | rfl <;> simp
  unfold compareOp compareComparable at h
  split at h
  · cases h
  · split at h
    · simp [hne] at h
    · rename_i hnull o heq
      simp only [ite_none_left_eq_some, not_or, not_not, Option.some.injEq] at heq
      exact ⟨heq.1.2.2, heq.1.1, heq.2 ▸ h⟩

/-- keys ordered by the comparator the predicate uses: the lookup reads exactly what the comparison accepts -/
theorem reads_of_order (hop : op.Served) (htag : k.tag = key.tag) (hf : ∀ f, key ≠ .float64 f)
    (heq : k.order key = .eq → k = key) (h : op.accepts (k.order key) = true) : reads op key k = !outside op key k := by
  rcases hop with rfl | rfl | rfl | rfl | rfl <;>
    simp_all [reads, outside, BinaryOp.accepts]

theorem order_bool (a b : Bool) : Key.order (.bool a) (.bool b) = compare a b := rfl

theorem key_str {codec : Codec} {s : String} (h : keyFromJSONValue codec fieldType (.str s) = some k) :
    k = .str s ∨ k.tag = 5 ∨ k.tag = 7 := by
  cases fieldType <;> simp only [keyFromJSONValue, Option.some.injEq] at h <;> subst h
  case timestamp => cases codec.timestampFromISO8601 s <;> simp [Key.tag]
  case uuid => cases codec.uuidFromString s <;> simp [Key.tag]
  all_goals exact .inl rfl

theorem key_num {codec : Codec} {n : ℤ} (h : keyFromJSONValue codec fieldType (.num n) = some k) :
    k = .int64 n ∨ k = .float64 (.ofInt64 n) ∨ k.tag = 2 ∨ k.tag = 5 := by
  cases fieldType <;> simp only [keyFromJSONValue, Option.some.injEq] at h <;> subst h <;> simp [Key.tag]

theorem compare_bool_eq (a b : Bool) : compare (boolToInt64 a) (boolToInt64 b) = compare a b := by
  cases a <;> cases b <;> rfl

/-- **What a lookup misses.** A stored value that satisfies the comparison is filed under a key the lookup reads
exactly when its key is not outside. -/
theorem reads_iff_not_outside (env : Env) {codec : Codec} (hop : op.Served)
    (hk : keyFromJSONValue codec fieldType v = some k) (hkey : indexKeyForCell c = some key)
    (h : compareOp op (env.jsonValueToCell v) c = true) : reads op key k = !outside op key k := by
  by_cases ht : k.tag = key.tag
  swap
  · exact reads_of_tag_ne ht hop
  -- the same key type: the stored order is the order the predicate compares by
  obtain ⟨hrank, -, hacc⟩ := accepts_of_compareOp hop h
  cases v with
  | null => simp [Env.jsonValueToCell, compareOp, Cell.isNull] at h
  | arr l => simp [keyFromJSONValue] at hk
  | obj l => simp [keyFromJSONValue] at hk
  | str s =>
    cases c with
    | str s' =>
      cases hkey
      obtain rfl | h5 | h7 := key_str hk
      · exact reads_of_order hop ht (by simp) (by simp [Key.order]) hacc
      all_goals
        simp [Key.tag] at *
        omega
    | _ => simp [Env.jsonValueToCell, Cell.typeRank] at hrank
  | num n =>
    cases c with
    | long m =>
      cases hkey
      obtain rfl | rfl | h2 | h5 := key_num hk
      · exact reads_of_order hop ht (by simp) (by simp [Key.order]) hacc
      · simp [Key.tag] at ht
      all_goals
        simp [Key.tag] at *
        omega
    | double f =>
      cases hkey
      obtain rfl | rfl | h2 | h5 := key_num hk
      · simp [Key.tag] at ht
      · obtain ⟨q, hq⟩ : ∃ q, Float64.ofInt64 n = .fin q := ⟨_, rfl⟩
        rw [hq]
        refine reads_double hop ?_
        rw [← hq]
        exact hacc
      all_goals
        simp [Key.tag] at *
        omega
    | bool b =>
      cases hkey
      obtain rfl | rfl | h2 | h5 := key_num hk <;> simp [Key.tag] at *
      all_goals omega
    | _ => simp [Env.jsonValueToCell, Cell.typeRank] at hrank
  | bool b =>
    cases hk
    cases c with
    | bool b' =>
      cases hkey
      refine reads_of_order hop ht (by simp) (by simp [order_bool]) ?_
      rw [order_bool, ← compare_bool_eq]
      exact hacc
    | long _ | double _ =>
      cases hkey
      simp [Key.tag] at ht
    | _ => simp [Env.jsonValueToCell, Cell.typeRank] at hrank
/-! ## Lookups of a registry -/

/-- the index that serves a question -/
def probeStore : Probe → Option Store
  | .compare field .eq _ => keyedStore reg field
  | .compare field .lt _ | .compare field .le _ | .compare field .gt _ | .compare field .ge _ => reg.byField field .btree
  | .compare _ _ _ => none
  | .between field _ _ => reg.byField field .btree

/-- the keys the lookup for a question reads; none when a literal has no key -/
def probeReads : Probe → Key → Bool
  | .compare _ op value, k => (indexKeyForCell value).any fun key => reads op key k
  | .between _ low high, k =>
    ((indexKeyForCell low).any fun key => reads .ge key k) && (indexKeyForCell high).any fun key => reads .le key k

/-- the keys outside a question's lookup, by type -/
def probeOutside : Probe → Key → Bool
  | .compare _ op value, k => (indexKeyForCell value).any fun key => outside op key k
  | .between _ low high, k =>
    ((indexKeyForCell low).any fun key => outside .ge key k) || (indexKeyForCell high).any fun key => outside .le key k

/-- the literals of a question have keys (JSON and byte literals do not) -/
def probeKeyed : Probe → Bool
  | .compare _ _ value => (indexKeyForCell value).isSome
  | .between _ low high => (indexKeyForCell low).isSome && (indexKeyForCell high).isSome

variable {env : Env} {codec : Codec} {reg : Registry} {tree : Tree}

theorem keyedStore_spec (h : keyedStore reg field = some s) : s ∈ reg ∧ s.desc.firstField = field ∧ s.desc.Keyed := by
  rcases or_eq_some_iff.1 h with h | ⟨-, h⟩
  · exact Registry.byField_spec h (.inl rfl)
  · exact Registry.byField_spec h (.inr rfl)

theorem probeStore_spec (h : probeStore reg p = some s) : s ∈ reg ∧ s.desc.firstField = p.field ∧ s.desc.Keyed := by
  unfold probeStore at h
  split at h
  · exact keyedStore_spec h
  all_goals first
    | exact Registry.byField_spec h (.inr rfl)
    | cases h

theorem boundKey_some (h : c.isNull = false) : boundKey (some c) = (indexKeyForCell c).map some := by
  cases c <;> simp_all [boundKey, Cell.isNull]

theorem boundKey_none : boundKey none = some none := rfl

theorem literal_not_null {l : Cell} (h : compareOp op l c = true) : c.isNull = false := by
  by_contra hc
  simp [compareOp, hc] at h

theorem within_lower (k key : Key) : k.within (some key) none = reads .ge key k := by
  simp [Key.within, reads]

theorem within_upper (k key : Key) : k.within none (some key) = reads .le key k := by
  simp [Key.within, reads]

theorem within_both (k lo hi : Key) : k.within (some lo) (some hi) = (reads .ge lo k && reads .le hi k) := by
  simp [Key.within, reads]

/-- the scan a question makes of an index's postings -/
def probeScan : Probe → Postings → List DocId
  | .compare _ .eq value => fun postings => ((indexKeyForCell value).map postings.ids).getD []
  | .compare _ .lt value | .compare _ .le value => fun postings => postings.rangeScan none (indexKeyForCell value)
  | .compare _ .gt value | .compare _ .ge value => fun postings => postings.rangeScan (indexKeyForCell value) none
  | .compare _ _ _ => fun _ => []
  | .between _ low high => fun postings => postings.rangeScan (indexKeyForCell low) (indexKeyForCell high)

theorem answer_eq (hv : p.accepts env v = true) : p.answer (registryIndexProvider reg)
      = if probeKeyed p then (probeStore reg p).bind fun s => s.view.map (probeScan p) else none := by
  cases p with
  | compare field op value =>
    have hnn := literal_not_null hv
    cases hkey : indexKeyForCell value <;> cases op <;>
      simp [Probe.answer, comparisonLookup, registryIndexProvider, probeKeyed, probeStore, probeScan, hkey,
        boundKey_some hnn, boundKey_none, Function.comp_def]
  | between field low high =>
    simp only [Probe.accepts, Bool.and_eq_true] at hv
    have hlo := literal_not_null hv.1
    have hhi := literal_not_null hv.2
    cases hl : indexKeyForCell low <;> cases hh : indexKeyForCell high <;>
      simp [Probe.answer, registryIndexProvider, probeKeyed, probeStore, probeScan, boundKey_some hlo,
        boundKey_some hhi, hl, hh]

theorem mem_probeScan {postings : Postings} (hstore : probeStore reg p = some s) (hkeyed : probeKeyed p = true)
    (hcons : Postings.Consistent codec s.desc tree postings) {d : DocId} :
    d ∈ probeScan p postings ↔ ∃ body, tree[d]? = some body ∧ ∃ v ∈ pathValues body p.field, ∃ k,
      keyFromJSONValue codec s.desc.fieldType v = some k ∧ probeReads p k = true := by
  have hfield := (probeStore_spec hstore).2.1
  cases p with
  | compare field op value =>
    obtain ⟨key, hkey⟩ := isSome_iff_exists.1 hkeyed
    cases op <;> simp only [probeStore, reduceCtorEq] at hstore
    case eq =>
      simp [probeScan, hkey, Postings.mem_ids hcons, probeReads, reads, hfield]
    all_goals
      simp only [probeScan, hkey, Postings.mem_rangeScan hcons, probeReads, any_some, within_lower,
        within_upper, hfield, reads]
  | between field low high =>
    simp only [probeKeyed, Bool.and_eq_true] at hkeyed
    obtain ⟨lo, hlo⟩ := isSome_iff_exists.1 hkeyed.1
    obtain ⟨hi, hhi⟩ := isSome_iff_exists.1 hkeyed.2
    simp only [probeScan, hlo, hhi, Postings.mem_rangeScan hcons, probeReads, any_some, within_both, hfield]

theorem probeStore_op {value : Cell} (h : probeStore reg (.compare field op value) = some s) : op.Served := by
  cases op <;> simp_all [probeStore, BinaryOp.Served]

/-- a value that satisfies a question with keyed literals has a key, and it is read unless it is outside -/
theorem key_of_accepts (codec : Codec) (hstore : probeStore reg p = some s) (hkeyed : probeKeyed p = true)
    (hv : p.accepts env v = true) (fieldType : FieldType) :
    ∃ k, keyFromJSONValue codec fieldType v = some k ∧ (probeReads p k = !probeOutside p k) := by
  have hscalar : ∀ {op : BinaryOp} {c : Cell} {key : Key}, op.Served → indexKeyForCell c = some key →
      compareOp op (env.jsonValueToCell v) c = true → ∃ k, keyFromJSONValue codec fieldType v = some k := by
    intro op c key hop hkey hc
    obtain ⟨hrank, hne, -⟩ := accepts_of_compareOp hop hc
    cases v with
    | arr l => cases c <;> simp_all [Env.jsonValueToCell, Cell.typeRank, indexKeyForCell]
    | obj l => cases c <;> simp_all [Env.jsonValueToCell, Cell.typeRank, indexKeyForCell]
    | null => exact ⟨_, rfl⟩
    | bool b => exact ⟨_, rfl⟩
    | num n => cases fieldType <;> exact ⟨_, rfl⟩
    | str s => cases fieldType <;> exact ⟨_, rfl⟩
  cases p with
  | compare field op value =>
    have hop := probeStore_op hstore
    obtain ⟨key, hkey⟩ := isSome_iff_exists.1 hkeyed
    obtain ⟨k, hk⟩ := hscalar hop hkey hv
    exact ⟨k, hk, by simpa [probeReads, probeOutside, hkey] using reads_iff_not_outside env hop hk hkey hv⟩
  | between field low high =>
    simp only [probeKeyed, Bool.and_eq_true] at hkeyed
    simp only [Probe.accepts, Bool.and_eq_true] at hv
    obtain ⟨lo, hlo⟩ := isSome_iff_exists.1 hkeyed.1
    obtain ⟨hi, hhi⟩ := isSome_iff_exists.1 hkeyed.2
    have hge : BinaryOp.Served .ge := by simp [BinaryOp.Served]
    have hle : BinaryOp.Served .le := by simp [BinaryOp.Served]
    obtain ⟨k, hk⟩ := hscalar hge hlo hv.1
    refine ⟨k, hk, ?_⟩
    simp [probeReads, probeOutside, hlo, hhi, reads_iff_not_outside env hge hk hlo hv.1,
      reads_iff_not_outside env hle hk hhi hv.2]

/-- each document with a value that satisfies the question but is filed outside its lookup has a value inside too -/
def WellFiled (env : Env) (codec : Codec) (reg : Registry) (tree : Tree) (p : Probe) : Prop :=
  ∀ s, probeStore reg p = some s → s.view.isSome = true → probeKeyed p = true →
    ∀ (d : DocId) (body : Fields), tree[d]? = some body →
      (∃ v ∈ pathValues body p.field, p.accepts env v = true ∧
        (keyFromJSONValue codec s.desc.fieldType v).any (probeOutside p) = true) →
      ∃ v ∈ pathValues body p.field, (keyFromJSONValue codec s.desc.fieldType v).any (probeReads p) = true

theorem superset_iff_wellFiled (hcons : reg.Consistent codec tree) (p : Probe) :
    p.Superset env (registryIndexProvider reg) tree ↔ WellFiled env codec reg tree p := by
  constructor
  · intro hsup s hstore hview hkeyed d body hd ⟨v, hv, hacc, hout⟩
    obtain ⟨postings, hpost⟩ := isSome_iff_exists.1 hview
    have hanswer : p.answer (registryIndexProvider reg) = some (probeScan p postings) := by
      simp [answer_eq hacc, hkeyed, hstore, hpost]
    have hcons' := hcons s (probeStore_spec hstore).1 (probeStore_spec hstore).2.2 postings hpost
    have hmem := hsup _ hanswer d body hd (List.any_eq_true.2 ⟨v, hv, hacc⟩)
    obtain ⟨body', hd', v', hv', k, hk, hread⟩ := (mem_probeScan hstore hkeyed hcons').1 hmem
    obtain rfl : body = body' := Option.some.inj (hd.symm.trans hd')
    exact ⟨v', hv', by simp [hk, hread]⟩
  · intro hwell ids hanswer d body hd hholds
    obtain ⟨v, hv, hacc⟩ := List.any_eq_true.1 hholds
    rw [answer_eq hacc] at hanswer
    split at hanswer
    · rename_i hkeyed
      obtain ⟨s, hstore, hview⟩ := bind_eq_some_iff.1 hanswer
      obtain ⟨postings, hpost, rfl⟩ := map_eq_some_iff.1 hview
      have hcons' := hcons s (probeStore_spec hstore).1 (probeStore_spec hstore).2.2 postings hpost
      obtain ⟨k, hk, hread⟩ := key_of_accepts codec hstore hkeyed hacc s.desc.fieldType
      rw [mem_probeScan hstore hkeyed hcons']
      cases hout : probeOutside p k with
      | false => exact ⟨body, hd, v, hv, k, hk, by simp [hread, hout]⟩
      | true =>
        obtain ⟨v', hv', hread'⟩ := hwell s hstore (by simp [hpost]) hkeyed d body hd ⟨v, hv, hacc, by simp [hk, hout]⟩
        obtain ⟨k', hk', hr'⟩ := (any_eq_true _ _).1 hread'
        exact ⟨body, hd, v', hv', k', hk', hr'⟩
    · cases hanswer

instance (p : Probe) : Decidable (WellFiled env codec reg tree p) :=
  decidable_of_iff (∀ s ∈ probeStore reg p, s.view.isSome = true → probeKeyed p = true → ∀ m ∈ tree.toList,
      (∃ v ∈ pathValues m.2 p.field, p.accepts env v = true ∧
        (keyFromJSONValue codec s.desc.fieldType v).any (probeOutside p) = true) →
      ∃ v ∈ pathValues m.2 p.field, (keyFromJSONValue codec s.desc.fieldType v).any (probeReads p) = true) (by
    simp only [WellFiled, mem_def, Prod.forall, Std.ExtTreeMap.mem_toList_iff_getElem?_eq_some])

theorem registryIndexProvider_distinct (hcons : reg.Consistent codec tree) : (registryIndexProvider reg).Distinct := by
  constructor
  · intro field value ids h
    simp only [registryIndexProvider, bind_eq_some_iff, map_eq_some_iff] at h
    obtain ⟨s, hs, key, -, postings, hpost, rfl⟩ := h
    obtain ⟨hmem, -, hkeyed⟩ := keyedStore_spec hs
    exact Postings.nodup_ids (hcons s hmem hkeyed postings hpost) key
  · intro field low high a b ids h
    simp only [registryIndexProvider, bind_eq_some_iff, map_eq_some_iff] at h
    obtain ⟨s, -, lo, -, hi, -, postings, -, rfl⟩ := h
    exact nodup_distinct _

/-- **Indexes and answers.** Over indexes consistent with the documents at the commit, every answered lookup of a WHERE
clause returns all documents that satisfy its conjunct exactly when each document with a value filed outside such a
lookup also has a value inside it. Then the query through the indexes returns the documents of the full scan. -/
theorem indexed_query_answers_as_scan (hcons : reg.Consistent codec tree)
    (hid : ∀ id, env.parseUUID (env.idString id) = some id) (whereClause : Expr) :
    ((∀ p ∈ probes env whereClause, p.Superset env (registryIndexProvider reg) tree)
      ↔ ∀ p ∈ probes env whereClause, WellFiled env codec reg tree p) ∧
    ((∀ p ∈ probes env whereClause, WellFiled env codec reg tree p) →
      (matchingDocs env (registryIndexProvider reg) tree (some whereClause)).Perm
        (fullScan env tree (some whereClause))) := by
  refine ⟨forall₂_congr fun p _ => superset_iff_wellFiled hcons p, ?_⟩
  intro hwell
  refine matchingDocs_perm_fullScan hid (registryIndexProvider_distinct hcons) whereClause ?_
  intro p hp
  exact (superset_iff_wellFiled hcons p).2 (hwell p hp)

/-! ## Concrete runs -/

/-- an environment without parameters or functions; an id is spelled in unary -/
def plainEnv : Env where
  params := []
  isTable _ := false
  idString id := String.ofList (List.replicate id 'a')
  parseUUID s := some s.length
  docText _ := ""
  toJSONString _ := ""
  attachmentsJSON _ := .arr []
  functionCell _ _ _ := .null
  floatArith _ a _ := a
  sameFold a b := a = b

/-- no string parses as a timestamp or an id -/
def plainCodec : Codec := ⟨fun _ => none, fun _ => none⟩

/-- a BTREE over the field `n` with natural keys -/
def btreeOn : Descriptor := ⟨[["n"]], .btree, .natural, false, by simp, by simp⟩

/-- document 1 holds the integer 3, document 2 a list of an integer and a boolean, document 3 a boolean -/
def sampleOps : List Op :=
  [.write 1 (.obj [("n", .num 3)]) true, .write 2 (.obj [("n", .arr [.num 1, .bool true])]) true,
   .write 3 (.obj [("n", .bool true)]) true]

/-- the index of those documents, as the commits' hints build it -/
def sampleRegistry : Registry := [⟨btreeOn, some (sampleOps.foldl (Postings.applyOp plainCodec btreeOn) [])⟩]

theorem sampleRegistry_consistent : Registry.Consistent sampleRegistry plainCodec (Tree.applyOps ∅ sampleOps) := by
  intro s hs _ p hp
  obtain rfl := List.mem_singleton.1 hs
  cases hp
  exact Postings.consistent_applyOps sampleOps Postings.consistent_empty

/-- `n = 3 OR n < 2` reaches documents through integer keys only; document 2 has its boolean filed elsewhere -/
theorem indexed_query_answers_as_scan_intKeys :
    (matchingDocs plainEnv (registryIndexProvider sampleRegistry) (Tree.applyOps ∅ sampleOps)
        (some (.binary .or (.binary .eq (.column ["n"]) (.literal (.long 3)))
          (.binary .lt (.column ["n"]) (.literal (.long 2)))))).Perm
      (fullScan plainEnv (Tree.applyOps ∅ sampleOps)
        (some (.binary .or (.binary .eq (.column ["n"]) (.literal (.long 3)))
          (.binary .lt (.column ["n"]) (.literal (.long 2)))))) :=
  (indexed_query_answers_as_scan sampleRegistry_consistent (by simp [plainEnv]) _).2 (by decide +kernel)

/-- `n > 2.5` does not find the integer 3 through the index and `n = 1` does not find the boolean: doubles and
booleans are keys of other types -/
theorem index_hides_matching_documents :
    Registry.Consistent sampleRegistry plainCodec (Tree.applyOps ∅ sampleOps) ∧
    (matchingDocs plainEnv (registryIndexProvider sampleRegistry) (Tree.applyOps ∅ sampleOps)
        (some (.binary .gt (.column ["n"]) (.literal (.double (.fin (5 / 2))))))).map Doc.id = [] ∧
    (fullScan plainEnv (Tree.applyOps ∅ sampleOps)
        (some (.binary .gt (.column ["n"]) (.literal (.double (.fin (5 / 2))))))).map Doc.id = [1] ∧
    (matchingDocs plainEnv (registryIndexProvider sampleRegistry) (Tree.applyOps ∅ sampleOps)
        (some (.binary .eq (.column ["n"]) (.literal (.long 1))))).map Doc.id = [2] ∧
    (fullScan plainEnv (Tree.applyOps ∅ sampleOps)
        (some (.binary .eq (.column ["n"]) (.literal (.long 1))))).map Doc.id = [2, 3] := by
  refine ⟨sampleRegistry_consistent, ?_, ?_, ?_, ?_⟩ <;> decide +kernel

end Kdb.Server
