/-
How a WHERE clause finds its documents (`sql/executor.go`): by key, through an index provider, or by a full scan.

Every conjunct of the top-level AND may be served by a key or an index; an OR is served when each of its disjuncts
is, by the union of what serves them. The cheapest servable conjunct gives the candidate ids, the candidates are
fetched and the whole WHERE clause is evaluated on each. So a path has to reach every document that satisfies its
conjunct, and what it reaches beyond that is filtered out.

- `Probe`: one question to the provider: an equality, an ordering or a BETWEEN over one field and constants.
  `probes` are the questions a WHERE clause can lead to.
- `conjunctPath_covers`: the chosen path reaches every document that satisfies the clause if the provider's answers do.
- `matchingDocs_perm_fullScan`: then the indexed query returns exactly the scan's documents, each once.

`conjunctPath` and `orLookup` call each other on the same node, so both are read off one recursion, `paths`;
`paths_conjuncts` and `paths_disjuncts` read it as the source's flattened conjuncts and disjuncts. Left out: search
functions, row budgets and memory limits, ordering and limits, and the paths of ordered top-k queries.
-/
import Kdb.Index.KeyedStore

namespace Kdb.Sql

open Kdb.Index List

/-- `sql.IndexProvider` with `ExactCounter`; no answer means `ok = false` -/
structure IndexProvider where
  exactLookup : Name → Cell → Option (List DocId)
  exactCount : Name → Cell → Option ℕ
  rangeLookup : Name → Option Cell → Option Cell → Bool → Bool → Option (List DocId)

/-- `QueryResult.Plan` -/
inductive PlanLabel where
  | fullscan
  | keylookup
  | eq (field : Name)
  | range (field : Name)
  | inList (field : Name)
  | or (labels : List PlanLabel)

/-- candidate ids and where they come from -/
structure Path where
  ids : List DocId
  label : PlanLabel

variable (env : Env) (provider : IndexProvider)

/-! ## One conjunct -/

/-- a column an index may serve -/
def indexable : Expr → Option Name
  | .column n => if isReservedColumn (env.columnName n) then none else some (env.columnName n)
  | _ => none

/-- the column, the other side and the operator of a comparison, mirrored when the column is on the right -/
def orient (op : BinaryOp) (left right : Expr) : Option (Name × Expr × BinaryOp) :=
  match indexable env left with
  | some field => some (field, right, op)
  | none => (indexable env right).map fun field => (field, left, flipOp op)

/-- the ids of an IN list's values, one exact lookup for each value that is not NULL -/
def inLookup (field : Name) : List Expr → Option (List DocId)
  | [] => some []
  | v :: vs =>
    match env.constCell v with
    | none => none
    | some value =>
      if value.isNull then inLookup field vs
      else match provider.exactLookup field value, inLookup field vs with
        | some ids, some rest => some (ids ++ rest)
        | _, _ => none

/-- the operators an index can serve -/
def BinaryOp.Served (op : BinaryOp) : Prop := op = .eq ∨ op = .lt ∨ op = .le ∨ op = .gt ∨ op = .ge

/-- the comparison branch of `indexLookup` -/
def comparisonLookup (field : Name) (op : BinaryOp) (value : Cell) : Option Path :=
  match op with
  | .eq => (provider.exactLookup field value).map (⟨·, .eq field⟩)
  | .lt => (provider.rangeLookup field none (some value) false false).map (⟨·, .range field⟩)
  | .le => (provider.rangeLookup field none (some value) false true).map (⟨·, .range field⟩)
  | .gt => (provider.rangeLookup field (some value) none false false).map (⟨·, .range field⟩)
  | .ge => (provider.rangeLookup field (some value) none true false).map (⟨·, .range field⟩)
  | _ => none

/-- `indexLookup` of a conjunct that is no OR -/
def indexLookup : Expr → Option Path
  | .binary op l r =>
    match orient env op l r with
    | none => none
    | some (field, other, op) =>
      match env.constCell other with
      | none => none
      | some value => if value.isNull then none else comparisonLookup provider field op value
  | .between e low high =>
    match indexable env e, env.constCell low, env.constCell high with
    | some field, some lo, some hi =>
      if lo.isNull || hi.isNull then none
      else (provider.rangeLookup field (some lo) (some hi) true true).map (⟨·, .range field⟩)
    | _, _, _ => none
  | .inList e values =>
    match indexable env e with
    | some field => (inLookup env provider field values).map fun ids => ⟨distinct ids, .inList field⟩
    | none => none
  | _ => none

variable (e : Expr)

/-- the constant string a key is compared with -/
def constString : Option String :=
  match env.constCell e with
  | some (.str s) => some s
  | _ => none

def isKey : Expr → Bool
  | .column n => env.columnName n = ["kdb_id"]
  | _ => false

/-- `keyLookup`: a string that is no UUID names nothing -/
def keyLookup : Expr → Option (List DocId)
  | .binary .eq l r =>
    if isKey env l then (constString env r).map fun raw => (env.parseUUID raw).toList
    else if isKey env r then (constString env l).map fun raw => (env.parseUUID raw).toList
    else none
  | .inList e values =>
    if isKey env e then
      (values.mapM (constString env)).map fun raws => distinct (raws.flatMap fun raw => (env.parseUUID raw).toList)
    else none
  | _ => none

/-! ## Estimates -/

def estimateIn (name : Name) : List Expr → ℤ
  | [] => 0
  | v :: vs =>
    match env.constCell v with
    | none => -1
    | some value =>
      if value.isNull then estimateIn name vs
      else match provider.exactCount name value with
        | none => -1
        | some n => if estimateIn name vs < 0 then -1 else n + estimateIn name vs

/-- `estimateConjunct` of a conjunct that is no OR; `-1` is unknown -/
def estimateConjunct (conj : Expr) : ℤ :=
  match keyLookup env conj with
  | some ids => ids.length
  | none =>
    match conj with
    | .inList e values =>
      match indexable env e with
      | some name => estimateIn env provider name values
      | none => -1
    | .binary .eq l r =>
      let (col, other) := match l with
        | .column _ => (l, r)
        | _ => (r, l)
      match indexable env col, env.constCell other with
      | some name, some value =>
        if value.isNull then -1 else ((provider.exactCount name value).map Int.ofNat).getD (-1)
      | _, _ => -1
    | _ => -1

/-! ## The choice -/

/-- a conjunct on offer: served by key, or by its index lookup at an estimated cost -/
structure Candidate where
  key : Option (List DocId)
  est : ℤ
  path : Option Path

/-- cheapest first, unknown costs last -/
def Candidate.cheaper (a b : Candidate) : Bool :=
  if a.est < 0 ∨ b.est < 0 then b.est < 0 && 0 ≤ a.est else a.est < b.est

/-- one turn of the loop that keeps the smallest answer -/
def better (best : Option Path) (c : Candidate) : Option Path :=
  match best with
  | none => c.path
  | some b =>
    if (b.ids.length : ℤ) ≤ c.est then some b
    else match c.path with
      | some p => if p.ids.length < b.ids.length then some p else some b
      | none => some b

variable (cands : List Candidate)

/-- `conjunctPath` over the conjuncts: the first key, else the cheapest index answer -/
def choose : Option Path :=
  match cands.findSome? Candidate.key with
  | some ids => some ⟨ids, .keylookup⟩
  | none => (cands.insertionSort fun a b => b.cheaper a = false).foldl better none

/-- `estimatePredicate` over the conjuncts: the smallest known estimate -/
def smallestEstimate : ℤ :=
  cands.foldl (fun best c => if 0 ≤ c.est ∧ (best < 0 ∨ c.est < best) then c.est else best) (-1)

/-- `orLookup` over the disjuncts: nothing as soon as one has no path, else their union in id order -/
def unionPaths (disjuncts : List (Option Path × ℤ)) : Option Path :=
  if disjuncts.all fun d => d.1.isSome then
    let found := disjuncts.filterMap Prod.fst
    some ⟨(distinct (found.flatMap Path.ids)).insertionSort (· ≤ ·), .or (found.map Path.label)⟩
  else none

/-- the estimate of an OR: the sum of its disjuncts', known when all are -/
def sumEstimates (disjuncts : List (Option Path × ℤ)) : ℤ :=
  if disjuncts.any fun d => d.2 < 0 then -1 else (disjuncts.map Prod.snd).sum

/-- what an expression offers as a conjunction and as a disjunction -/
structure Paths where
  conjuncts : List Candidate
  disjuncts : List (Option Path × ℤ)

/-- an expression that is no OR is its own only disjunct -/
def Paths.ofConjuncts : Paths := ⟨cands, [(choose cands, smallestEstimate cands)]⟩

/-- the candidates of the conjuncts and the paths of the disjuncts of an expression -/
def paths : Expr → Paths
  | .binary .and l r => .ofConjuncts ((paths l).conjuncts ++ (paths r).conjuncts)
  | .binary .or l r =>
    let disjuncts := (paths l).disjuncts ++ (paths r).disjuncts
    ⟨[⟨none, sumEstimates disjuncts, unionPaths disjuncts⟩], disjuncts⟩
  | e => .ofConjuncts [⟨keyLookup env e, estimateConjunct env provider e, indexLookup env provider e⟩]

def conjunctPath : Option Path := choose (paths env provider e).conjuncts

def estimatePredicate : ℤ := smallestEstimate (paths env provider e).conjuncts

/-- `conjuncts`: the top-level AND tree, flattened -/
def conjuncts : Expr → List Expr
  | .binary .and l r => conjuncts l ++ conjuncts r
  | e => [e]

/-- `disjuncts`: the top-level OR tree, flattened -/
def disjuncts : Expr → List Expr
  | .binary .or l r => disjuncts l ++ disjuncts r
  | e => [e]

/-- the path and the estimate of each disjunct -/
def disjunctPaths : List (Option Path × ℤ) :=
  (disjuncts e).map fun d => (conjunctPath env provider d, estimatePredicate env provider d)

def orLookup : Option Path := unionPaths (disjunctPaths env provider e)

/-- the candidate `conjunctPath` makes of one conjunct -/
def candidateOf : Expr → Candidate
  | .binary .or l r =>
    ⟨none, sumEstimates (disjunctPaths env provider (.binary .or l r)), orLookup env provider (.binary .or l r)⟩
  | e => ⟨keyLookup env e, estimateConjunct env provider e, indexLookup env provider e⟩

theorem paths_disjuncts : (paths env provider e).disjuncts = disjunctPaths env provider e := by
  fun_induction disjuncts e with
  | case1 l r ihl ihr => simp [paths, ihl, ihr, disjunctPaths, disjuncts]
  | case2 e hor =>
    have hd : disjuncts e = [e] := by
      unfold disjuncts
      split
      · exact absurd rfl (hor _ _)
      · rfl
    simp only [disjunctPaths, hd, map_cons, conjunctPath, estimatePredicate]
    unfold paths
    split
    · rfl
    · exact absurd rfl (hor _ _)
    · rfl

/-- the candidates are those of the flattened conjuncts, as `conjunctPath` collects them -/
theorem paths_conjuncts : (paths env provider e).conjuncts = (conjuncts e).map (candidateOf env provider) := by
  fun_induction conjuncts e with
  | case1 l r ihl ihr => simp [paths, Paths.ofConjuncts, ihl, ihr]
  | case2 e hand =>
    simp only [map_cons]
    unfold paths
    split
    · exact absurd rfl (hand _ _)
    · simp [candidateOf, orLookup, disjunctPaths, disjuncts, paths_disjuncts]
    · rename_i hor
      unfold candidateOf
      split
      · exact absurd rfl (hor _ _)
      · rfl

/-! ## Fetching -/

variable (tree : Tree)

/-- `materialize`: fetch each id, keep what the WHERE clause accepts -/
def materialize (ids : List DocId) (residual : Expr) : List Doc :=
  ids.filterMap fun id => (tree[id]?).bind fun body => if env.predicate residual ⟨id, body⟩ then some ⟨id, body⟩ else none

def fullScan (residual : Option Expr) : List Doc :=
  (tree.toList.map fun m => Doc.mk m.1 m.2).filter fun d => residual.all (env.predicate · d)

/-- `matchingDocs`: `chooseAccessPath`, then `materialize` unless the scan already filtered -/
def matchingDocs (whereClause : Option Expr) : List Doc :=
  match whereClause with
  | none => fullScan env tree none
  | some e =>
    match conjunctPath env provider e with
    | some path => materialize env tree path.ids e
    | none => fullScan env tree (some e)

/-! ## Questions to the provider -/

/-- one question to the provider, oriented with the column on the left -/
inductive Probe where
  | compare (field : Name) (op : BinaryOp) (value : Cell)
  | between (field : Name) (low high : Cell)

/-- whether one value at the field's path answers the question -/
def Probe.accepts : Probe → Json → Bool
  | .compare _ op value, v => compareOp op (env.jsonValueToCell v) value
  | .between _ low high, v =>
    compareOp .ge (env.jsonValueToCell v) low && compareOp .le (env.jsonValueToCell v) high

/-- the field a question is about -/
def Probe.field : Probe → Name
  | .compare field _ _ | .between field _ _ => field

/-- a document satisfies the conjunct behind a question when some value at the path does -/
def Probe.holds (p : Probe) (body : Fields) : Bool := (pathValues body p.field).any (p.accepts env)

/-- the provider's answer -/
def Probe.answer : Probe → Option (List DocId)
  | .compare field op value => (comparisonLookup provider field op value).map Path.ids
  | .between field low high => provider.rangeLookup field (some low) (some high) true true

/-- the questions a WHERE clause can lead to -/
def probes : Expr → List Probe
  | .binary .and l r => probes l ++ probes r
  | .binary .or l r => probes l ++ probes r
  | .binary op l r =>
    match orient env op l r with
    | none => []
    | some (field, other, op) =>
      match env.constCell other with
      | none => []
      | some value => if value.isNull then [] else [.compare field op value]
  | .between e low high =>
    match indexable env e, env.constCell low, env.constCell high with
    | some field, some lo, some hi => if lo.isNull || hi.isNull then [] else [.between field lo hi]
    | _, _, _ => []
  | .inList e values =>
    match indexable env e with
    | some field => ((values.filterMap env.constCell).filter fun c => !c.isNull).map (.compare field .eq)
    | none => []
  | _ => []

/-- `ids` reach every document of the tree that satisfies `e` -/
def Covers (ids : List DocId) (e : Expr) : Prop :=
  ∀ (d : DocId) (body : Fields), tree[d]? = some body → env.predicate e ⟨d, body⟩ = true → d ∈ ids

/-- an answered question reaches every document that satisfies it -/
def Probe.Superset (p : Probe) : Prop :=
  ∀ ids, p.answer provider = some ids →
    ∀ (d : DocId) (body : Fields), tree[d]? = some body → p.holds env body = true → d ∈ ids

/-- the provider never lists a document twice -/
structure IndexProvider.Distinct : Prop where
  exact : ∀ field value ids, provider.exactLookup field value = some ids → ids.Nodup
  range : ∀ field lo hi a b ids, provider.rangeLookup field lo hi a b = some ids → ids.Nodup

section Covers

variable {env : Env} {provider : IndexProvider} {tree : Tree}

/-! ## A conjunct's path reaches the conjunct's documents -/

variable {e : Expr} {field : Name} {op : BinaryOp} {path : Path} {value : Cell} {body : Fields} {d : DocId}
  {ids : List DocId} {values : List Expr} {raw : String} {doc : Doc}

theorem indexable_column (h : indexable env e = some field) :
    ∃ n, e = .column n ∧ env.columnName n = field ∧ isReservedColumn field = false := by
  cases e with
  | column n =>
    simp only [indexable, Option.ite_none_left_eq_some, Bool.not_eq_true, Option.some.injEq] at h
    exact ⟨n, rfl, h.2, h.2 ▸ h.1⟩
  | _ => simp [indexable] at h

/-- an indexable column's candidates are the cells of the values at its path -/
theorem candidates_indexable (h : indexable env e = some field) (d : Doc) :
    (env.eval d e).candidates = (pathValues d.body field).map env.jsonValueToCell := by
  obtain ⟨n, rfl, rfl, hres⟩ := indexable_column h
  simp only [isReservedColumn, Bool.or_eq_false_iff, decide_eq_false_iff_not] at hres
  simp [Env.eval, Env.columnCells, Env.columnValues, pathValues, hres]

theorem comparisonLookup_op (h : comparisonLookup provider field op value = some path) : op.Served := by
  cases op <;> simp_all [comparisonLookup, BinaryOp.Served]

/-- for these the predicate compares the candidates pairwise -/
theorem predicate_compare (l r : Expr) (d : Doc) (h : op.Served) :
    env.predicate (.binary op l r) d = Env.anyPair op (env.eval d l).candidates (env.eval d r).candidates := by
  rcases h with rfl | rfl | rfl | rfl | rfl <;> simp [Env.predicate, Env.eval, Env.Operand.truth]

/-- a comparison of a column with a constant holds when its oriented question does -/
theorem holds_of_predicate {op' : BinaryOp} {l r other : Expr} (ho : orient env op l r = some (field, other, op'))
    (hc : env.constCell other = some value) (hop : op'.Served) (h : env.predicate (.binary op l r) ⟨d, body⟩ = true) :
    (Probe.compare field op' value).holds env body = true := by
  unfold orient at ho
  split at ho
  · rename_i f hf
    cases ho
    rw [predicate_compare l r _ hop, candidates_indexable hf, Env.candidates_const env hc] at h
    simpa [Env.anyPair, Probe.holds, Probe.accepts, Probe.field] using h
  · obtain ⟨f, hf, heq⟩ := Option.map_eq_some_iff.1 ho
    cases heq
    have hop' : op.Served := by
      cases op <;> simp_all [flipOp, BinaryOp.Served]
    rw [predicate_compare l r _ hop', candidates_indexable hf, Env.candidates_const env hc] at h
    -- the column is on the right: the mirrored comparison is the one asked
    simpa [Env.anyPair, Probe.holds, Probe.accepts, Probe.field, compareOp_flip] using h

theorem inLookup_covers (h : inLookup env provider field values = some ids)
    (hs : ∀ value ∈ (values.filterMap env.constCell).filter fun c => !c.isNull, (Probe.compare field .eq value).Superset env provider tree)
    (hd : tree[d]? = some body) {v : Json} (hv : v ∈ pathValues body field)
    (hm : ∃ c ∈ env.evalAll ⟨d, body⟩ values, compareOp .eq (env.jsonValueToCell v) c = true) : d ∈ ids := by
  induction values generalizing ids with
  | nil => simp [Env.evalAll] at hm
  | cons e es ih =>
    simp only [inLookup] at h
    cases hc : env.constCell e with
    | none => simp [hc] at h
    | some value =>
      simp only [hc] at h
      simp only [filterMap_cons, hc] at hs
      obtain ⟨c, hcm, hcomp⟩ := hm
      simp only [Env.evalAll, Env.candidates_const env hc, mem_append, mem_singleton] at hcm
      by_cases hnull : value.isNull = true
      · rw [if_pos hnull] at h
        rcases hcm with rfl | hcm
        · simp [compareOp, hnull] at hcomp
        · exact ih h (fun x hx => hs x (by simpa [hnull] using hx)) ⟨c, hcm, hcomp⟩
      · rw [if_neg hnull] at h
        split at h
        · rename_i found rest hfound hrest
          cases h
          rcases hcm with rfl | hcm
          · refine mem_append_left _ (hs c (by simp [hnull]) found ?_ d body hd ?_)
            · simp [Probe.answer, comparisonLookup, hfound]
            · simp only [Probe.holds, any_eq_true]
              exact ⟨v, hv, hcomp⟩
          · refine mem_append_right _ (ih hrest (fun x hx => hs x ?_) ⟨c, hcm, hcomp⟩)
            simp only [filter_cons, hnull, Bool.not_false, if_true, mem_cons]
            exact .inr hx
        · cases h

/-- **Index paths.** The ids an index lookup serves a conjunct with reach every document that satisfies it, when the
answers to the conjunct's questions do. -/
theorem indexLookup_covers (h : indexLookup env provider e = some path)
    (hne : ∀ l r, e ≠ .binary .and l r ∧ e ≠ .binary .or l r) (hs : ∀ p ∈ probes env e, p.Superset env provider tree) :
    Covers env tree path.ids e := by
  intro d body hd hp
  cases e with
  | binary op l r =>
    simp only [indexLookup] at h
    cases ho : orient env op l r with
    | none => simp [ho] at h
    | some t =>
      obtain ⟨field, other, op'⟩ := t
      simp only [ho] at h
      cases hc : env.constCell other with
      | none => simp [hc] at h
      | some value =>
        simp only [hc] at h
        by_cases hnull : value.isNull = true
        · simp [hnull] at h
        · rw [if_neg hnull] at h
          have hprobe : Probe.compare field op' value ∈ probes env (.binary op l r) := by
            cases op <;> simp_all [probes]
          refine hs _ hprobe path.ids ?_ d body hd ?_
          · simp [Probe.answer, h]
          · exact holds_of_predicate ho hc (comparisonLookup_op h) hp
  | between e low high =>
    simp only [indexLookup] at h
    split at h
    · rename_i field lo hi hf hlo hhi
      by_cases hnull : (lo.isNull || hi.isNull) = true
      · simp [hnull] at h
      · rw [if_neg hnull] at h
        obtain ⟨ids, hids, rfl⟩ := Option.map_eq_some_iff.1 h
        have hprobe : Probe.between field lo hi ∈ probes env (.between e low high) := by
          simp [probes, hf, hlo, hhi, hnull]
        refine hs _ hprobe ids hids d body hd ?_
        simp only [Env.predicate, Env.eval, Env.Operand.truth, candidates_indexable hf, Env.cell_const env hlo,
          Env.cell_const env hhi] at hp
        simpa [Probe.holds, Probe.accepts, Probe.field] using hp
    · cases h
  | inList e values =>
    simp only [indexLookup] at h
    cases hf : indexable env e with
    | none => simp [hf] at h
    | some field =>
      simp only [hf] at h
      obtain ⟨ids, hids, rfl⟩ := Option.map_eq_some_iff.1 h
      simp only [Env.predicate, Env.eval, Env.Operand.truth, Env.anyPair, candidates_indexable hf, any_map,
        any_eq_true, Function.comp] at hp
      obtain ⟨v, hv, hm⟩ := hp
      refine mem_distinct.2 (inLookup_covers hids (fun value hvalue => hs _ ?_) hd hv hm)
      simp only [probes, hf]
      exact mem_map_of_mem hvalue
  | _ => simp [indexLookup] at h
/-! ## Keys -/

theorem isKey_column (h : isKey env e = true) : ∃ n, e = .column n ∧ env.columnName n = ["kdb_id"] := by
  cases e <;> simp_all [isKey]

theorem candidates_key (h : isKey env e = true) (d : Doc) : (env.eval d e).candidates = [.str (env.idString d.id)] := by
  obtain ⟨n, rfl, hn⟩ := isKey_column h
  simp [Env.eval, Env.columnCells, Env.columnValues, hn, Env.jsonValueToCell]

theorem constString_const (h : constString env e = some raw) : env.constCell e = some (.str raw) := by
  unfold constString at h
  split at h <;> simp_all

theorem parse_of_eq (hid : ∀ id, env.parseUUID (env.idString id) = some id) {id : DocId}
    (h : compareOp .eq (.str (env.idString id)) (.str raw) = true) : env.parseUUID raw = some id := by
  have heq : env.idString id = raw := by
    simpa [compareOp, compareComparable, compareSameKind, Cell.isNull, Cell.typeRank, BinaryOp.accepts] using h
  rw [← heq, hid]

theorem mem_evalAll_of_strings {raws : List String} (h : values.mapM (constString env) = some raws) {d : Doc}
    {c : Cell} (hc : c ∈ env.evalAll d values) : ∃ raw ∈ raws, c = .str raw := by
  induction values generalizing raws with
  | nil => simp [Env.evalAll] at hc
  | cons e es ih =>
    simp only [mapM_cons, Option.pure_def, Option.bind_eq_bind, Option.bind_eq_some_iff, Option.some.injEq] at h
    obtain ⟨raw, hraw, rest, hrest, rfl⟩ := h
    simp only [Env.evalAll, Env.candidates_const env (constString_const hraw), mem_append, mem_singleton] at hc
    rcases hc with rfl | hc
    · exact ⟨raw, .head _, rfl⟩
    · obtain ⟨raw', hm, rfl⟩ := ih hrest hc
      exact ⟨raw', .tail _ hm, rfl⟩

/-- **Key paths.** A lookup by document id reaches every document whose id satisfies the conjunct. -/
theorem keyLookup_covers (hid : ∀ id, env.parseUUID (env.idString id) = some id) (h : keyLookup env e = some ids) :
    Covers env tree ids e := by
  intro d body _ hp
  unfold keyLookup at h
  split at h
  · rename_i l r
    rw [predicate_compare l r _ (.inl rfl)] at hp
    by_cases hl : isKey env l = true
    · rw [if_pos hl] at h
      obtain ⟨raw, hraw, rfl⟩ := Option.map_eq_some_iff.1 h
      rw [candidates_key hl, Env.candidates_const env (constString_const hraw)] at hp
      have heq : compareOp .eq (.str (env.idString d)) (.str raw) = true := by simpa [Env.anyPair] using hp
      simp [parse_of_eq hid heq]
    · rw [if_neg hl] at h
      by_cases hr : isKey env r = true
      · rw [if_pos hr] at h
        obtain ⟨raw, hraw, rfl⟩ := Option.map_eq_some_iff.1 h
        rw [candidates_key hr, Env.candidates_const env (constString_const hraw)] at hp
        have heq : compareOp .eq (.str (env.idString d)) (.str raw) = true := by
          rw [← compareOp_flip]
          simpa [Env.anyPair, flipOp] using hp
        simp [parse_of_eq hid heq]
      · simp [hr] at h
  · rename_i e values
    by_cases he : isKey env e = true
    · rw [if_pos he] at h
      obtain ⟨raws, hraws, rfl⟩ := Option.map_eq_some_iff.1 h
      simp only [Env.predicate, Env.eval, Env.Operand.truth, Env.anyPair, candidates_key he, any_cons,
        any_nil, Bool.or_false, any_eq_true] at hp
      obtain ⟨c, hc, hcomp⟩ := hp
      obtain ⟨raw, hm, rfl⟩ := mem_evalAll_of_strings hraws hc
      simp only [mem_distinct, mem_flatMap]
      exact ⟨raw, hm, by simp [parse_of_eq hid hcomp]⟩
    · simp [he] at h
  · cases h

theorem keyLookup_nodup (h : keyLookup env e = some ids) : ids.Nodup := by
  have hone : ∀ o : Option DocId, o.toList.Nodup := by
    intro o
    cases o <;> simp
  unfold keyLookup at h
  split at h
  · split at h
    · obtain ⟨raw, -, rfl⟩ := Option.map_eq_some_iff.1 h
      exact hone _
    · split at h
      · obtain ⟨raw, -, rfl⟩ := Option.map_eq_some_iff.1 h
        exact hone _
      · cases h
  · split at h
    · obtain ⟨raws, -, rfl⟩ := Option.map_eq_some_iff.1 h
      exact nodup_distinct _
    · cases h
  · cases h

theorem indexLookup_nodup (hdist : provider.Distinct) (h : indexLookup env provider e = some path) : path.ids.Nodup := by
  unfold indexLookup at h
  split at h
  · split at h
    · cases h
    · split at h
      · cases h
      · split at h
        · cases h
        · unfold comparisonLookup at h
          split at h
          · obtain ⟨ids, hids, rfl⟩ := Option.map_eq_some_iff.1 h
            exact hdist.exact _ _ _ hids
          all_goals first
            | (obtain ⟨ids, hids, rfl⟩ := Option.map_eq_some_iff.1 h
               exact hdist.range _ _ _ _ _ _ hids)
            | cases h
  · split at h
    · split at h
      · cases h
      · obtain ⟨ids, hids, rfl⟩ := Option.map_eq_some_iff.1 h
        exact hdist.range _ _ _ _ _ _ hids
    · cases h
  · split at h
    · obtain ⟨ids, -, rfl⟩ := Option.map_eq_some_iff.1 h
      exact nodup_distinct _
    · cases h
  · cases h

/-! ## The chosen path -/

/-- everything a candidate offers is a good path for `e` -/
structure Candidate.Serves (env : Env) (tree : Tree) (c : Candidate) (e : Expr) : Prop where
  key : ∀ ids, c.key = some ids → ids.Nodup ∧ Covers env tree ids e
  path : ∀ p, c.path = some p → p.ids.Nodup ∧ Covers env tree p.ids e

theorem Candidate.Serves.mono {c : Candidate} {e' : Expr} (h : c.Serves env tree e)
    (himp : ∀ d, env.predicate e' d = true → env.predicate e d = true) : c.Serves env tree e' :=
  ⟨fun ids hk => ⟨(h.key ids hk).1, fun d body hd hp => (h.key ids hk).2 d body hd (himp _ hp)⟩,
   fun p hk => ⟨(h.path p hk).1, fun d body hd hp => (h.path p hk).2 d body hd (himp _ hp)⟩⟩

variable {cands : List Candidate}

theorem better_mem {P : Path → Prop} (hc : ∀ c ∈ cands, ∀ p, c.path = some p → P p) {best : Option Path}
    (hb : ∀ p, best = some p → P p) : ∀ p, cands.foldl better best = some p → P p := by
  induction cands generalizing best with
  | nil => exact hb
  | cons c cs ih =>
    refine ih (fun c' h => hc c' (.tail _ h)) ?_
    intro p hp
    have hcp := hc c (.head _)
    unfold better at hp
    split at hp
    · exact hcp p hp
    · split at hp
      · exact hb p hp
      · split at hp
        · rename_i q hq
          split at hp
          · cases hp
            exact hcp _ hq
          · exact hb p hp
        · exact hb p hp

theorem choose_covers (h : ∀ c ∈ cands, c.Serves env tree e) (hp : choose cands = some path) :
    path.ids.Nodup ∧ Covers env tree path.ids e := by
  unfold choose at hp
  split at hp
  · rename_i ids hk
    cases hp
    obtain ⟨c, hc, hck⟩ := exists_of_findSome?_eq_some hk
    exact (h c hc).key ids hck
  · refine better_mem (P := fun p => p.ids.Nodup ∧ Covers env tree p.ids e) ?_ (by simp) path hp
    intro c hc p hcp
    exact (h c ((mem_insertionSort _).1 hc)).path p hcp

/-- the paths of a disjunction's disjuncts reach together every document that satisfies it -/
def DisjunctsCover (env : Env) (tree : Tree) (disjuncts : List (Option Path × ℤ)) (e : Expr) : Prop :=
  (∀ d ∈ disjuncts, d.1.isSome) → ∀ (d : DocId) (body : Fields), tree[d]? = some body →
    env.predicate e ⟨d, body⟩ = true → ∃ p, (∃ est, (some p, est) ∈ disjuncts) ∧ d ∈ p.ids

theorem unionPaths_covers {disjuncts : List (Option Path × ℤ)} (h : DisjunctsCover env tree disjuncts e)
    (hp : unionPaths disjuncts = some path) : path.ids.Nodup ∧ Covers env tree path.ids e := by
  unfold unionPaths at hp
  split at hp
  · rename_i hall
    cases hp
    refine ⟨(perm_insertionSort _ _).nodup_iff.2 (nodup_distinct _), ?_⟩
    intro d body hd hpred
    obtain ⟨p, ⟨est, hmem⟩, hdp⟩ := h (by simpa using hall) d body hd hpred
    simp only [mem_insertionSort, mem_distinct, mem_flatMap, mem_filterMap]
    exact ⟨p, ⟨_, hmem, rfl⟩, hdp⟩
  · cases hp

/-- what `paths` offers for an expression is good for that expression -/
structure Paths.Serves (env : Env) (tree : Tree) (ps : Paths) (e : Expr) : Prop where
  conjuncts : ∀ c ∈ ps.conjuncts, c.Serves env tree e
  disjuncts : DisjunctsCover env tree ps.disjuncts e

theorem Paths.serves_ofConjuncts (h : ∀ c ∈ cands, c.Serves env tree e) :
    (Paths.ofConjuncts cands).Serves env tree e := by
  refine ⟨h, ?_⟩
  intro hall d body hd hp
  have hsome : (choose cands).isSome := hall (choose cands, smallestEstimate cands) (by simp [Paths.ofConjuncts])
  obtain ⟨path, hpath⟩ := Option.isSome_iff_exists.1 hsome
  refine ⟨path, ⟨smallestEstimate cands, ?_⟩, (choose_covers h hpath).2 d body hd hp⟩
  simp [Paths.ofConjuncts, hpath]

theorem paths_serve (hid : ∀ id, env.parseUUID (env.idString id) = some id) (hdist : provider.Distinct) (e : Expr)
    (hs : ∀ p ∈ probes env e, p.Superset env provider tree) : (paths env provider e).Serves env tree e := by
  fun_induction paths env provider e with
  | case1 l r ihl ihr =>
    have hl := ihl fun p hp => hs p (by simp [probes, hp])
    have hr := ihr fun p hp => hs p (by simp [probes, hp])
    refine Paths.serves_ofConjuncts ?_
    intro c hc
    rcases mem_append.1 hc with hc | hc
    · refine (hl.conjuncts c hc).mono ?_
      intro d hp
      simp only [Env.predicate_and, Bool.and_eq_true] at hp
      exact hp.1
    · refine (hr.conjuncts c hc).mono ?_
      intro d hp
      simp only [Env.predicate_and, Bool.and_eq_true] at hp
      exact hp.2
  | case2 l r disjuncts ihl ihr =>
    have hl := ihl fun p hp => hs p (by simp [probes, hp])
    have hr := ihr fun p hp => hs p (by simp [probes, hp])
    have hcover : DisjunctsCover env tree disjuncts (.binary .or l r) := by
      intro hall d body hd hp
      simp only [Env.predicate_or, Bool.or_eq_true] at hp
      rcases hp with hp | hp
      · obtain ⟨p, ⟨est, hm⟩, hdp⟩ := hl.disjuncts (fun x hx => hall x (mem_append_left _ hx)) d body hd hp
        exact ⟨p, ⟨est, mem_append_left _ hm⟩, hdp⟩
      · obtain ⟨p, ⟨est, hm⟩, hdp⟩ := hr.disjuncts (fun x hx => hall x (mem_append_right _ hx)) d body hd hp
        exact ⟨p, ⟨est, mem_append_right _ hm⟩, hdp⟩
    refine ⟨?_, hcover⟩
    intro c hc
    rw [mem_singleton.1 hc]
    exact ⟨by simp, fun p hp => unionPaths_covers hcover hp⟩
  | case3 e hand hor =>
    refine Paths.serves_ofConjuncts ?_
    intro c hc
    rw [mem_singleton.1 hc]
    refine ⟨fun ids hk => ⟨keyLookup_nodup hk, keyLookup_covers hid hk⟩, fun p hp => ⟨indexLookup_nodup hdist hp, ?_⟩⟩
    exact indexLookup_covers hp (fun l r => ⟨hand l r, hor l r⟩) hs

/-- **Access paths.** Whatever path the estimates choose, it reaches every document that satisfies the clause. -/
theorem conjunctPath_covers (hid : ∀ id, env.parseUUID (env.idString id) = some id) (hdist : provider.Distinct)
    (hs : ∀ p ∈ probes env e, p.Superset env provider tree) (hp : conjunctPath env provider e = some path) :
    path.ids.Nodup ∧ Covers env tree path.ids e :=
  choose_covers (paths_serve hid hdist e hs).conjuncts hp

/-! ## Fetching what the path reaches -/

theorem mem_fullScan :
    doc ∈ fullScan env tree (some e) ↔ tree[doc.id]? = some doc.body ∧ env.predicate e doc = true := by
  simp only [fullScan, mem_filter, mem_map, Prod.exists, Std.ExtTreeMap.mem_toList_iff_getElem?_eq_some]
  constructor
  · rintro ⟨⟨id, body, hb, rfl⟩, hp⟩
    exact ⟨hb, hp⟩
  · rintro ⟨hb, hp⟩
    exact ⟨⟨doc.id, doc.body, hb, rfl⟩, hp⟩

theorem nodup_fullScan (e : Option Expr) : (fullScan env tree e).Nodup := by
  refine Nodup.filter _ ?_
  rw [List.Nodup, pairwise_map]
  refine Std.ExtTreeMap.distinct_keys_toList.imp ?_
  intro a b hab heq
  have hid : a.1 = b.1 := congrArg Doc.id heq
  exact hab (by simp [hid])

theorem mem_materialize :
    doc ∈ materialize env tree ids e ↔ doc.id ∈ ids ∧ tree[doc.id]? = some doc.body ∧ env.predicate e doc = true := by
  simp only [materialize, mem_filterMap, Option.bind_eq_some_iff, Option.ite_none_right_eq_some, Option.some.injEq]
  constructor
  · rintro ⟨id, hid, body, hb, hp, rfl⟩
    exact ⟨hid, hb, hp⟩
  · rintro ⟨hid, hb, hp⟩
    exact ⟨doc.id, hid, doc.body, hb, hp, rfl⟩

theorem nodup_materialize (h : ids.Nodup) : (materialize env tree ids e).Nodup := by
  refine h.filterMap ?_
  intro a b doc ha hb
  simp only [Option.mem_def, Option.bind_eq_some_iff, Option.ite_none_right_eq_some, Option.some.injEq] at ha hb
  obtain ⟨_, -, -, rfl⟩ := ha
  obtain ⟨_, -, -, heq⟩ := hb
  exact (congrArg Doc.id heq).symm

/-- **Indexed queries.** When the answers the provider gives reach every document that satisfies the question, a
query returns the documents a full scan returns, each once. -/
theorem matchingDocs_perm_fullScan (hid : ∀ id, env.parseUUID (env.idString id) = some id)
    (hdist : provider.Distinct) (e : Expr) (hs : ∀ p ∈ probes env e, p.Superset env provider tree) :
    (matchingDocs env provider tree (some e)).Perm (fullScan env tree (some e)) := by
  simp only [matchingDocs]
  cases hp : conjunctPath env provider e with
  | none => exact Perm.refl _
  | some path =>
    obtain ⟨hnd, hcov⟩ := conjunctPath_covers hid hdist hs hp
    refine (perm_ext_iff_of_nodup (nodup_materialize hnd) (nodup_fullScan _)).2 ?_
    intro doc
    rw [mem_materialize, mem_fullScan]
    constructor
    · rintro ⟨-, hb, hpred⟩
      exact ⟨hb, hpred⟩
    · rintro ⟨hb, hpred⟩
      exact ⟨hcov doc.id doc.body hb hpred, hb, hpred⟩

end Covers

end Kdb.Sql
