/-
Keyed secondary indexes (`index/key.go`, `index/keyenc.go`, `index/paths.go`, `index/memory_store.go`,
`index/event_log.go`, `index/registry.go`).

A HASH or BTREE index files a document under the key of every scalar its field's path reaches. Keys are tagged by
type and ordered by tag first; a typed index (a schema field's `field_type`) files values under other key types.

- `Postings.consistent_put`, `consistent_delete`: applying a document's write or delete to the postings of the tree
  before gives the postings of the tree after (`memoryPreparedPut.Apply`: a delete event, then the new keys).
- `Postings.consistent_applyOps`: so the postings follow a commit's operations.
- `mem_ids`, `mem_rangeScan`: what a lookup and a range scan of consistent postings return; `lookups_exact` says it after
  any history.

The event window behind as-of reads is a `view`: the postings at the commit, or nothing when the history is no longer
held (`ErrHistoryUnavailable`). Left out: vector and composite keys (a composite BTREE is never read by field), key
interning and the byte encoding (keys are compared in the order the encoding gives them).
-/
import Kdb.Sql.Predicate

namespace Kdb.Index

open Kdb.Sql List

/-! ## Keys -/

inductive Key where
  | null
  | bool (b : Bool)
  | int32 (n : ℤ)
  | int64 (n : ℤ)
  | float64 (f : Float64)
  | timestamp (epochMillis : ℤ)
  | str (s : String)
  | uuid (id : ℕ)
  deriving DecidableEq

/-- `keyTag` -/
def Key.tag : Key → ℕ
  | .null => 0
  | .bool _ => 1
  | .int32 _ => 2
  | .int64 _ => 3
  | .float64 _ => 4
  | .timestamp _ => 5
  | .str _ => 6
  | .uuid _ => 7

/-- the order of encoded doubles (`orderFloat64`): numbers, the negative zero before the positive one, NaN last -/
def encOrder (a b : Float64) : Ordering :=
  (compare a.place.1 b.place.1).then
    ((compare a.place.2 b.place.2).then (compare (decide (a ≠ .negZero)) (decide (b ≠ .negZero))))

/-- `CompareKeys`, with the encoding's order where it calls two keys equal -/
def Key.order (a b : Key) : Ordering :=
  (compare a.tag b.tag).then <| match a, b with
    | .bool x, .bool y => compare x y
    | .int32 x, .int32 y | .int64 x, .int64 y | .timestamp x, .timestamp y => compare x y
    | .float64 x, .float64 y => encOrder x y
    | .str x, .str y => compare x y
    | .uuid x, .uuid y => compare x y
    | _, _ => .eq

/-- `from ≤ k ≤ to`, an absent bound being open -/
def Key.within (k : Key) (lo hi : Option Key) : Bool :=
  (lo.all fun a => k.order a ≠ .lt) && hi.all fun b => k.order b ≠ .gt

/-! ## Key extraction -/

/-- the `field_type` labels key extraction distinguishes; every other label maps naturally -/
inductive FieldType where
  | natural | timestamp | uuid | int32 | int64 | float64
  deriving DecidableEq

/-- the text parsers of typed string fields -/
structure Codec where
  timestampFromISO8601 : String → Option ℤ
  uuidFromString : String → Option ℕ

/-- `KeyFromJSONValue`: scalars only -/
def keyFromJSONValue (codec : Codec) (fieldType : FieldType) : Json → Option Key
  | .str s =>
    match fieldType with
    | .timestamp => some (((codec.timestampFromISO8601 s).map Key.timestamp).getD (.str s))
    | .uuid => some (((codec.uuidFromString s).map Key.uuid).getD (.str s))
    | _ => some (.str s)
  | .num n =>
    match fieldType with
    | .int32 => some (.int32 (Int.bmod n (2 ^ 32)))
    | .timestamp => some (.timestamp n)
    | .float64 => some (.float64 (.ofInt64 n))
    | _ => some (.int64 n)
  | .bool b => some (.bool b)
  | .null => some .null
  | .arr _ | .obj _ => none

inductive IndexType where
  | hash | btree | fullText | vector
  deriving DecidableEq

/-- `index.Descriptor`; `descriptorFor` refuses an index of no fields and a HASH index over several -/
structure Descriptor where
  fields : List Name
  type : IndexType
  fieldType : FieldType
  system : Bool
  fields_ne : fields ≠ []
  hash_single : type = .hash → fields.length = 1

variable (desc : Descriptor)

/-- the indexes that file documents under the keys of one field -/
def Descriptor.Keyed : Prop :=
  (desc.type = .hash ∨ desc.type = .btree) ∧ desc.fields.length = 1

def Descriptor.firstField : Name := desc.fields.headD []

/-- `PathValues`: `walkPath` reaches the same values as a column's `CandidatesOf` -/
def pathValues (body : Fields) (path : Name) : List Json := candidatesOf true (.obj body) path

/-- first occurrences, in order (the `seen` maps) -/
def distinct {α : Type} [DecidableEq α] (l : List α) : List α := l.reverse.dedup.reverse

@[simp] theorem mem_distinct {α : Type} [DecidableEq α] {a : α} {l : List α} : a ∈ distinct l ↔ a ∈ l := by
  simp [distinct]

theorem nodup_distinct {α : Type} [DecidableEq α] (l : List α) : (distinct l).Nodup := by
  simpa [distinct] using nodup_dedup l.reverse

/-- `PrepareParsedDocument` of a single-field index -/
def Descriptor.keysOf (codec : Codec) (body : Fields) : List Key :=
  distinct ((pathValues body desc.firstField).filterMap (keyFromJSONValue codec desc.fieldType))

theorem Descriptor.mem_keysOf {desc : Descriptor} {codec : Codec} {body : Fields} {k : Key} :
    k ∈ desc.keysOf codec body ↔
      ∃ v ∈ pathValues body desc.firstField, keyFromJSONValue codec desc.fieldType v = some k := by
  simp [Descriptor.keysOf]

/-! ## Postings -/

/-- which document is filed under which key -/
abbrev Postings := List (Key × DocId)

namespace Postings

variable (p : Postings)

def removeDoc (d : DocId) : Postings := p.filter fun e => e.2 ≠ d

/-- `memoryPreparedPut.Apply` -/
def put (d : DocId) (keys : List Key) : Postings := p.removeDoc d ++ keys.map (·, d)

/-- the documents under one key, in id order (`lookup`) -/
def ids (k : Key) : List DocId := ((p.filter fun e => e.1 = k).map Prod.snd).insertionSort (· ≤ ·)

/-- `rangeScan` over the closed interval, each document once at its first key -/
def rangeScan (lo hi : Option Key) : List DocId :=
  distinct (((p.insertionSort fun a b => (a.1.order b.1).then (compare a.2 b.2) ≠ .gt).filter
    fun e => e.1.within lo hi).map Prod.snd)

/-- the postings are those of the documents of a tree -/
structure Consistent (codec : Codec) (desc : Descriptor) (tree : Tree) (p : Postings) : Prop where
  nodup : p.Nodup
  filed : ∀ (k : Key) (d : DocId), (k, d) ∈ p ↔ ∃ body, tree[d]? = some body ∧ k ∈ desc.keysOf codec body

variable {codec : Codec} {desc : Descriptor} {tree : Tree} {p : Postings}

theorem mem_removeDoc {d d' : DocId} {k : Key} : (k, d') ∈ p.removeDoc d ↔ (k, d') ∈ p ∧ d' ≠ d := by
  simp [removeDoc]

theorem mem_put {d d' : DocId} {k : Key} {keys : List Key} :
    (k, d') ∈ p.put d keys ↔ ((k, d') ∈ p ∧ d' ≠ d) ∨ (d' = d ∧ k ∈ keys) := by
  simp only [put, mem_append, mem_removeDoc, mem_map, Prod.mk.injEq]
  constructor
  · rintro (h | ⟨k', hk, rfl, rfl⟩)
    · exact .inl h
    · exact .inr ⟨rfl, hk⟩
  · rintro (h | ⟨rfl, hk⟩)
    · exact .inl h
    · exact .inr ⟨k, hk, rfl, rfl⟩

theorem consistent_empty : Consistent codec desc ∅ [] :=
  ⟨nodup_nil, by simp⟩

theorem consistent_put (h : Consistent codec desc tree p) (d : DocId) (body : Fields) :
    Consistent codec desc (tree.insert d body) (p.put d (desc.keysOf codec body)) := by
  refine ⟨?_, ?_⟩
  · refine Nodup.append (h.nodup.filter _) ?_ ?_
    · exact (nodup_distinct _).map (Prod.mk_left_injective d)
    · rintro ⟨k, d'⟩ hold hnew
      have hne := (mem_removeDoc.1 hold).2
      simp only [mem_map] at hnew
      obtain ⟨-, -, -, rfl⟩ := hnew
      exact hne rfl
  · intro k d'
    rw [mem_put, Tree.get_insert, h.filed]
    by_cases hd : d' = d
    · subst hd
      simp
    · simp [hd, Ne.symm hd]

theorem consistent_delete (h : Consistent codec desc tree p) (d : DocId) :
    Consistent codec desc (tree.erase d) (p.removeDoc d) := by
  refine ⟨h.nodup.filter _, ?_⟩
  intro k d'
  rw [mem_removeDoc, Tree.get_erase, h.filed]
  by_cases hd : d' = d
  · subst hd
    simp
  · simp [hd, Ne.symm hd]

/-- the index update of one recorded operation (`Registry.ApplyWrite`, `ApplyDelete`) -/
def applyOp (codec : Codec) (desc : Descriptor) (p : Postings) : Op → Postings
  | .write d patch _ =>
    match patch.rootObject with
    | some body => p.put d (desc.keysOf codec body)
    | none => p
  | .delete d => p.removeDoc d
  | .schemaMigration _ _ => p

theorem consistent_applyOp (h : Consistent codec desc tree p) (op : Op) :
    Consistent codec desc (tree.applyOp op) (applyOp codec desc p op) := by
  cases op with
  | write d patch replace =>
    simp only [Tree.applyOp, applyOp]
    cases patch.rootObject with
    | none => exact h
    | some body => exact consistent_put h d body
  | delete d => exact consistent_delete h d
  | schemaMigration m payload => exact h

theorem consistent_applyOps (ops : List Op) (h : Consistent codec desc tree p) :
    Consistent codec desc (tree.applyOps ops) (ops.foldl (applyOp codec desc) p) := by
  induction ops generalizing tree p with
  | nil => exact h
  | cons op ops ih => exact ih (consistent_applyOp h op)

/-! ### Reading consistent postings -/

section

variable (h : Consistent codec desc tree p)
include h

theorem mem_ids {k : Key} {d : DocId} : d ∈ p.ids k ↔ ∃ body, tree[d]? = some body ∧
      ∃ v ∈ pathValues body desc.firstField, keyFromJSONValue codec desc.fieldType v = some k := by
  have hmem : d ∈ p.ids k ↔ (k, d) ∈ p := by
    simp only [ids, mem_insertionSort, mem_map, mem_filter, decide_eq_true_eq]
    constructor
    · rintro ⟨⟨k', d'⟩, ⟨hin, rfl⟩, rfl⟩
      exact hin
    · intro hin
      exact ⟨(k, d), ⟨hin, rfl⟩, rfl⟩
  simp only [hmem, h.filed, Descriptor.mem_keysOf]

theorem nodup_ids (k : Key) : (p.ids k).Nodup := by
  refine (perm_insertionSort _ _).nodup_iff.2 ((nodup_map_iff_inj_on (h.nodup.filter _)).2 ?_)
  rintro ⟨a, d⟩ ha ⟨b, e⟩ hb hde
  simp_all

theorem mem_rangeScan {lo hi : Option Key} {d : DocId} :
    d ∈ p.rangeScan lo hi ↔ ∃ body, tree[d]? = some body ∧ ∃ v ∈ pathValues body desc.firstField,
      ∃ k, keyFromJSONValue codec desc.fieldType v = some k ∧ k.within lo hi = true := by
  have hmem : d ∈ p.rangeScan lo hi ↔ ∃ k, (k, d) ∈ p ∧ k.within lo hi = true := by
    simp [rangeScan]
  simp only [hmem, h.filed, Descriptor.mem_keysOf]
  constructor
  · rintro ⟨k, ⟨body, hb, v, hv, hk⟩, hw⟩
    exact ⟨body, hb, v, hv, k, hk, hw⟩
  · rintro ⟨body, hb, v, hv, k, hk, hw⟩
    exact ⟨k, ⟨body, hb, v, hv, hk⟩, hw⟩

end

end Postings

/-! ## Stores and the registry -/

/-- one registered index; `view` is its postings at the commit read, if it still holds them -/
structure Store where
  desc : Descriptor
  view : Option Postings

/-- a namespace's registered indexes, in registration order -/
abbrev Registry := List Store

/-- `Registry.ByField`: never a composite BTREE, never a system index -/
def Registry.byField (reg : Registry) (field : Name) (typ : IndexType) : Option Store :=
  reg.find? fun s =>
    !(s.desc.type = .btree && 1 < s.desc.fields.length) && s.desc.type = typ && s.desc.firstField = field
      && !s.desc.system

/-- every keyed store that still holds the commit is the index of the commit's tree -/
def Registry.Consistent (reg : Registry) (codec : Codec) (tree : Tree) : Prop :=
  ∀ s ∈ reg, s.desc.Keyed → ∀ p, s.view = some p → Postings.Consistent codec s.desc tree p

/-- what `ByField` answers for a keyed type is a keyed index of that field -/
theorem Registry.byField_spec {reg : Registry} {field : Name} {typ : IndexType} {s : Store}
    (h : reg.byField field typ = some s) (ht : typ = .hash ∨ typ = .btree) :
    s ∈ reg ∧ s.desc.firstField = field ∧ s.desc.Keyed := by
  have hp := List.find?_some h
  simp only [Bool.and_eq_true, decide_eq_true_eq, Bool.not_eq_true', Bool.and_eq_false_iff,
    decide_eq_false_iff_not] at hp
  obtain ⟨⟨⟨hcomp, htyp⟩, hfield⟩, -⟩ := hp
  refine ⟨mem_of_find?_eq_some h, hfield, htyp ▸ ht, ?_⟩
  have hpos : 0 < s.desc.fields.length := length_pos_iff.2 s.desc.fields_ne
  rcases ht with ht | ht
  · exact s.desc.hash_single (htyp.trans ht)
  · have hlen := hcomp.resolve_left (fun hc => hc (htyp.trans ht))
    omega

end Kdb.Index
