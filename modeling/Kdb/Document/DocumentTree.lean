/-
Document trees (`document/document_tree.go`): the map from document ids to content hashes at a commit, kept as a flat map, as
a trie, or both, with its tree hash and its size.

- `document_tree_canonical`: after any operations the tree hash is the hash of the uncompressed trie of the resulting
  map, and every read agrees with the map.

A Go map is an association list in the order its iteration happens to take. SHA-256 is the parameter `sha256`; nothing is
assumed of it.
-/
import Kdb.Lib.Machine
import Kdb.Document.DocumentTrie

namespace Kdb.DocTree

open Function (update update_of_ne update_self)
open List

open Trie

/-- `map[codec.UUID]codec.Hash` -/
abbrev EntryMap := AList fun _ : Key => Hash

/-- the pairs of a map, in the order of an iteration -/
def pairs (m : EntryMap) : List (Key × Hash) := m.entries.map fun e => (e.1, e.2)

/-- `DocumentTree`; `entries` is `none` for a tree backed by its trie alone -/
structure DocumentTree where
  treeHash : Hash
  entries : Option EntryMap := none
  size : ℕ := 0
  trie : Node

variable (sha256 : Bytes → Hash)

/-- ascending by id -/
def sortItems (items : List (Key × Hash)) : List (Key × Hash) := items.insertionSort fun a b => a.1 ≤ b.1

def rootHash (h : Node) : Hash := h.hash (hasher sha256)

variable (entries : EntryMap)

def trieBuild : Node :=
  if (pairs entries).length = 0 then .empty else trieBuildItems sha256 (sortItems (pairs entries))

def trieWith (h : Node) (id : Key) (contentHash : Hash) : Node := (insert sha256 id contentHash h 0).getD h

def trieWithAll (h : Node) (items : List (Key × Hash)) : Node := (insertMany sha256 h items 0).getD h

def trieWithout (h : Node) (id : Key) : Node := (delete sha256 id h 0).getD h

/-- put pairs into a map, one after the other -/
def putAll (m : EntryMap) (items : List (Key × Hash)) : EntryMap := items.foldl (fun m it => m.insert it.1 it.2) m

variable (t : DocumentTree) (e : Key × Hash)

namespace DocumentTree

/-! ## Reads -/

/-- `Size` -/
def count : ℕ :=
  match t.entries with
  | some m => m.keys.length
  | none => t.size

variable (docID : Key)

def hashFor : Option Hash :=
  match t.entries with
  | some m => m.lookup docID
  | none => get docID t.trie 0

def contains : Bool :=
  match t.entries with
  | some m => docID ∈ m
  | none => (get docID t.trie 0).isSome

def materializedEntries : EntryMap :=
  match t.entries with
  | some m => m
  | none => putAll ∅ t.trie.entries

def trieRootOrBuild : Node :=
  match t.entries with
  | none => t.trie
  | some m => if !isEmpty t.trie || (pairs m).length = 0 then t.trie else trieBuild sha256 m

/-! ## Updates -/

/-- `With` -/
def withDoc (contentHash : Hash) : DocumentTree :=
  let h := t.trieRootOrBuild sha256
  let existed := (get docID h 0).isSome
  let nh := trieWith sha256 h docID contentHash
  { treeHash := rootHash sha256 nh, size := if existed then t.count else t.count + 1, trie := nh }

def lastOfEach : List (Key × Hash) → List (Key × Hash)
  | [] => []
  | [a] => [a]
  | a :: b :: items => if a.1 = b.1 then lastOfEach (b :: items) else a :: lastOfEach (b :: items)

def withAll (entries : List (Key × Hash)) : DocumentTree :=
  if entries.length = 0 then t
  else
    let items := lastOfEach (sortItems entries)
    let h := t.trieRootOrBuild sha256
    let newSize := items.foldl (fun n it => if (get it.1 h 0).isSome then n else n + 1) t.count
    let nh := trieWithAll sha256 h items
    { treeHash := rootHash sha256 nh, size := newSize, trie := nh }

def without : DocumentTree :=
  let h := t.trieRootOrBuild sha256
  let existed := (get docID h 0).isSome
  let nh := trieWithout sha256 h docID
  { treeHash := rootHash sha256 nh, size := if existed then t.count - 1 else t.count, trie := nh }

/-! ## Builds and the packed image -/

def buildDocumentTree : DocumentTree :=
  let h := trieBuild sha256 entries
  { treeHash := rootHash sha256 h, entries := some entries, trie := h }

def emptyDocumentTree : DocumentTree := buildDocumentTree sha256 ∅

def buildTrieDocumentTree : DocumentTree :=
  let h := trieBuild sha256 entries
  { treeHash := rootHash sha256 h, size := entries.keys.length, trie := h }

def packedTreeEntrySize : ℕ := 16 + 32

def packEntry : Bytes := e.1.toBytes ++ e.2.toBytes

/-- `AppendPacked`; the walk of a map is sorted afterwards -/
def appendPacked (dst : Bytes) : Bytes :=
  match t.entries with
  | some m => dst ++ (sortItems (pairs m)).flatMap packEntry
  | none => dst ++ t.trie.entries.flatMap packEntry

/-- the entries read in place -/
def packedItems (packed : Bytes) : List (Key × Hash) :=
  (List.range (packed.length / packedTreeEntrySize)).map fun i =>
    (⟨fun j => Bytes.byteAt packed (packedTreeEntrySize * i + j)⟩,
      ⟨fun j => Bytes.byteAt packed (packedTreeEntrySize * i + 16 + j)⟩)

/-- the first index at which the ids do not ascend -/
def outOfOrder : ℕ → List (Key × Hash) → Option ℕ
  | i, a :: b :: items => if b.1 ≤ a.1 then some i else outOfOrder (i + 1) (b :: items)
  | _, _ => none

def buildTrieDocumentTreePacked (packed : Bytes) : Except String DocumentTree :=
  let n := packed.length
  if n % packedTreeEntrySize ≠ 0 then
    .error s!"document: packed tree of {n} bytes is not a whole number of entries"
  else
    let items := packedItems packed
    match outOfOrder 1 items with
    | some i => .error s!"document: packed tree entries out of order at {i}"
    | none =>
      let h := trieBuildItems sha256 items
      .ok { treeHash := rootHash sha256 h, size := items.length, trie := h }

end DocumentTree

/-! ## Sequences of operations -/

inductive Start where
  | empty
  | build (m : EntryMap)
  | buildTrie (m : EntryMap)

inductive Op where
  | withDoc (docID : Key) (contentHash : Hash)
  | withAll (entries : List (Key × Hash))
  | without (docID : Key)
  /-- pack the tree and build it again from the image -/
  | repack

def Start.tree : Start → DocumentTree
  | .empty => DocumentTree.emptyDocumentTree sha256
  | .build m => DocumentTree.buildDocumentTree sha256 m
  | .buildTrie m => DocumentTree.buildTrieDocumentTree sha256 m

def Start.map : Start → EntryMap
  | .empty => ∅
  | .build m | .buildTrie m => m

def step : Op → Except String DocumentTree
  | .withDoc docID contentHash => .ok (t.withDoc sha256 docID contentHash)
  | .withAll entries => .ok (t.withAll sha256 entries)
  | .without docID => .ok (t.without sha256 docID)
  | .repack => DocumentTree.buildTrieDocumentTreePacked sha256 (t.appendPacked [])

/-- what the operations make of the map -/
def stepMap (m : EntryMap) : Op → EntryMap
  | .withDoc docID contentHash => m.insert docID contentHash
  | .withAll entries => putAll m entries
  | .without docID => m.erase docID
  | .repack => m

def trees (s : Start) (ops : List Op) : Except String DocumentTree := ops.foldlM (step sha256) (s.tree sha256)

def resultMap (s : Start) (ops : List Op) : EntryMap := Machine.run stepMap s.map ops

local instance neZero : NeZero 16 := ⟨by decide⟩

/-- the hash of the uncompressed trie of a map -/
def merkleHash (m : EntryMap) : Hash :=
  (uncompressed nibbles (hasher sha256) m.lookup trieDepth fun _ => 0).getD Hash.zero

/-! ## Maps and lists of pairs -/

/-- pairs put into a map as a function, one after the other -/
def setAll (f : Key → Option Hash) (items : List (Key × Hash)) : Key → Option Hash :=
  items.foldl (fun f it => update f it.1 (some it.2)) f

theorem lookup_insert_fun (m : EntryMap) (k : Key) (c : Hash) :
    (fun a => (m.insert k c).lookup a) = update (fun a => m.lookup a) k (some c) := by
  funext a
  by_cases ha : a = k
  · subst ha
    rw [update_self, AList.lookup_insert]
  · rw [update_of_ne ha, AList.lookup_insert_ne ha]

theorem lookup_erase_fun (m : EntryMap) (k : Key) :
    (fun a => (m.erase k).lookup a) = update (fun a => m.lookup a) k none := by
  funext a
  by_cases ha : a = k
  · subst ha
    rw [update_self, AList.lookup_erase]
  · rw [update_of_ne ha, AList.lookup_erase_ne ha]

theorem lookup_putAll (m : EntryMap) (items : List (Key × Hash)) :
    (fun a => (putAll m items).lookup a) = setAll (fun a => m.lookup a) items := by
  induction items generalizing m with
  | nil => rfl
  | cons it items ih =>
    rw [putAll, foldl_cons, ← putAll, ih, lookup_insert_fun]
    rfl

variable {f : Key → Option Hash} {items : List (Key × Hash)} {k : Key} {m' : EntryMap}

theorem setAll_of_notMem (hk : k ∉ items.map Prod.fst) : setAll f items k = f k := by
  induction items generalizing f with
  | nil => rfl
  | cons it items ih =>
    rw [map_cons, mem_cons, not_or] at hk
    rw [setAll, foldl_cons, ← setAll, ih hk.2, update_of_ne hk.1]

theorem setAll_filter (f : Key → Option Hash) (items : List (Key × Hash)) (k : Key) :
    setAll f items k = setAll f (items.filter fun it => it.1 = k) k := by
  induction items generalizing f with
  | nil => rfl
  | cons it items ih =>
    rw [setAll, foldl_cons, ← setAll, ih]
    by_cases hk : it.1 = k
    · rw [filter_cons_of_pos (by simpa using hk)]
      rfl
    · rw [filter_cons_of_neg (by simpa using hk)]
      -- the value at `k` does not depend on what is set elsewhere
      have hbase : ∀ (l : List (Key × Hash)) (f g : Key → Option Hash), f k = g k → setAll f l k = setAll g l k := by
        intro l
        induction l with
        | nil => exact fun f g h => h
        | cons x l ihl =>
          intro f g h
          rw [setAll, setAll, foldl_cons, foldl_cons]
          refine ihl _ _ ?_
          by_cases hx : k = x.1
          · rw [hx, update_self, update_self]
          · rw [update_of_ne hx, update_of_ne hx, h]
      exact hbase _ _ _ (update_of_ne (Ne.symm hk) _ _)

theorem setAll_sets (hnodup : (items.map Prod.fst).Nodup) : Sets f (setAll f items) items := by
  refine ⟨fun it hit => ?_, fun k hk => setAll_of_notMem hk⟩
  induction items generalizing f with
  | nil => cases hit
  | cons x items ih =>
    rw [map_cons, nodup_cons] at hnodup
    rw [setAll, foldl_cons, ← setAll]
    rcases mem_cons.1 hit with rfl | hit
    · rw [setAll_of_notMem hnodup.1, update_self]
    · exact ih hnodup.2 hit

theorem mem_sortItems {it : Key × Hash} : it ∈ sortItems items ↔ it ∈ items :=
  mem_insertionSort _

instance : Std.Total fun a b : Key × Hash => a.1 ≤ b.1 := ⟨fun a b => le_total a.1 b.1⟩

instance : IsTrans (Key × Hash) fun a b => a.1 ≤ b.1 := ⟨fun _ _ _ => le_trans⟩

theorem sorted_sortItems (items : List (Key × Hash)) : (sortItems items).Pairwise fun a b => a.1 ≤ b.1 :=
  pairwise_insertionSort _ _

theorem sortItems_strict (hnodup : (items.map Prod.fst).Nodup) : (sortItems items).Pairwise fun a b => a.1 < b.1 := by
  have hperm : (sortItems items).Perm items := perm_insertionSort _ _
  have hne : (sortItems items).Pairwise fun a b => a.1 ≠ b.1 :=
    pairwise_map.1 ((hperm.map Prod.fst).nodup_iff.2 hnodup)
  exact ((sorted_sortItems items).and hne).imp fun h => lt_of_le_of_ne h.1 h.2

theorem sortItems_filter (items : List (Key × Hash)) (k : Key) :
    ((sortItems items).filter fun it => it.1 = k) = items.filter fun it => it.1 = k := by
  have hinsert : ∀ (x : Key × Hash) (l : List (Key × Hash)),
      ((l.orderedInsert (fun a b => a.1 ≤ b.1) x).filter fun it => it.1 = k) = (x :: l).filter fun it => it.1 = k := by
    intro x l
    induction l with
    | nil => rfl
    | cons y l ih =>
      rw [orderedInsert_cons]
      split_ifs with hle
      · rfl
      · rw [filter_cons, ih]
        by_cases hx : x.1 = k
        · have hy : y.1 ≠ k := fun hy => hle (by rw [hx, hy])
          simp [hx, hy]
        · simp [hx, filter_cons]
  induction items with
  | nil => rfl
  | cons x items ih =>
    rw [sortItems, insertionSort_cons, hinsert, filter_cons, filter_cons]
    rw [sortItems] at ih
    rw [ih]

theorem setAll_sortItems (f : Key → Option Hash) (items : List (Key × Hash)) : setAll f (sortItems items) = setAll f items := by
  funext k
  rw [setAll_filter, sortItems_filter, ← setAll_filter]

namespace DocumentTree

theorem setAll_lastOfEach (f : Key → Option Hash) (items : List (Key × Hash)) : setAll f (lastOfEach items) = setAll f items := by
  induction items using lastOfEach.induct generalizing f with
  | case1 => rfl
  | case2 a => rfl
  | case3 a b items heq ih =>
    rw [lastOfEach, if_pos heq, ih]
    simp only [setAll, foldl_cons, heq, Function.update_idem]
  | case4 a b items hne ih =>
    rw [lastOfEach, if_neg hne, setAll, foldl_cons, ← setAll, ih]
    rfl

variable {items : List (Key × Hash)}

theorem mem_keys_lastOfEach {k : Key} : k ∈ (lastOfEach items).map Prod.fst ↔ k ∈ items.map Prod.fst := by
  induction items using lastOfEach.induct with
  | case1 => rfl
  | case2 a => rfl
  | case3 a b items heq ih =>
    rw [lastOfEach, if_pos heq, ih]
    simp [heq]
  | case4 a b items hne ih =>
    rw [lastOfEach, if_neg hne, map_cons, mem_cons, ih]
    simp

theorem lastOfEach_strict (hsorted : items.Pairwise fun a b => a.1 ≤ b.1) :
    (lastOfEach items).Pairwise fun a b => a.1 < b.1 := by
  induction items using lastOfEach.induct with
  | case1 => exact .nil
  | case2 a => exact pairwise_singleton _ _
  | case3 a b items heq ih =>
    rw [lastOfEach, if_pos heq]
    exact ih (pairwise_cons.1 hsorted).2
  | case4 a b items hne ih =>
    obtain ⟨hfirst, hsorted⟩ := pairwise_cons.1 hsorted
    rw [lastOfEach, if_neg hne, pairwise_cons]
    refine ⟨fun x hx => ?_, ih hsorted⟩
    have hab : a.1 < b.1 := lt_of_le_of_ne (hfirst b mem_cons_self) hne
    obtain ⟨y, hy, hyx⟩ := mem_map.1 (mem_keys_lastOfEach.1 (mem_map_of_mem hx))
    rw [← hyx]
    rcases mem_cons.1 hy with rfl | hy
    · exact hab
    · exact hab.trans_le ((pairwise_cons.1 hsorted).1 y hy)

/-! ## The packed image -/

theorem length_packEntry : (packEntry e).length = packedTreeEntrySize := by
  simp [packEntry, Key.toBytes, Hash.toBytes, packedTreeEntrySize]

theorem byteAt_ofFn {n : ℕ} (f : Fin n → UInt8) (b : Bytes) (j : Fin n) : Bytes.byteAt (List.ofFn f ++ b) j = f j := by
  rw [Bytes.byteAt_append_left _ _ _ (by simp)]
  simp [Bytes.byteAt]

theorem packedItems_cons (b : Bytes) : packedItems (packEntry e ++ b) = e :: packedItems b := by
  have hlen : (packEntry e ++ b).length / packedTreeEntrySize = b.length / packedTreeEntrySize + 1 := by
    rw [length_append, length_packEntry, Nat.add_comm, Nat.add_div_right _ (by decide)]
  have hkey : ∀ j : Fin 16, Bytes.byteAt (packEntry e ++ b) (packedTreeEntrySize * 0 + j) = e.1.bytes j := by
    intro j
    rw [Nat.mul_zero, Nat.zero_add, packEntry, Key.toBytes, append_assoc, byteAt_ofFn]
  have hhash : ∀ j : Fin 32, Bytes.byteAt (packEntry e ++ b) (packedTreeEntrySize * 0 + 16 + j) = e.2.bytes j := by
    intro j
    have hkeyLen : e.1.toBytes.length = 16 := by simp [Key.toBytes]
    rw [Nat.mul_zero, packEntry, append_assoc]
    have := Bytes.byteAt_append e.1.toBytes (e.2.toBytes ++ b) j
    rw [hkeyLen] at this
    rw [this, Hash.toBytes, byteAt_ofFn]
  have hrest : ∀ i o, Bytes.byteAt (packEntry e ++ b) (packedTreeEntrySize * (i + 1) + o) =
      Bytes.byteAt b (packedTreeEntrySize * i + o) := by
    intro i o
    have := Bytes.byteAt_append (packEntry e) b (packedTreeEntrySize * i + o)
    rw [length_packEntry] at this
    rw [← this]
    congr 1
    ring
  rw [packedItems, hlen, range_succ_eq_map, map_cons, map_map]
  congr 1
  · exact Prod.ext (Key.ext (funext hkey)) (Hash.ext (funext hhash))
  · refine map_congr_left fun i _ => ?_
    simp only [Function.comp_apply, hrest, Nat.add_assoc]

/-- **Round trip.** The image of some entries reads back as them. -/
theorem packedItems_pack (es : List (Key × Hash)) : packedItems (es.flatMap packEntry) = es := by
  induction es with
  | nil => rfl
  | cons e es ih => rw [flatMap_cons, packedItems_cons, ih]

theorem length_pack (es : List (Key × Hash)) : (es.flatMap packEntry).length % packedTreeEntrySize = 0 := by
  have : (es.flatMap packEntry).length = es.length * packedTreeEntrySize := by
    simp [length_packEntry]
  rw [this, Nat.mul_mod_left]

theorem outOfOrder_eq_none (hsorted : items.Pairwise fun a b => a.1 < b.1) (i : ℕ) : outOfOrder i items = none := by
  induction items generalizing i with
  | nil => rfl
  | cons a items ih =>
    rcases items with _ | ⟨b, items⟩
    · rfl
    · obtain ⟨hfirst, hsorted⟩ := pairwise_cons.1 hsorted
      rw [outOfOrder, if_neg (not_le.2 (hfirst b mem_cons_self))]
      exact ih hsorted (i + 1)

end DocumentTree

/-! ## Trees that hold a map -/

theorem mem_pairs {m : EntryMap} {c : Hash} : (k, c) ∈ pairs m ↔ m.lookup k = some c := by
  rw [pairs, mem_map]
  constructor
  · rintro ⟨⟨k', c'⟩, he, heq⟩
    cases heq
    exact AList.mem_lookup_iff.2 he
  · intro h
    exact ⟨⟨k, c⟩, AList.mem_lookup_iff.1 h, rfl⟩

theorem keys_pairs (m : EntryMap) : (pairs m).map Prod.fst = m.keys := by
  rw [pairs, map_map]
  rfl

theorem mem_keys_iff {m : EntryMap} : k ∈ m.keys ↔ m.lookup k ≠ none := by
  rw [← AList.mem_keys, ← Option.isSome_iff_ne_none, AList.lookup_isSome]

theorem length_keys_congr {m : EntryMap} (heq : ∀ k, m.lookup k = m'.lookup k) : m.keys.length = m'.keys.length := by
  refine ((perm_ext_iff_of_nodup m.nodupKeys m'.nodupKeys).2 fun k => ?_).length_eq
  exact mem_keys_iff.trans (heq k ▸ mem_keys_iff.symm)

variable {sha256 : Bytes → Hash} {t : DocumentTree} {m : EntryMap}

variable (sha256) in
/-- a tree holds a map: its trie is the canonical one, and its flat map and size, where they are kept, are the map's -/
structure Holds (t : DocumentTree) (m : EntryMap) : Prop where
  trie : IsTrie sha256 (fun k => m.lookup k) 0 (fun _ => 0) t.trie
  hash : t.treeHash = rootHash sha256 t.trie
  entries : ∀ e, t.entries = some e → ∀ k, e.lookup k = m.lookup k
  size : t.entries = none → t.size = m.keys.length

section

variable (h : Holds sha256 t m)
include h

theorem Holds.get (k : Key) : get k t.trie 0 = m.lookup k := get_canon h.trie under_zero

theorem Holds.count : t.count = m.keys.length := by
  unfold DocumentTree.count
  cases he : t.entries with
  | none => exact h.size he
  | some e => exact length_keys_congr (h.entries e he)

theorem Holds.hashFor (k : Key) : t.hashFor k = m.lookup k := by
  unfold DocumentTree.hashFor
  cases he : t.entries with
  | none => exact h.get k
  | some e => exact h.entries e he k

theorem Holds.contains (k : Key) : t.contains k = (m.lookup k).isSome := by
  unfold DocumentTree.contains
  cases he : t.entries with
  | none => rw [h.get k]
  | some e =>
    rw [← h.entries e he k, Bool.eq_iff_iff, decide_eq_true_iff, AList.lookup_isSome]

theorem Holds.materializedEntries (k : Key) : t.materializedEntries.lookup k = m.lookup k := by
  unfold DocumentTree.materializedEntries
  cases he : t.entries with
  | some e => exact h.entries e he k
  | none =>
    have hsets := @setAll_sets (fun a => (∅ : EntryMap).lookup a) _
      (pairwise_map.2 (h.trie.entries_sorted.imp fun hlt => hlt.ne))
    have hput := congrFun (lookup_putAll ∅ t.trie.entries) k
    rw [hput]
    by_cases hk : k ∈ t.trie.entries.map Prod.fst
    · obtain ⟨⟨k', c⟩, hit, rfl⟩ := mem_map.1 hk
      rw [hsets.set _ hit]
      exact (h.trie.mem_entries.1 hit).2.symm
    · rw [hsets.keep k hk]
      cases hm : m.lookup k with
      | none => simp
      | some c => exact absurd (mem_map_of_mem (h.trie.mem_entries.2 ⟨under_zero, hm⟩)) hk

/-- **The hash is the map's.** -/
theorem Holds.treeHash : t.treeHash = merkleHash sha256 m := by
  rw [h.hash, rootHash, ← h.trie.uncompressed_eq (Nat.zero_le _)]
  rfl

theorem Holds.trieRootOrBuild : t.trieRootOrBuild sha256 = t.trie := by
  unfold DocumentTree.trieRootOrBuild
  cases he : t.entries with
  | none => rfl
  | some e =>
    dsimp only
    split
    · rfl
    · -- a kept map with entries has a trie with entries
      rename_i hno
      simp only [Bool.or_eq_true, Bool.not_eq_true', decide_eq_true_eq, not_or, Bool.not_eq_false] at hno
      obtain ⟨⟨k, c⟩, hit⟩ := exists_mem_of_ne_nil _ fun hnil => hno.2 (length_eq_zero_iff.2 hnil)
      have hk := h.get k
      rw [isEmpty_iff.1 hno.1, ← h.entries e he k, mem_pairs.1 hit] at hk
      cases hk

theorem Holds.congr (heq : ∀ k, m.lookup k = m'.lookup k) : Holds sha256 t m' := by
  refine ⟨?_, h.hash, fun e he k => (h.entries e he k).trans (heq k), fun he => (h.size he).trans (length_keys_congr heq)⟩
  rw [← (funext heq : m.lookup = m'.lookup)]
  exact h.trie

end

theorem holds_of_trie {nh : Node} {n : ℕ} (hn : IsTrie sha256 (fun k => m.lookup k) 0 (fun _ => 0) nh)
    (hsize : n = m.keys.length) : Holds sha256 { treeHash := rootHash sha256 nh, size := n, trie := nh } m :=
  ⟨hn, rfl, nofun, fun _ => hsize⟩

/-! ## Operations -/

theorem length_keys_insert (m : EntryMap) (k : Key) (c : Hash) :
    (m.insert k c).keys.length = if (m.lookup k).isSome then m.keys.length else m.keys.length + 1 := by
  rw [AList.keys_insert, length_cons, length_erase]
  by_cases hk : k ∈ m.keys
  · have hpos : 0 < m.keys.length := length_pos_of_mem hk
    rw [if_pos hk, if_pos (AList.lookup_isSome.2 hk)]
    omega
  · rw [if_neg hk, if_neg (fun hs => hk (AList.lookup_isSome.1 hs))]

theorem Holds.withDoc (h : Holds sha256 t m) (k : Key) (c : Hash) :
    Holds sha256 (t.withDoc sha256 k c) (m.insert k c) := by
  unfold DocumentTree.withDoc
  rw [h.trieRootOrBuild]
  refine holds_of_trie ?_ ?_
  · rw [lookup_insert_fun]
    exact insert_canon h.trie under_zero
  · rw [h.get, h.count, length_keys_insert]

theorem Holds.without (h : Holds sha256 t m) (k : Key) : Holds sha256 (t.without sha256 k) (m.erase k) := by
  unfold DocumentTree.without
  rw [h.trieRootOrBuild]
  refine holds_of_trie ?_ ?_
  · rw [lookup_erase_fun]
    exact delete_canon h.trie under_zero
  · rw [h.get, h.count, AList.keys_erase, length_erase]
    by_cases hk : k ∈ m.keys
    · rw [if_pos hk, if_pos (AList.lookup_isSome.2 hk)]
    · rw [if_neg hk, if_neg (fun hs => hk (AList.lookup_isSome.1 hs))]

theorem length_keys_putAll (hnodup : (items.map Prod.fst).Nodup) (hf : ∀ it ∈ items, f it.1 = m.lookup it.1) :
    items.foldl (fun n it => if (f it.1).isSome then n else n + 1) m.keys.length = (putAll m items).keys.length := by
  induction items generalizing m with
  | nil => rfl
  | cons it items ih =>
    rw [map_cons, nodup_cons] at hnodup
    rw [foldl_cons, hf it mem_cons_self, ← length_keys_insert m it.1 it.2, ih hnodup.2]
    · rfl
    · intro x hx
      have hne : x.1 ≠ it.1 := fun heq => hnodup.1 (heq ▸ mem_map_of_mem hx)
      rw [hf x (.tail _ hx), AList.lookup_insert_ne hne]

theorem Holds.withAll (h : Holds sha256 t m) (entries : List (Key × Hash)) :
    Holds sha256 (t.withAll sha256 entries) (putAll m entries) := by
  unfold DocumentTree.withAll
  split_ifs with hlen
  · rw [length_eq_zero_iff.1 hlen]
    exact h
  · have hstrict := DocumentTree.lastOfEach_strict (sorted_sortItems entries)
    have hnodup : ((DocumentTree.lastOfEach (sortItems entries)).map Prod.fst).Nodup :=
      pairwise_map.2 (hstrict.imp fun hlt => hlt.ne)
    have hlook : (fun a => (putAll m entries).lookup a) =
        setAll (fun a => m.lookup a) (DocumentTree.lastOfEach (sortItems entries)) := by
      rw [lookup_putAll, DocumentTree.setAll_lastOfEach, setAll_sortItems]
    have hne : DocumentTree.lastOfEach (sortItems entries) ≠ [] := by
      intro hnil
      obtain ⟨e, he⟩ := exists_mem_of_ne_nil entries fun hn => hlen (length_eq_zero_iff.2 hn)
      have hmem := DocumentTree.mem_keys_lastOfEach.2 (mem_map_of_mem (mem_sortItems.2 he))
      rw [hnil] at hmem
      cases hmem
    rw [h.trieRootOrBuild]
    refine holds_of_trie ?_ ?_
    · rw [hlook]
      exact insertMany_canon h.trie (Nat.zero_le _) _ _ hne hstrict (fun _ _ => under_zero) (setAll_sets hnodup)
    · rw [h.count]
      refine (length_keys_putAll (f := fun k => DocTree.get k t.trie 0) hnodup fun it _ => h.get it.1).trans ?_
      refine length_keys_congr fun k => ?_
      rw [congrFun hlook k, ← congrFun (lookup_putAll m _) k]

/-! ## Builds -/

theorem pairs_nodup (m : EntryMap) : ((pairs m).map Prod.fst).Nodup := by
  rw [keys_pairs]
  exact m.nodupKeys

theorem trieBuild_canon (m : EntryMap) : IsTrie sha256 (fun k => m.lookup k) 0 (fun _ => 0) (trieBuild sha256 m) := by
  unfold trieBuild
  split_ifs with hlen
  · refine .empty fun k _ => ?_
    rw [Option.eq_none_iff_forall_ne_some]
    intro c hc
    have hmem := mem_pairs.2 hc
    rw [length_eq_zero_iff.1 hlen] at hmem
    cases hmem
  · exact trieBuildItems_canon (sortItems_strict (pairs_nodup m)) fun k c => (mem_sortItems.trans mem_pairs).symm

theorem Start.holds (s : Start) : Holds sha256 (s.tree sha256) s.map := by
  have hbuild : ∀ m : EntryMap, Holds sha256 (DocumentTree.buildDocumentTree sha256 m) m := by
    intro m
    refine ⟨trieBuild_canon m, rfl, ?_, nofun⟩
    intro e he k
    cases he
    rfl
  cases s with
  | empty => exact hbuild ∅
  | build m => exact hbuild m
  | buildTrie m => exact holds_of_trie (trieBuild_canon m) rfl

/-- the entries a tree packs: those of the map, in ascending order -/
theorem Holds.appendPacked (h : Holds sha256 t m) : ∃ es : List (Key × Hash),
    t.appendPacked [] = es.flatMap DocumentTree.packEntry ∧ (es.Pairwise fun a b => a.1 < b.1) ∧
      ∀ k c, m.lookup k = some c ↔ (k, c) ∈ es := by
  unfold DocumentTree.appendPacked
  cases he : t.entries with
  | some e =>
    refine ⟨sortItems (pairs e), rfl, sortItems_strict (pairs_nodup e), ?_⟩
    intro k c
    rw [mem_sortItems, mem_pairs, h.entries e he k]
  | none =>
    refine ⟨t.trie.entries, rfl, h.trie.entries_sorted, ?_⟩
    intro k c
    rw [h.trie.mem_entries]
    exact ⟨fun hm => ⟨under_zero, hm⟩, fun hm => hm.2⟩

theorem length_of_pairs {es : List (Key × Hash)} (hsorted : es.Pairwise fun a b => a.1 < b.1)
    (hes : ∀ k c, m.lookup k = some c ↔ (k, c) ∈ es) : es.length = m.keys.length := by
  have hnodup : (es.map Prod.fst).Nodup := pairwise_map.2 (hsorted.imp fun hlt => hlt.ne)
  rw [← length_map Prod.fst]
  refine ((perm_ext_iff_of_nodup hnodup m.nodupKeys).2 fun k => ?_).length_eq
  refine Iff.trans ?_ mem_keys_iff.symm
  rw [Option.ne_none_iff_exists', mem_map]
  constructor
  · rintro ⟨⟨k', c⟩, hit, rfl⟩
    exact ⟨c, (hes k' c).2 hit⟩
  · rintro ⟨c, hc⟩
    exact ⟨(k, c), (hes k c).1 hc, rfl⟩

/-- **A round through the packed image.** -/
theorem Holds.repack (h : Holds sha256 t m) :
    ∃ t', DocumentTree.buildTrieDocumentTreePacked sha256 (t.appendPacked []) = .ok t' ∧ Holds sha256 t' m := by
  obtain ⟨es, heq, hsorted, hes⟩ := h.appendPacked
  refine ⟨_, ?_, holds_of_trie (trieBuildItems_canon hsorted hes) (length_of_pairs hsorted hes)⟩
  rw [heq]
  simp only [DocumentTree.buildTrieDocumentTreePacked, DocumentTree.length_pack, DocumentTree.packedItems_pack,
    DocumentTree.outOfOrder_eq_none hsorted, ne_eq, not_true_eq_false, if_false]

/-! ## Whole sequences -/

theorem Holds.step (h : Holds sha256 t m) (op : Op) :
    ∃ t', DocTree.step sha256 t op = .ok t' ∧ Holds sha256 t' (stepMap m op) := by
  cases op with
  | withDoc k c => exact ⟨_, rfl, h.withDoc k c⟩
  | withAll entries => exact ⟨_, rfl, h.withAll entries⟩
  | without k => exact ⟨_, rfl, h.without k⟩
  | repack => exact h.repack

theorem Holds.run (h : Holds sha256 t m) (ops : List Op) :
    ∃ t', ops.foldlM (DocTree.step sha256) t = .ok t' ∧ Holds sha256 t' (Machine.run stepMap m ops) := by
  induction ops generalizing t m with
  | nil => exact ⟨t, rfl, h⟩
  | cons op ops ih =>
    obtain ⟨t₁, hstep, h₁⟩ := h.step op
    obtain ⟨t₂, hrun, h₂⟩ := ih h₁
    refine ⟨t₂, ?_, h₂⟩
    rw [foldlM_cons, hstep]
    exact hrun

theorem trees_holds (sha256 : Bytes → Hash) (s : Start) (ops : List Op) :
    ∃ t, trees sha256 s ops = .ok t ∧ Holds sha256 t (resultMap s ops) := s.holds.run ops

/-- **Document trees are canonical.** Every sequence of operations succeeds. The hash it ends with is that of the uncompressed
trie of the map it makes, so that sequences making the same map end with the same hash, and every read agrees with the map. -/
theorem document_tree_canonical (sha256 : Bytes → Hash) (s : Start) (ops : List Op) :
    ∃ t, trees sha256 s ops = .ok t ∧ t.treeHash = merkleHash sha256 (resultMap s ops) ∧
      (∀ k, t.hashFor k = (resultMap s ops).lookup k) ∧
      (∀ k, t.contains k = ((resultMap s ops).lookup k).isSome) ∧
      t.count = (resultMap s ops).keys.length ∧
      (∀ k, t.materializedEntries.lookup k = (resultMap s ops).lookup k) ∧
      ∀ s' ops' t', trees sha256 s' ops' = .ok t' →
        (∀ k, (resultMap s' ops').lookup k = (resultMap s ops).lookup k) → t'.treeHash = t.treeHash := by
  obtain ⟨t, htrees, h⟩ := trees_holds sha256 s ops
  refine ⟨t, htrees, h.treeHash, h.hashFor, h.contains, h.count, h.materializedEntries, ?_⟩
  intro s' ops' t' htrees' heq
  obtain ⟨t'', htrees'', h'⟩ := trees_holds sha256 s' ops'
  cases htrees'.symm.trans htrees''
  have hlook : (resultMap s' ops').lookup = (resultMap s ops).lookup := funext heq
  rw [h'.treeHash, h.treeHash, merkleHash, merkleHash, hlook]

end Kdb.DocTree
