/-
The trie behind a document tree (`document/document_tree_trie.go`): sixteen children a node, one nibble of the document id a
level, leaves compressed. Insert, split and delete for one entry, `insertMany` and `buildMany` for a batch, and the bulk
build of a whole tree.

Each edit makes the records of its path anew and shares the others; `none` is the answer "the subtree itself", which the
source gives by returning the reference it was passed. A record is a value here: the slab that holds the records, their
reference counts and the mapped segments are left out. SHA-256 is the parameter `sha256`.

- `spineOnlyChild_eq`, `foldLeaf_eq`: resuming from the state after the constant blocks hashes the full preimage, and a leaf
  folded at its depth has the hash of its uncompressed spine.
- `insert_canon`, `delete_canon`, `build_canon`, `insertMany_canon`: every edit takes the canonical trie of a map to the
  canonical trie of the changed map.
- `get_canon`: a lookup reads the map.
-/
import Kdb.Lib.Bytes
import Kdb.Lib.MerkleTrie

namespace Kdb.DocTree

open Function (update update_of_ne update_self)
open List Option

open Trie

/-! ## Ids and hashes -/

/-- a document id by its sixteen bytes, most significant first (`uuidKey`) -/
@[ext] structure Key where
  bytes : Fin 16 → UInt8

@[ext] structure Hash where
  bytes : Fin 32 → UInt8
  deriving DecidableEq

def Key.toBytes (k : Key) : Bytes := List.ofFn k.bytes

def Hash.toBytes (h : Hash) : Bytes := List.ofFn h.bytes

/-- `trieZero` -/
def Hash.zero : Hash := ⟨fun _ => 0⟩

/-- the order of `bytes.Compare` -/
instance : LinearOrder Key :=
  LinearOrder.lift' (fun k => List.ofFn fun i => (k.bytes i).toNat) (by
    intro a b h
    ext i
    exact congrFun (ofFn_injective h) i)

def trieDepth : ℕ := 32

/-- `keyNibble`, `nibbleAt` -/
def keyNibble (k : Key) (depth : ℕ) : Fin 16 :=
  let b := k.bytes (Fin.ofNat 16 (depth >>> 1))
  if depth &&& 1 = 0 then Fin.ofNat 16 (b >>> 4).toNat else Fin.ofNat 16 (b &&& 0x0f).toNat

def ofNibbles (path : ℕ → Fin 16) : Key := ⟨fun j => UInt8.ofNat (16 * (path (2 * j)).val + (path (2 * j + 1)).val)⟩

theorem keyNibble_even (k : Key) (j : Fin 16) : (keyNibble k (2 * j)).val = (k.bytes j).toNat / 16 := by
  have hj : Fin.ofNat 16 (2 * j.val / 2) = j := by
    simp
  have hlt := (k.bytes j).toNat_lt
  simp only [keyNibble, Nat.shiftRight_one]
  simp
  omega

theorem keyNibble_odd (k : Key) (j : Fin 16) : (keyNibble k (2 * j + 1)).val = (k.bytes j).toNat % 16 := by
  have hj : Fin.ofNat 16 ((2 * j.val + 1) / 2) = j := by
    ext
    simp
    omega
  have hand : (k.bytes j).toNat &&& 15 = (k.bytes j).toNat % 16 := Nat.and_two_pow_sub_one_eq_mod _ 4
  simp only [keyNibble, Nat.shiftRight_one, hj]
  simp [hand]

theorem toNat_bytes (k : Key) (j : Fin 16) :
    (k.bytes j).toNat = 16 * (keyNibble k (2 * j)).val + (keyNibble k (2 * j + 1)).val := by
  rw [keyNibble_even, keyNibble_odd]
  omega

variable {a b id : Key} {hash c : Hash} {n depth : ℕ} {items : List (Key × Hash)} {it : Key × Hash}
  {m' : Key → Option Hash}

theorem Key.lt_of_byte (j : Fin 16) (heq : ∀ i < j, a.bytes i = b.bytes i)
    (hlt : (a.bytes j).toNat < (b.bytes j).toNat) : a < b := by
  change (List.ofFn fun i => (a.bytes i).toNat) < List.ofFn fun i => (b.bytes i).toNat
  rw [List.lt_iff_exists]
  refine Or.inr ⟨j, by simp, by simp, ?_, ?_⟩
  · intro i hi
    rw [List.getElem_ofFn, List.getElem_ofFn, heq ⟨i, by omega⟩ hi]
  · rw [List.getElem_ofFn, List.getElem_ofFn]
    exact hlt

theorem bytes_eq {j : Fin 16} (h₀ : keyNibble a (2 * j) = keyNibble b (2 * j))
    (h₁ : keyNibble a (2 * j + 1) = keyNibble b (2 * j + 1)) : a.bytes j = b.bytes j := by
  rw [← UInt8.toNat_inj, toNat_bytes, toNat_bytes, h₀, h₁]

/-- **Ids read nibble by nibble.** -/
def nibbles : Digits Key 16 where
  depth := trieDepth
  digit := keyNibble
  ofDigits := ofNibbles
  digit_ofDigits := by
    intro path d hd
    have hbyte : ∀ j : Fin 16, ((ofNibbles path).bytes j).toNat = 16 * (path (2 * j)).val + (path (2 * j + 1)).val := by
      intro j
      simp only [ofNibbles, UInt8.toNat_ofNat']
      omega
    obtain ⟨j, hj | hj⟩ := Nat.even_or_odd' d
    · have hlt : j < 16 := by unfold trieDepth at hd; omega
      ext
      rw [hj, show j = (⟨j, hlt⟩ : Fin 16).val from rfl, keyNibble_even, hbyte]
      omega
    · have hlt : j < 16 := by unfold trieDepth at hd; omega
      ext
      rw [hj, show j = (⟨j, hlt⟩ : Fin 16).val from rfl, keyNibble_odd, hbyte]
      omega
  ext := by
    intro a b h
    ext j
    have hlt := j.isLt
    exact congrArg UInt8.toNat (bytes_eq (h _ (by unfold trieDepth; omega)) (h _ (by unfold trieDepth; omega)))
  lt_of_digit := by
    intro a b d hd heq hlt
    rw [Fin.lt_def] at hlt
    -- the byte of the first nibble that differs is the first byte that differs
    obtain ⟨j, hj⟩ : ∃ j, d = 2 * j ∨ d = 2 * j + 1 := Nat.even_or_odd' d
    have hj16 : j < 16 := by unfold trieDepth at hd; omega
    refine Key.lt_of_byte ⟨j, hj16⟩ ?_ ?_
    · intro i hi
      have : i.val < j := hi
      exact bytes_eq (heq _ (by omega)) (heq _ (by omega))
    · rw [toNat_bytes, toNat_bytes]
      dsimp only
      rcases hj with rfl | rfl
      · omega
      · have := congrArg Fin.val (heq (2 * j) (by omega))
        omega

/-! ## Hashing -/

variable (sha256 : Bytes → Hash)

def leafHash (k : Key) (content : Hash) : Hash := sha256 (0x00 :: k.toBytes ++ content.toBytes)

/-- the hash of an internal node: sixteen slots after a tag -/
def internalHash (children : Fin 16 → Hash) : Hash :=
  sha256 (0x01 :: (List.ofFn fun i => (children i).toBytes).flatten)

/-- leaf = H(0x00, id, content), internal = H(0x01, children), nothing = zero -/
def hasher : Hasher Key Hash Hash 16 := ⟨Hash.zero, leafHash sha256, internalHash sha256⟩

variable (nib : Fin 16)

/-- how many leading bytes of a single-child preimage are whole blocks of its constant part -/
def onlyChildSkip : ℕ := (1 + nib.val * 32) / 64 * 64

/-- `spineHasher.onlyChild`: the whole buffer, or what is left of it after the blocks whose state was kept -/
def spineOnlyChild (childHash : Hash) : Hash :=
  let skip := onlyChildSkip nib
  if skip = 0 then
    sha256 (0x01 :: Bytes.zeros (nib * 32) ++ childHash.toBytes ++ Bytes.zeros (16 * 32 - nib * 32 - 32))
  else
    let constant := 0x01 :: Bytes.zeros (skip - 1)
    let tail := Bytes.zeros (1 + nib * 32 - skip) ++ childHash.toBytes ++ Bytes.zeros (16 * 32 - nib * 32 - 32)
    sha256 (constant ++ tail)

def foldLeaf (k : Key) (content : Hash) (depth : ℕ) : Hash :=
  let h := leafHash sha256 k content
  if trieDepth ≤ depth then h
  else (List.range' depth (trieDepth - depth)).foldr (fun d h => spineOnlyChild sha256 (keyNibble k d) h) h

/-! ## Edits of one entry -/

/-- records and references; `empty` is the reference 0 -/
abbrev Node := Trie Key Hash Hash 16

def newLeaf (k : Key) (content : Hash) (depth : ℕ) : Node := .leaf (foldLeaf sha256 k content depth) k content

variable (children : Fin 16 → Node)

def newNode : Node :=
  .node (sha256 (0x01 :: (List.ofFn fun i => ((children i).hash (hasher sha256)).toBytes).flatten)) children

/-- the level two keys part on, from `d` on -/
def partAt (a b : Key) : ℕ → ℕ → ℕ
  | 0, d => d
  | n + 1, d => if keyNibble a d = keyNibble b d then partAt a b n (d + 1) else d

def split (exID : Key) (exContent : Hash) (key : Key) (content : Hash) (depth : ℕ) : Node :=
  let d := partAt exID key (trieDepth - depth) depth
  if d = trieDepth then newLeaf sha256 key content depth
  else
    let children := update
      (update (fun _ => Trie.empty) (keyNibble exID d) (newLeaf sha256 exID exContent (d + 1)))
      (keyNibble key d) (newLeaf sha256 key content (d + 1))
    (List.range' depth (d - depth)).foldr
      (fun k node => newNode sha256 (update (fun _ => Trie.empty) (keyNibble key k) node))
      (newNode sha256 children)

/-- `trieEdit.insert`; `none` is the subtree itself -/
def insert (key : Key) (content : Hash) : Node → ℕ → Option Node
  | .empty, depth => some (newLeaf sha256 key content depth)
  | .leaf _ id c, depth =>
    if id = key then
      if c = content then none else some (newLeaf sha256 key content depth)
    else some (split sha256 id c key content depth)
  | .node _ child, depth =>
    if depth = trieDepth then some (newLeaf sha256 key content depth)
    else
      let nib := keyNibble key depth
      match insert key content (child nib) (depth + 1) with
      | none => none
      | some nc => some (newNode sha256 (update child nib nc))

def isEmpty : Node → Bool
  | .empty => true
  | _ => false

/-- what is left of a node one of whose children went -/
def recompress (depth : ℕ) : Node :=
  match (List.finRange 16).filter fun i => !isEmpty (children i) with
  | [] => .empty
  | [i] =>
    match children i with
    | .leaf _ id c => newLeaf sha256 id c depth
    | _ => newNode sha256 children
  | _ => newNode sha256 children

/-- `trieEdit.delete`; `none` is the subtree itself -/
def delete (key : Key) : Node → ℕ → Option Node
  | .empty, _ => none
  | .leaf _ id _, _ => if id = key then some .empty else none
  | .node _ child, depth =>
    if depth = trieDepth then none
    else
      let nib := keyNibble key depth
      match delete key (child nib) (depth + 1) with
      | none => none
      | some nc => some (recompress sha256 (update child nib nc) depth)

/-! ## Batches -/

/-- the runs of items sharing the nibble at `depth`, in order -/
def runs (depth : ℕ) : List (Key × Hash) → List (Fin 16 × List (Key × Hash))
  | [] => []
  | it :: items =>
    match runs depth items with
    | [] => [(keyNibble it.1 depth, [it])]
    | (nib, run) :: rest =>
      if keyNibble it.1 depth = nib then (nib, it :: run) :: rest
      else (keyNibble it.1 depth, [it]) :: (nib, run) :: rest

/-- `forEachRun` over an array of children: `f` gives a run's new child, or nothing if it stays; the flag says if any
changed -/
def forEachRun (depth : ℕ) (items : List (Key × Hash)) (f : Fin 16 → List (Key × Hash) → Option Node)
    (children : Fin 16 → Node) : (Fin 16 → Node) × Bool :=
  (runs depth items).foldl (fun (children, changed) (nib, run) =>
    match f nib run with
    | none => (children, changed)
    | some nc => (update children nib nc, true)) (children, false)

/-- `trieBulk.build`, with `n` levels left -/
def build : ℕ → List (Key × Hash) → Node
  | 0, items =>
    match items.getLast? with
    | none => .empty
    | some last => newLeaf sha256 last.1 last.2 trieDepth
  | n + 1, items =>
    match items with
    | [] => .empty
    | [it] => newLeaf sha256 it.1 it.2 (trieDepth - (n + 1))
    | items =>
      newNode sha256 (forEachRun (trieDepth - (n + 1)) items (fun _ run => some (build n run)) fun _ => .empty).1

/-- `trieEdit.buildMany` does what the bulk build does -/
def buildMany (items : List (Key × Hash)) (depth : ℕ) : Node := build sha256 (trieDepth - depth) items

/-- `trieEdit.insertMany`; `none` is the subtree itself -/
def insertMany : Node → List (Key × Hash) → ℕ → Option Node
  | r, [it], depth => insert sha256 it.1 it.2 r depth
  | .empty, items, depth => some (buildMany sha256 items depth)
  | .leaf _ id c, items, depth =>
    -- one entry below: it joins the items, unless one of them replaces it
    let before := items.takeWhile fun it => it.1 < id
    let after := items.dropWhile fun it => it.1 < id
    if (after.head?.any fun it => it.1 = id) then some (buildMany sha256 items depth)
    else some (buildMany sha256 (before ++ (id, c) :: after) depth)
  | .node _ child, items, depth =>
    let (children, changed) :=
      forEachRun depth items (fun nib run => insertMany (child nib) run (depth + 1)) child
    if changed then some (newNode sha256 children) else none

/-- `trieBuildItems`: from many items on, the sixteen subtrees are built apart -/
def trieBuildItems (items : List (Key × Hash)) : Node :=
  if items.length = 0 then .empty
  else if 4096 ≤ items.length then
    newNode sha256 (forEachRun 0 items (fun _ run => some (build sha256 (trieDepth - 1) run)) fun _ => .empty).1
  else build sha256 trieDepth items

/-! ## Reads -/

def get (key : Key) : Node → ℕ → Option Hash
  | .empty, _ => none
  | .leaf _ id c, _ => if id = key then some c else none
  | .node _ child, depth => if trieDepth ≤ depth then none else get key (child (keyNibble key depth)) (depth + 1)

/-! ## Spines -/

theorem zeros_append (a b : ℕ) : Bytes.zeros a ++ Bytes.zeros b = Bytes.zeros (a + b) := replicate_append_replicate

/-- sixteen slots with one of them filled -/
theorem flatten_slots (c : Bytes) (nib n : ℕ) :
    (List.ofFn fun i : Fin n => if i.val = nib then c else Bytes.zeros 32).flatten =
      if nib < n then Bytes.zeros (nib * 32) ++ c ++ Bytes.zeros (n * 32 - nib * 32 - 32) else Bytes.zeros (n * 32) := by
  induction n with
  | zero => rfl
  | succ n ih =>
    rw [ofFn_succ_last, flatten_append, flatten_singleton]
    simp only [Fin.val_castSucc, Fin.val_last, ih]
    rcases lt_trichotomy nib n with hlt | rfl | hgt
    · rw [if_pos hlt, if_neg (by omega), if_pos (by omega), append_assoc, zeros_append]
      congr 2
      omega
    · rw [if_neg (lt_irrefl _), if_pos rfl, if_pos (Nat.lt_succ_self _)]
      have : (nib + 1) * 32 - nib * 32 - 32 = 0 := by omega
      rw [this]
      exact (append_nil _).symm
    · rw [if_neg (by omega), if_neg (by omega), if_neg (by omega), zeros_append]
      congr 1
      omega

theorem Hash.zero_toBytes : Hash.zero.toBytes = Bytes.zeros 32 := by
  rfl

theorem onlyChild_eq (h : Hash) : onlyChild (hasher sha256) nib h =
    sha256 (0x01 :: (Bytes.zeros (nib * 32) ++ h.toBytes ++ Bytes.zeros (16 * 32 - nib * 32 - 32))) := by
  have hslot : ∀ i : Fin 16, (update (fun _ => Hash.zero) nib h i).toBytes =
      if i.val = nib.val then h.toBytes else Bytes.zeros 32 := by
    intro i
    by_cases hi : i = nib
    · subst hi
      rw [update_self, if_pos rfl]
    · rw [update_of_ne hi, if_neg (fun hv => hi (Fin.ext hv)), Hash.zero_toBytes]
  have hslots := flatten_slots h.toBytes nib.val 16
  rw [if_pos nib.isLt] at hslots
  change sha256 (0x01 :: (List.ofFn fun i => (update (fun _ => Hash.zero) nib h i).toBytes).flatten) = _
  simp only [hslot, hslots]

/-- **The kept blocks.** Resuming after them hashes the full preimage. -/
theorem spineOnlyChild_eq (h : Hash) : spineOnlyChild sha256 nib h = onlyChild (hasher sha256) nib h := by
  rw [onlyChild_eq]
  simp only [spineOnlyChild]
  split_ifs with hskip
  · rw [cons_append, cons_append]
  · have hle : onlyChildSkip nib ≤ 1 + nib * 32 := by
      unfold onlyChildSkip
      omega
    congr 1
    rw [cons_append, ← append_assoc, ← append_assoc, zeros_append]
    congr 4
    omega

theorem foldLeaf_eq (k : Key) (content : Hash) (depth : ℕ) :
    foldLeaf sha256 k content depth = spine nibbles (hasher sha256) k content depth := by
  unfold foldLeaf
  split
  · rename_i hd
    exact (spine_of_le (D := nibbles) (X := hasher sha256) hd).symm
  · simp only [spineOnlyChild_eq]
    rfl

variable {sha256} {m : Key → Option Hash} {path : ℕ → Fin 16} {d : ℕ} {t : Node} {key : Key} {content : Hash}

theorem newNode_eq :
    newNode sha256 children = .node ((hasher sha256).node fun i => (children i).hash (hasher sha256)) children := rfl

variable {child : Fin 16 → Node}

theorem get_node (hd : d < trieDepth) : get key (.node hash child) d = get key (child (keyNibble key d)) (d + 1) := by
  rw [get, if_neg (Nat.not_le.2 hd)]

theorem insert_node (hd : d < trieDepth) : insert sha256 key content (.node hash child) d =
      (insert sha256 key content (child (keyNibble key d)) (d + 1)).map fun nc =>
        newNode sha256 (update child (keyNibble key d) nc) := by
  simp only [insert, if_neg (Nat.ne_of_lt hd)]
  cases insert sha256 key content (child (keyNibble key d)) (d + 1) <;> rfl

theorem delete_node (hd : d < trieDepth) : delete sha256 key (.node hash child) d =
      (delete sha256 key (child (keyNibble key d)) (d + 1)).map fun nc =>
        recompress sha256 (update child (keyNibble key d) nc) d := by
  simp only [delete, if_neg (Nat.ne_of_lt hd)]
  cases delete sha256 key (child (keyNibble key d)) (d + 1) <;> rfl

variable (sha256 m) in
/-- the canonical trie of `m` below a path -/
abbrev IsTrie (d : ℕ) (path : ℕ → Fin 16) (t : Node) : Prop := Canon nibbles (hasher sha256) m d path t

theorem newLeaf_canon (hid : Under nibbles path d key) (hm : m key = some content)
    (hother : ∀ k, Under nibbles path d k → k ≠ key → m k = none) : IsTrie sha256 m d path (newLeaf sha256 key content d) := by
  rw [newLeaf, foldLeaf_eq]
  exact .leaf hid hm hother

/-! ## Lookups -/

/-- **A lookup reads the map.** -/
theorem get_canon (ht : IsTrie sha256 m d path t) (hk : Under nibbles path d key) : get key t d = m key := by
  induction ht with
  | empty hnone => exact (hnone key hk).symm
  | leaf hid hm hother =>
    simp only [get]
    split
    · rename_i heq
      rw [← heq, hm]
    · rename_i hne
      exact (hother key hk fun heq => hne heq.symm).symm
  | node hd _ _ _ _ _ _ ih =>
    rw [get_node hd]
    exact ih _ (under_step hk)

/-! ## Inserting one entry -/

/-- the level found is the first on which the keys differ -/
theorem partAt_spec (hne : ∃ e, d ≤ e ∧ e < d + n ∧ keyNibble a e ≠ keyNibble b e) :
    d ≤ partAt a b n d ∧ partAt a b n d < d + n ∧ keyNibble a (partAt a b n d) ≠ keyNibble b (partAt a b n d) ∧
      ∀ e, d ≤ e → e < partAt a b n d → keyNibble a e = keyNibble b e := by
  induction n generalizing d with
  | zero =>
    omega
  | succ n ih =>
    unfold partAt
    split
    · rename_i heq
      obtain ⟨e, h1, h2, h3⟩ := hne
      have hed : e ≠ d := by
        rintro rfl
        exact h3 heq
      obtain ⟨g1, g2, g3, g4⟩ := @ih (d + 1) ⟨e, by omega, by omega, h3⟩
      refine ⟨by omega, by omega, g3, fun e' h h' => ?_⟩
      rcases Nat.eq_or_lt_of_le h with rfl | h
      · exact heq
      · exact g4 e' h h'
    · rename_i hdiff
      exact ⟨le_rfl, by omega, hdiff, fun e h h' => by omega⟩

/-- single-child nodes above a canonical subtree, as long as its keys agree -/
theorem wrap_canon (hab : a ≠ b) (hma : m a ≠ none) (hmb : m b ≠ none)
    (honly : ∀ k, Under nibbles (keyNibble b) d k → m k ≠ none → k = a ∨ k = b)
    (hagree : ∀ e < d + n, keyNibble a e = keyNibble b e) (ht : IsTrie sha256 m (d + n) (keyNibble b) t) :
    IsTrie sha256 m d (keyNibble b) ((List.range' d n).foldr
      (fun k node => newNode sha256 (update (fun _ => Trie.empty) (keyNibble b k) node)) t) := by
  induction n generalizing d with
  | zero => exact ht
  | succ n ih =>
    have hstep : update (keyNibble b) d (keyNibble b d) = keyNibble b := Function.update_eq_self _ _
    refine Canon.only (fun e he => hagree e (by omega)) (fun e _ => rfl) hab hma hmb ?_ ?_
    · intro k hk hm
      rcases honly k hk hm with rfl | rfl
      · exact hagree d (by omega)
      · rfl
    · rw [hstep]
      refine ih (fun k hk hm => honly k (fun e he => hk e (by omega)) hm) (fun e he => hagree e (by omega)) ?_
      rwa [show d + 1 + n = d + (n + 1) by omega]

/-- **A split leaf.** -/
theorem split_canon (hid : Under nibbles path d id) (hm : m id = some c)
    (hother : ∀ k, Under nibbles path d k → k ≠ id → m k = none) (hk : Under nibbles path d key) (hne : id ≠ key) :
    IsTrie sha256 (update m key (some content)) d path (split sha256 id c key content d) := by
  have hagree : ∀ e < d, keyNibble id e = keyNibble key e := fun e he => (hid e he).trans (hk e he).symm
  obtain ⟨e, hed, he32, hdiff⟩ : ∃ e, d ≤ e ∧ e < trieDepth ∧ keyNibble id e ≠ keyNibble key e := by
    by_contra hno
    refine hne (nibbles.ext id key fun e he => ?_)
    by_contra hdiff
    exact hno ⟨e, Nat.le_of_not_lt fun hlt => hdiff (hagree e hlt), he, hdiff⟩
  obtain ⟨hle, hlt, hpart, hsame⟩ := partAt_spec (n := trieDepth - d) ⟨e, hed, by omega, hdiff⟩
  set p := partAt id key (trieDepth - d) d with hp
  have hkeys : ∀ k, Under nibbles (keyNibble key) d k → update m key (some content) k ≠ none → k = id ∨ k = key := by
    intro k hunder hmk
    by_contra hno
    rw [not_or] at hno
    rw [update_of_ne hno.2] at hmk
    exact hmk (hother k (fun e he => (hunder e he).trans (hk e he)) hno.1)
  have hmid : update m key (some content) id = some c := by rw [update_of_ne hne, hm]
  have hmkey : update m key (some content) key = some content := update_self _ _ _
  have hall : ∀ e < p, keyNibble id e = keyNibble key e := by
    intro e he
    rcases Nat.lt_or_ge e d with hlt | hge
    · exact hagree e hlt
    · exact hsame e hge he
  simp only [split]
  rw [if_neg (by omega)]
  refine (wrap_canon (n := p - d) hne (by rw [hmid]; nofun) (by rw [hmkey]; nofun) hkeys
    (fun e he => hall e (by omega)) ?_).path_congr hk
  rw [Nat.add_sub_cancel' hle]
  -- where they part, each is alone below its own nibble
  have hbelow : ∀ k, Under nibbles (keyNibble key) p k → Under nibbles (keyNibble key) d k :=
    fun k hunder e he => hunder e (by omega)
  have halone : ∀ i k, Under nibbles (update (keyNibble key) p i) (p + 1) k →
      (k = id → i ≠ keyNibble id p) → (k = key → i ≠ keyNibble key p) → update m key (some content) k = none := by
    intro i k hunder hid hkey
    obtain ⟨hunder, hdigit⟩ := under_succ.1 hunder
    by_contra hmk
    rcases hkeys k (hbelow k hunder) hmk with rfl | rfl
    · exact hid rfl hdigit.symm
    · exact hkey rfl hdigit.symm
  refine Canon.branch hall (fun e _ => rfl) hne (by rw [hmid]; nofun) (by rw [hmkey]; nofun) fun i => ?_
  by_cases hik : i = keyNibble key p
  · subst hik
    rw [update_self]
    exact newLeaf_canon (under_succ.2 ⟨fun e _ => rfl, rfl⟩) hmkey fun k hunder hkk =>
      halone _ k hunder (fun _ => hpart.symm) fun h => absurd h hkk
  · rw [update_of_ne hik]
    by_cases hii : i = keyNibble id p
    · subst hii
      rw [update_self]
      exact newLeaf_canon (under_succ.2 ⟨hall, rfl⟩) hmid fun k hunder hkk =>
        halone _ k hunder (fun h => absurd h hkk) fun _ => hik
    · rw [update_of_ne hii]
      exact .empty fun k hunder => halone i k hunder (fun _ => hii) fun _ => hik

/-- children with one of them changed, below a changed key -/
theorem update_children {v : Option Hash} {nc : Node}
    (hchild : ∀ i, IsTrie sha256 m (d + 1) (update path d i) (child i))
    (hnc : IsTrie sha256 (update m key v) (d + 1) (update path d (keyNibble key d)) nc) (i : Fin 16) :
    IsTrie sha256 (update m key v) (d + 1) (update path d i) (update child (keyNibble key d) nc i) := by
  by_cases hi : i = keyNibble key d
  · subst hi
    rw [update_self]
    exact hnc
  · rw [update_of_ne hi]
    refine (hchild i).congr fun k hunder => ?_
    refine update_of_ne (fun heq => hi ?_) _ _
    rw [← heq]
    exact (under_succ.1 hunder).2.symm

/-- **Insert.** -/
theorem insert_canon (ht : IsTrie sha256 m d path t) (hk : Under nibbles path d key) :
    IsTrie sha256 (update m key (some content)) d path ((insert sha256 key content t d).getD t) := by
  induction ht with
  | empty hnone =>
    refine newLeaf_canon hk (update_self _ _ _) fun k hunder hne => ?_
    rw [update_of_ne hne]
    exact hnone k hunder
  | leaf hid hm hother =>
    rename_i id c
    simp only [insert]
    split
    · rename_i heq
      subst heq
      have hrest := fun k hunder (hne : k ≠ id) => (update_of_ne hne (some content) m).trans (hother k hunder hne)
      split
      · rename_i heq
        subst heq
        exact .leaf hid (update_self _ _ _) hrest
      · exact newLeaf_canon hid (update_self _ _ _) hrest
    · exact split_canon hid hm hother hk ‹_›
  | node hd ha hb hab hma hmb hchild ih =>
    rename_i d path a b child
    have hkeep : ∀ k, m k ≠ none → update m key (some content) k ≠ none := by
      intro k hmk
      by_cases hkk : k = key
      · rw [hkk, update_self]
        nofun
      · rwa [update_of_ne hkk]
    have hnc := ih (keyNibble key d) (under_step hk)
    rw [insert_node hd]
    cases hins : insert sha256 key content (child (keyNibble key d)) (d + 1) with
    | none =>
      rw [hins] at hnc
      refine .node hd ha hb hab (hkeep a hma) (hkeep b hmb) fun i => ?_
      have := update_children hchild hnc i
      rwa [getD_none, Function.update_eq_self] at this
    | some nc =>
      rw [hins] at hnc
      exact .node hd ha hb hab (hkeep a hma) (hkeep b hmb) (update_children hchild hnc)

/-! ## Deleting one entry -/

theorem delete_eq_none (ht : IsTrie sha256 m d path t) (hk : Under nibbles path d key) :
    delete sha256 key t d = none ↔ m key = none := by
  induction ht with
  | empty hnone => exact iff_of_true rfl (hnone key hk)
  | leaf hid hm hother =>
    simp only [delete]
    split
    · rename_i heq
      rw [← heq, hm]
      exact iff_of_false nofun nofun
    · rename_i hne
      exact iff_of_true rfl (hother key hk fun heq => hne heq.symm)
  | node hd _ _ _ _ _ _ ih =>
    rw [← ih _ (under_step hk), delete_node hd, map_eq_none_iff]
    rfl

theorem isEmpty_iff : isEmpty t = true ↔ t = .empty := by
  cases t <;> simp [isEmpty]

/-- **What is left of a node.** -/
theorem recompress_canon {children : Fin 16 → Node}
    (hchild : ∀ i, IsTrie sha256 m (d + 1) (update path d i) (children i)) :
    IsTrie sha256 m d path (recompress sha256 children d) := by
  have hpresent : ∀ i, i ∈ (List.finRange 16).filter (fun i => !isEmpty (children i)) ↔ children i ≠ .empty := by
    simp [← isEmpty_iff]
  -- an entry is below the child of its nibble, which is then not empty
  have hdigit : ∀ k, Under nibbles path d k → m k ≠ none →
      keyNibble k d ∈ (List.finRange 16).filter fun i => !isEmpty (children i) := by
    intro k hk hm
    rw [hpresent]
    intro hempty
    have := hchild (keyNibble k d)
    rw [hempty] at this
    cases this with
    | empty hnone => exact hm (hnone k (under_step hk))
  unfold recompress
  split
  · rename_i hnil
    refine .empty fun k hk => ?_
    by_contra hm
    have := hdigit k hk hm
    rw [hnil] at this
    cases this
  · rename_i i hone
    have honly : ∀ k, Under nibbles path d k → m k ≠ none → keyNibble k d = i := by
      intro k hk hm
      have := hdigit k hk hm
      rw [hone] at this
      exact mem_singleton.1 this
    have hci := hchild i
    split
    · rename_i hash id c heq
      rw [heq] at hci
      rw [newLeaf, foldLeaf_eq]
      exact hci.leaf_of_only honly
    · rename_i hnotLeaf
      cases hc : children i with
      | empty => exact absurd hc ((hpresent i).1 (hone ▸ mem_singleton.2 rfl))
      | leaf hash id c => exact absurd hc (hnotLeaf hash id c)
      | node hash child =>
        rw [hc] at hci
        cases hci with
        | node _ ha hb hab hma hmb =>
          exact .branch (under_succ.1 ha).1 (under_succ.1 hb).1 hab hma hmb hchild
  · rename_i hnil hone
    -- two children that are not empty hold different entries
    obtain ⟨i, j, hij, hi, hj⟩ : ∃ i j, i ≠ j ∧ children i ≠ .empty ∧ children j ≠ .empty := by
      rcases hl : (List.finRange 16).filter (fun i => !isEmpty (children i)) with _ | ⟨i, _ | ⟨j, l⟩⟩
      · exact absurd hl hnil
      · exact absurd hl (hone i)
      · have hnodup : ((List.finRange 16).filter fun i => !isEmpty (children i)).Nodup := (nodup_finRange 16).filter _
        rw [hl, nodup_cons] at hnodup
        exact ⟨i, j, fun heq => hnodup.1 (heq ▸ .head _), (hpresent i).1 (hl ▸ .head _), (hpresent j).1 (hl ▸ .tail _ (.head _))⟩
    obtain ⟨a, ha, hma⟩ := (hchild i).exists_mem hi
    obtain ⟨b, hb, hmb⟩ := (hchild j).exists_mem hj
    refine .branch (under_succ.1 ha).1 (under_succ.1 hb).1 (fun heq => hij ?_) hma hmb hchild
    rw [← (under_succ.1 ha).2, ← (under_succ.1 hb).2, heq]

/-- **Delete.** -/
theorem delete_canon (ht : IsTrie sha256 m d path t) (hk : Under nibbles path d key) :
    IsTrie sha256 (update m key none) d path ((delete sha256 key t d).getD t) := by
  by_cases hmk : m key = none
  · have hsame : update m key none = m := by rw [← hmk, Function.update_eq_self]
    rw [(delete_eq_none ht hk).2 hmk, hsame]
    exact ht
  induction ht with
  | empty hnone => exact absurd (hnone key hk) hmk
  | leaf hid hm hother =>
    rename_i id c
    have hid : id = key := by
      by_contra hne
      exact hmk (hother key hk fun heq => hne heq.symm)
    subst hid
    simp only [delete]
    refine .empty fun k hunder => ?_
    by_cases hki : k = id
    · rw [hki, update_self]
    · rw [update_of_ne hki]
      exact hother k hunder hki
  | node hd ha hb hab hma hmb hchild ih =>
    rename_i d path a b child
    have hnc := ih (keyNibble key d) (under_step hk)
    have hsome : delete sha256 key (child (keyNibble key d)) (d + 1) ≠ none :=
      fun hnone => hmk ((delete_eq_none (hchild _) (under_step hk)).1 hnone)
    obtain ⟨nc, hdel⟩ := ne_none_iff_exists'.1 hsome
    rw [hdel] at hnc
    rw [delete_node hd, hdel]
    exact recompress_canon (update_children hchild hnc)

/-! ## Runs -/

/-- the items with a nibble -/
def runOf (depth : ℕ) (items : List (Key × Hash)) (i : Fin 16) : List (Key × Hash) :=
  items.filter fun it => keyNibble it.1 depth = i

/-- over items in nibble order every nibble has one run, with all its items -/
theorem runs_spec (hmono : items.Pairwise fun a b => keyNibble a.1 depth ≤ keyNibble b.1 depth) :
    ((runs depth items).map Prod.fst).Pairwise (· < ·) ∧
      (∀ r ∈ runs depth items, r.2 = runOf depth items r.1 ∧ r.2 ≠ []) ∧
      ∀ it ∈ items, keyNibble it.1 depth ∈ (runs depth items).map Prod.fst := by
  induction items with
  | nil => exact ⟨.nil, nofun, nofun⟩
  | cons it items ih =>
    obtain ⟨hfirst, hmono⟩ := pairwise_cons.1 hmono
    obtain ⟨hlt, hrun, hall⟩ := ih hmono
    unfold runs
    cases hruns : runs depth items with
    | nil =>
      have hnil : items = [] := by
        rcases items with _ | ⟨a, l⟩
        · rfl
        · have := hall a (.head _)
          rw [hruns] at this
          cases this
      subst hnil
      simp [runOf]
    | cons r rest =>
      obtain ⟨nib, run⟩ := r
      rw [hruns] at hlt hrun hall
      rw [map_cons, pairwise_cons] at hlt
      obtain ⟨hrunEq, hrunNe⟩ := hrun (nib, run) mem_cons_self
      -- the first run's nibble is an item's, and the lowest
      have hle : keyNibble it.1 depth ≤ nib := by
        rcases hr : run with _ | ⟨x, l⟩
        · exact absurd hr hrunNe
        · have hx : x ∈ runOf depth items nib := by
            rw [← hrunEq]
            exact hr ▸ (.head _)
          obtain ⟨hx, hnib⟩ := mem_filter.1 hx
          exact (hfirst x hx).trans_eq (of_decide_eq_true hnib)
      have hlow : ∀ x ∈ items, nib ≤ keyNibble x.1 depth := by
        intro x hx
        rcases mem_cons.1 (hall x hx) with heq | hmem
        · exact heq.ge
        · exact (hlt.1 _ hmem).le
      dsimp only
      split
      · rename_i heq
        refine ⟨pairwise_cons.2 hlt, fun r hr => ?_, fun x hx => ?_⟩
        · rcases mem_cons.1 hr with rfl | hr
          · refine ⟨?_, cons_ne_nil _ _⟩
            rw [runOf, filter_cons_of_pos (by simpa using heq)]
            exact congrArg _ hrunEq
          · have hne : keyNibble it.1 depth ≠ r.1 := heq ▸ (hlt.1 r.1 (mem_map_of_mem hr)).ne
            rw [runOf, filter_cons_of_neg (by simpa using hne)]
            exact hrun r (.tail _ hr)
        · rcases mem_cons.1 hx with rfl | hx
          · exact heq ▸ (.head _)
          · exact hall x hx
      · rename_i hne
        have hlt' : keyNibble it.1 depth < nib := lt_of_le_of_ne hle hne
        refine ⟨?_, fun r hr => ?_, fun x hx => ?_⟩
        · rw [map_cons, pairwise_cons]
          refine ⟨fun i hi => ?_, pairwise_cons.2 hlt⟩
          rcases mem_cons.1 hi with rfl | hi
          · exact hlt'
          · exact hlt'.trans (hlt.1 i hi)
        · rcases mem_cons.1 hr with rfl | hr
          · refine ⟨?_, cons_ne_nil _ _⟩
            have hnone : runOf depth items (keyNibble it.1 depth) = [] := by
              refine filter_eq_nil_iff.2 fun x hx => ?_
              have := hlow x hx
              simp only [decide_eq_true_eq]
              intro heq
              exact absurd (heq ▸ this) (not_le.2 hlt')
            rw [runOf, filter_cons_of_pos (by simp)]
            exact congrArg _ hnone.symm
          · have hge : nib ≤ r.1 := by
              rcases mem_cons.1 hr with rfl | hr
              · exact le_rfl
              · exact (hlt.1 r.1 (mem_map_of_mem hr)).le
            have hne : keyNibble it.1 depth ≠ r.1 := (hlt'.trans_le hge).ne
            rw [runOf, filter_cons_of_neg (by simpa using hne)]
            exact hrun r hr
        · rcases mem_cons.1 hx with rfl | hx
          · exact .head _
          · exact .tail _ (hall x hx)

/-- what a pass over runs with different nibbles does to the children -/
theorem foldl_runs {f : Fin 16 → List (Key × Hash) → Option Node} {rs : List (Fin 16 × List (Key × Hash))}
    (hnodup : (rs.map Prod.fst).Nodup) (children : Fin 16 → Node) (changed : Bool) :
    let r := rs.foldl (fun (children, changed) (nib, run) =>
      match f nib run with
      | none => (children, changed)
      | some nc => (update children nib nc, true)) (children, changed)
    (∀ i, i ∉ rs.map Prod.fst → r.1 i = children i) ∧ (∀ x ∈ rs, r.1 x.1 = (f x.1 x.2).getD (children x.1)) ∧
      (r.2 = false → changed = false ∧ ∀ x ∈ rs, f x.1 x.2 = none) := by
  induction rs generalizing children changed with
  | nil => exact ⟨fun _ _ => rfl, nofun, fun h => ⟨h, nofun⟩⟩
  | cons x rs ih =>
    obtain ⟨nib, run⟩ := x
    rw [map_cons, nodup_cons] at hnodup
    simp only [foldl_cons]
    have hne : ∀ y ∈ rs, y.1 ≠ nib := fun y hy heq => hnodup.1 (mem_map.2 ⟨y, hy, heq⟩)
    cases hf : f nib run with
    | none =>
      obtain ⟨h1, h2, h3⟩ := ih hnodup.2 children changed
      refine ⟨fun i hi => h1 i fun hmem => hi (.tail _ hmem), forall_mem_cons.2 ⟨?_, h2⟩, fun h => ?_⟩
      · rw [hf]
        exact h1 nib hnodup.1
      · exact ⟨(h3 h).1, forall_mem_cons.2 ⟨hf, (h3 h).2⟩⟩
    | some nc =>
      obtain ⟨h1, h2, h3⟩ := ih hnodup.2 (update children nib nc) true
      refine ⟨fun i hi => ?_, forall_mem_cons.2 ⟨?_, fun y hy => ?_⟩, fun h => absurd (h3 h).1 nofun⟩
      · rw [map_cons, mem_cons, not_or] at hi
        exact (h1 i hi.2).trans (update_of_ne hi.1 _ _)
      · rw [hf]
        exact (h1 nib hnodup.1).trans (update_self _ _ _)
      · have := h2 y hy
        rwa [update_of_ne (hne y hy)] at this

/-- **One pass over the runs.** -/
theorem forEachRun_spec (hmono : items.Pairwise fun a b => keyNibble a.1 depth ≤ keyNibble b.1 depth)
    (f : Fin 16 → List (Key × Hash) → Option Node) (children : Fin 16 → Node) :
    (∀ i, (forEachRun depth items f children).1 i =
        if runOf depth items i = [] then children i else (f i (runOf depth items i)).getD (children i)) ∧
      ((forEachRun depth items f children).2 = false →
        ∀ i, runOf depth items i ≠ [] → f i (runOf depth items i) = none) := by
  obtain ⟨hlt, hrun, hall⟩ := runs_spec hmono
  have hnodup : ((runs depth items).map Prod.fst).Nodup := hlt.imp fun h => h.ne
  obtain ⟨h1, h2, h3⟩ := foldl_runs (f := f) hnodup children false
  -- a nibble with items has its run
  have hmem : ∀ i, runOf depth items i ≠ [] → (i, runOf depth items i) ∈ runs depth items := by
    intro i hi
    obtain ⟨x, hx⟩ := exists_mem_of_ne_nil _ hi
    obtain ⟨hx, hnib⟩ := mem_filter.1 hx
    obtain ⟨r, hr, hri⟩ := mem_map.1 (of_decide_eq_true hnib ▸ hall x hx)
    subst hri
    rw [← (hrun r hr).1]
    exact hr
  refine ⟨fun i => ?_, fun hflag i hi => (h3 hflag).2 _ (hmem i hi)⟩
  split
  · rename_i hnil
    refine h1 i fun hi => ?_
    obtain ⟨r, hr, hri⟩ := mem_map.1 hi
    subst hri
    exact (hrun r hr).2 ((hrun r hr).1.trans hnil)
  · rename_i hne
    exact h2 _ (hmem i hne)

/-- items below one path in key order are in nibble order -/
theorem nibble_mono (hd : d < trieDepth) (hsorted : items.Pairwise fun a b => a.1 < b.1)
    (hunder : ∀ it ∈ items, Under nibbles path d it.1) :
    items.Pairwise fun a b => keyNibble a.1 d ≤ keyNibble b.1 d := by
  refine hsorted.imp_of_mem fun ha hb hlt => ?_
  by_contra hnot
  refine absurd hlt (not_lt.2 (le_of_lt ?_))
  exact nibbles.lt_of_digit _ _ d hd (fun e he => (hunder _ hb e he).trans (hunder _ ha e he).symm) (not_le.1 hnot)

theorem mem_runOf {i : Fin 16} : it ∈ runOf d items i ↔ it ∈ items ∧ keyNibble it.1 d = i := by
  rw [runOf, mem_filter, decide_eq_true_eq]

/-! ## Bulk builds -/

variable (m) in
/-- items in key order, no key twice: the entries of a map below a path -/
structure Lists (d : ℕ) (path : ℕ → Fin 16) (items : List (Key × Hash)) : Prop where
  sorted : items.Pairwise fun a b => a.1 < b.1
  under : ∀ it ∈ items, Under nibbles path d it.1
  mem : ∀ k c, Under nibbles path d k → (m k = some c ↔ (k, c) ∈ items)

section Lists

variable (h : Lists m d path items)
include h

theorem Lists.eq_none {k : Key} (hk : Under nibbles path d k) (hnot : ∀ c, (k, c) ∉ items) : m k = none := by
  by_contra hmk
  obtain ⟨c, hc⟩ := ne_none_iff_exists'.1 hmk
  exact hnot c ((h.mem k c hk).1 hc)

theorem Lists.run (i : Fin 16) : Lists m (d + 1) (update path d i) (runOf d items i) where
  sorted := h.sorted.filter _
  under it hit := under_succ.2 ((mem_runOf.1 hit).imp_left (h.under it))
  mem k c hk := by
    obtain ⟨hk, hdigit⟩ := under_succ.1 hk
    rw [h.mem k c hk, mem_runOf]
    exact ⟨fun h => ⟨h, hdigit⟩, fun h => h.1⟩

/-- the children of a node over items, each built from its run -/
theorem children_canon {f : List (Key × Hash) → Node} (hd : d < trieDepth)
    (hf : ∀ i, runOf d items i ≠ [] → IsTrie sha256 m (d + 1) (update path d i) (f (runOf d items i))) (i : Fin 16) :
    IsTrie sha256 m (d + 1) (update path d i) ((forEachRun d items (fun _ run => some (f run)) fun _ => .empty).1 i) := by
  rw [(forEachRun_spec (nibble_mono hd h.sorted h.under) _ _).1 i]
  split_ifs with hnil
  · exact .empty fun k hk => (h.run i).eq_none hk fun c => hnil ▸ not_mem_nil
  · exact hf i ‹_›

end Lists

theorem item_canon (h : Lists m d path [it]) : IsTrie sha256 m d path (newLeaf sha256 it.1 it.2 d) := by
  have hk := h.under it (.head _)
  refine newLeaf_canon hk ((h.mem it.1 it.2 hk).2 mem_cons_self) fun k hunder hne => ?_
  exact h.eq_none hunder fun c hc => hne (congrArg Prod.fst (mem_singleton.1 hc))

/-- **Bulk build.** -/
theorem build_canon (hn : n ≤ trieDepth) (hne : items ≠ []) (h : Lists m (trieDepth - n) path items) :
    IsTrie sha256 m (trieDepth - n) path (build sha256 n items) := by
  induction n generalizing items path with
  | zero =>
    -- at full depth there is room for one key
    rcases items with _ | ⟨it, _ | ⟨it', rest⟩⟩
    · exact absurd rfl hne
    · exact item_canon h
    · have hlt := (pairwise_cons.1 h.sorted).1 it' mem_cons_self
      have heq := eq_of_under_full (D := nibbles) le_rfl (h.under it mem_cons_self)
        (h.under it' (mem_cons_of_mem _ mem_cons_self))
      exact absurd heq hlt.ne
  | succ n ih =>
    have hd : trieDepth - (n + 1) < trieDepth := by unfold trieDepth at hn ⊢; omega
    have hnext : trieDepth - (n + 1) + 1 = trieDepth - n := by omega
    unfold build
    split
    · exact absurd rfl hne
    · exact item_canon h
    · rename_i hnil hone
      rcases items with _ | ⟨a, _ | ⟨b, rest⟩⟩
      · exact absurd rfl hne
      · exact absurd rfl (hone a)
      · have ha := h.under a (.head _)
        have hb := h.under b (mem_cons_of_mem _ mem_cons_self)
        have hab := (pairwise_cons.1 h.sorted).1 b (.head _)
        refine .branch ha hb hab.ne ?_ ?_ (children_canon h hd fun i hi => ?_)
        · rw [(h.mem a.1 a.2 ha).2 mem_cons_self]
          nofun
        · rw [(h.mem b.1 b.2 hb).2 (mem_cons_of_mem _ mem_cons_self)]
          nofun
        · have hrun := h.run i
          rw [hnext] at hrun ⊢
          exact ih (by omega) hi hrun

theorem buildMany_canon (hd : d ≤ trieDepth) (hne : items ≠ []) (h : Lists m d path items) :
    IsTrie sha256 m d path (buildMany sha256 items d) := by
  have hback : trieDepth - (trieDepth - d) = d := by omega
  have := @build_canon (trieDepth - d) items sha256 m path (by omega) hne
  rw [hback] at this
  exact this h

/-- **The tree of a list of items.** -/
theorem trieBuildItems_canon (hsorted : items.Pairwise fun a b => a.1 < b.1)
    (hm : ∀ k c, m k = some c ↔ (k, c) ∈ items) : IsTrie sha256 m 0 path (trieBuildItems sha256 items) := by
  have h : Lists m 0 path items := ⟨hsorted, fun _ _ => under_zero, fun k c _ => hm k c⟩
  unfold trieBuildItems
  split
  · rename_i hlen
    rw [length_eq_zero_iff.1 hlen] at h
    exact .empty fun k hk => h.eq_none hk fun _ => not_mem_nil
  rename_i hlen
  have hne : items ≠ [] := fun h => hlen (length_eq_zero_iff.2 h)
  have hbuild : IsTrie sha256 m 0 path (build sha256 trieDepth items) := build_canon le_rfl hne h
  split
  · -- the sixteen subtrees built apart are those of the build in one go
    rename_i hmany
    rcases items with _ | ⟨a, _ | ⟨b, rest⟩⟩
    · exact absurd rfl hne
    · simp at hmany
    · exact hbuild
  · exact hbuild

/-! ## Inserting a batch -/

theorem insertMany_single (t : Node) (it : Key × Hash) (d : ℕ) :
    insertMany sha256 t [it] d = insert sha256 it.1 it.2 t d := by
  cases t <;> rfl

/-- items with one more entry put in its place -/
theorem sorted_put (hsorted : items.Pairwise fun a b => a.1 < b.1) (hnot : ∀ it ∈ items, it.1 ≠ id) :
    ((items.takeWhile fun it => it.1 < id) ++ (id, c) :: items.dropWhile fun it => it.1 < id).Pairwise
      fun a b => a.1 < b.1 := by
  induction items with
  | nil => exact pairwise_singleton _ _
  | cons it items ih =>
    obtain ⟨hfirst, hsorted⟩ := pairwise_cons.1 hsorted
    by_cases hlt : it.1 < id
    · rw [takeWhile_cons_of_pos (by simpa using hlt), dropWhile_cons_of_pos (by simpa using hlt),
        cons_append, pairwise_cons]
      refine ⟨fun x hx => ?_, ih hsorted fun x hx => hnot x (.tail _ hx)⟩
      rcases mem_append.1 hx with hx | hx
      · exact hfirst x ((takeWhile_sublist _).subset hx)
      · rcases mem_cons.1 hx with rfl | hx
        · exact hlt
        · exact hfirst x ((dropWhile_sublist _).subset hx)
    · have hgt : id < it.1 := lt_of_le_of_ne (not_lt.1 hlt) (hnot it mem_cons_self).symm
      rw [takeWhile_cons_of_neg (by simpa using hlt), dropWhile_cons_of_neg (by simpa using hlt),
        nil_append, pairwise_cons]
      refine ⟨fun x hx => ?_, pairwise_cons.2 ⟨hfirst, hsorted⟩⟩
      rcases mem_cons.1 hx with rfl | hx
      · exact hgt
      · exact hgt.trans (hfirst x hx)

theorem mem_put : it ∈ (items.takeWhile fun it => it.1 < id) ++ (id, c) :: (items.dropWhile fun it => it.1 < id) ↔
      it = (id, c) ∨ it ∈ items := by
  rw [mem_append, mem_cons, or_left_comm, ← mem_append, takeWhile_append_dropWhile]

theorem head_any_iff (hsorted : items.Pairwise fun a b => a.1 < b.1) :
    ((items.dropWhile fun it => it.1 < id).head?.any fun it => it.1 = id) = true ↔ id ∈ items.map Prod.fst := by
  induction items with
  | nil => simp
  | cons it items ih =>
    obtain ⟨hfirst, hsorted⟩ := pairwise_cons.1 hsorted
    by_cases hlt : it.1 < id
    · rw [dropWhile_cons_of_pos (by simpa using hlt), ih hsorted, map_cons, mem_cons]
      exact (or_iff_right hlt.ne').symm
    · rw [dropWhile_cons_of_neg (by simpa using hlt)]
      simp only [List.head?_cons, any_some, decide_eq_true_eq, map_cons, mem_cons]
      refine ⟨fun h => Or.inl h.symm, fun h => ?_⟩
      rcases h with h | h
      · exact h.symm
      · obtain ⟨x, hx, rfl⟩ := mem_map.1 h
        exact absurd (hfirst x hx) hlt

/-- the map a batch makes: its items, and elsewhere what was there -/
structure Sets (m m' : Key → Option Hash) (items : List (Key × Hash)) : Prop where
  set : ∀ it ∈ items, m' it.1 = some it.2
  keep : ∀ k, k ∉ items.map Prod.fst → m' k = m k

theorem Sets.ne_none (hs : Sets m m' items) {k : Key} (hmk : m k ≠ none) : m' k ≠ none := by
  by_cases hmem : k ∈ items.map Prod.fst
  · obtain ⟨it, hit, rfl⟩ := mem_map.1 hmem
    rw [hs.set it hit]
    nofun
  · rwa [hs.keep k hmem]

/-- a batch over a map with nothing else below the path -/
theorem Sets.lists (hs : Sets m m' items) (hsorted : items.Pairwise fun a b => a.1 < b.1)
    (hunder : ∀ it ∈ items, Under nibbles path d it.1)
    (hnone : ∀ k, Under nibbles path d k → k ∉ items.map Prod.fst → m k = none) : Lists m' d path items where
  sorted := hsorted
  under := hunder
  mem k c hk := by
    refine ⟨fun hc => ?_, fun hc => hs.set _ hc⟩
    by_cases hmem : k ∈ items.map Prod.fst
    · obtain ⟨it, hit, rfl⟩ := mem_map.1 hmem
      rw [hs.set it hit] at hc
      cases hc
      exact hit
    · rw [hs.keep k hmem, hnone k hk hmem] at hc
      cases hc

section

variable (hone : ∀ it, items ≠ [it])
include hone

theorem insertMany_empty : insertMany sha256 .empty items d = some (buildMany sha256 items d) := by
  rcases items with _ | ⟨a, _ | ⟨b, rest⟩⟩
  · rfl
  · exact absurd rfl (hone a)
  · rfl

theorem insertMany_leaf (hsorted : items.Pairwise fun a b => a.1 < b.1) :
    insertMany sha256 (.leaf hash id c) items d = some (buildMany sha256 (if id ∈ items.map Prod.fst then items
        else (items.takeWhile fun it => it.1 < id) ++ (id, c) :: items.dropWhile fun it => it.1 < id) d) := by
  have hunfold : insertMany sha256 (.leaf hash id c) items d =
      if ((items.dropWhile fun it => it.1 < id).head?.any fun it => it.1 = id) = true then
        some (buildMany sha256 items d)
      else some (buildMany sha256
        ((items.takeWhile fun it => it.1 < id) ++ (id, c) :: items.dropWhile fun it => it.1 < id) d) := by
    rcases items with _ | ⟨a, _ | ⟨b, rest⟩⟩
    · rfl
    · exact absurd rfl (hone a)
    · rfl
  rw [hunfold]
  by_cases hmem : id ∈ items.map Prod.fst
  · rw [if_pos ((head_any_iff hsorted).2 hmem), if_pos hmem]
  · rw [if_neg (fun h => hmem ((head_any_iff hsorted).1 h)), if_neg hmem]

theorem insertMany_node : insertMany sha256 (.node hash child) items d =
      if (forEachRun d items (fun nib run => insertMany sha256 (child nib) run (d + 1)) child).2 = true then
        some (newNode sha256 (forEachRun d items (fun nib run => insertMany sha256 (child nib) run (d + 1)) child).1)
      else none := by
  rcases items with _ | ⟨a, _ | ⟨b, rest⟩⟩
  · rfl
  · exact absurd rfl (hone a)
  · rfl

end

variable (sha256 m) in
/-- putting any batch in gives the canonical trie again -/
def TakesBatches (d : ℕ) (path : ℕ → Fin 16) (t : Node) : Prop :=
  ∀ (m' : Key → Option Hash) (items : List (Key × Hash)), items ≠ [] → (items.Pairwise fun a b => a.1 < b.1) →
    (∀ it ∈ items, Under nibbles path d it.1) → Sets m m' items →
    IsTrie sha256 m' d path ((insertMany sha256 t items d).getD t)

/-- one level of a batch, given the levels below -/
theorem insertMany_level (ht : IsTrie sha256 m d path t) (hd : d ≤ trieDepth)
    (hbelow : ∀ hash child, t = .node hash child →
      ∀ i, TakesBatches sha256 m (d + 1) (update path d i) (child i)) : TakesBatches sha256 m d path t := by
  intro m' items hne hsorted hunder hs
  by_cases hone : ∃ it, items = [it]
  · obtain ⟨it, rfl⟩ := hone
    have hm' : m' = update m it.1 (some it.2) := by
      funext k
      by_cases hk : k = it.1
      · rw [hk, update_self, hs.set it mem_cons_self]
      · rw [update_of_ne hk, hs.keep k (by simpa using hk)]
    rw [insertMany_single, hm']
    exact insert_canon ht (hunder it mem_cons_self)
  have hmany : ∀ it, items ≠ [it] := fun it h => hone ⟨it, h⟩
  cases ht with
  | empty hnone =>
    rw [insertMany_empty hmany]
    exact buildMany_canon hd hne (hs.lists hsorted hunder fun k hk _ => hnone k hk)
  | leaf hid hm hother =>
    rename_i id c
    rw [insertMany_leaf hmany hsorted]
    split_ifs with hmem
    · exact buildMany_canon hd hne (hs.lists hsorted hunder fun k hk hkmem => hother k hk fun heq => hkmem (heq ▸ hmem))
    · have hnot : ∀ it ∈ items, it.1 ≠ id := fun it hit heq => hmem (heq ▸ mem_map_of_mem hit)
      have hput : Sets m m' ((items.takeWhile fun it => it.1 < id) ++ (id, c) :: items.dropWhile fun it => it.1 < id) := by
        refine ⟨fun it hit => ?_, fun k hk => hs.keep k fun hkmem => hk ?_⟩
        · rcases mem_put.1 hit with rfl | hit
          · rw [hs.keep id hmem, hm]
          · exact hs.set it hit
        · obtain ⟨it, hit, rfl⟩ := mem_map.1 hkmem
          exact mem_map_of_mem (mem_put.2 (.inr hit))
      refine buildMany_canon hd (by simp) (hput.lists (sorted_put hsorted hnot) (fun it hit => ?_) fun k hk hkmem => ?_)
      · rcases mem_put.1 hit with rfl | hit
        · exact hid
        · exact hunder it hit
      · refine hother k hk fun heq => hkmem ?_
        exact mem_map.2 ⟨(id, c), mem_put.2 (.inl rfl), heq.symm⟩
  | node hlt ha hb hab hma hmb hchild =>
    rename_i a b child
    obtain ⟨hchildren, hflag⟩ := forEachRun_spec (nibble_mono hlt hsorted hunder)
      (fun nib run => insertMany sha256 (child nib) run (d + 1)) child
    -- below each nibble: its run put in, or nothing changed
    have hnew : ∀ i, IsTrie sha256 m' (d + 1) (update path d i) (if runOf d items i = [] then child i
        else (insertMany sha256 (child i) (runOf d items i) (d + 1)).getD (child i)) := by
      intro i
      -- the map that changes below this nibble only
      have hsub : Sets m (fun k => if keyNibble k d = i then m' k else m k) (runOf d items i) := by
        constructor
        · intro it hit
          obtain ⟨hit, hnib⟩ := mem_runOf.1 hit
          rw [if_pos hnib, hs.set it hit]
        · intro k hk
          split_ifs with hnib
          · refine hs.keep k fun hkmem => hk ?_
            obtain ⟨it, hit, rfl⟩ := mem_map.1 hkmem
            exact mem_map_of_mem (mem_runOf.2 ⟨hit, hnib⟩)
          · rfl
      suffices hcanon : IsTrie sha256 (fun k => if keyNibble k d = i then m' k else m k) (d + 1) (update path d i) _ from
        hcanon.congr fun k hk => (if_pos (under_succ.1 hk).2).symm
      split
      · rename_i hnil
        exact (hchild i).congr fun k _ => hsub.keep k (by simp [hnil])
      · rename_i hrun
        refine hbelow _ _ rfl i _ _ hrun (hsorted.filter _) (fun it hit => ?_) hsub
        obtain ⟨hit, hnib⟩ := mem_runOf.1 hit
        exact under_succ.2 ⟨hunder it hit, hnib⟩
    rw [insertMany_node hmany]
    split_ifs with hunchanged
    · exact .node hlt ha hb hab (hs.ne_none hma) (hs.ne_none hmb) fun i => (hchildren i).symm ▸ hnew i
    · refine .node hlt ha hb hab (hs.ne_none hma) (hs.ne_none hmb) fun i => ?_
      have := hnew i
      split_ifs at this with hrun
      · exact this
      · rwa [hflag (by simpa using hunchanged) i hrun] at this

/-- **A batch.** The items are in key order, no key twice. -/
theorem insertMany_canon (ht : IsTrie sha256 m d path t) (hd : d ≤ trieDepth) : TakesBatches sha256 m d path t := by
  induction ht with
  | empty hnone => exact insertMany_level (.empty hnone) hd nofun
  | leaf hid hm hother => exact insertMany_level (.leaf hid hm hother) hd nofun
  | node hlt ha hb hab hma hmb hchild ih =>
    refine insertMany_level (.node hlt ha hb hab hma hmb hchild) hd ?_
    rintro _ _ ⟨⟩ i
    exact ih i hlt

end Kdb.DocTree
