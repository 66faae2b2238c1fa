/-
Merkle proofs over document trees (`document/document_tree_proof.go`): enough of a tree to show what it holds for one
document id. A proof is the path from the root towards the id, with all sixteen child hashes of every internal node on it;
it ends at an empty slot, or at a compressed leaf, the id's own or another document's.

- `proof_verifies`: the proof a tree makes checks against its hash and reports what the tree holds. Nothing is assumed of
  the hash function.
- `verify_sound`: whatever proof checks against a tree's hash reports what the tree holds, when the hash function keeps
  the preimages in question apart (`CollisionFree`).
- `tree_proofs_exact`: both, for every tree made by the operations of document trees.

The preimages in question are those of the uncompressed trie and those the check itself hashes; a hash function with 32
bytes cannot be free of collisions on all byte strings.
-/
import Kdb.Document.DocumentTree

namespace Kdb.DocTree

open Trie List

/-! ## Making and checking a proof -/

/-- `TreeProof`; `leaf` is set when the path ends at a compressed leaf -/
structure TreeProof where
  docID : Key
  levels : List (Fin 16 → Hash)
  leaf : Option (Key × Hash)

/-- `codec.UUID.String` -/
def Key.text (k : Key) : String :=
  let hex := fun i : Fin 16 => String.ofList [Nat.digitChar ((k.bytes i).toNat / 16), Nat.digitChar ((k.bytes i).toNat % 16)]
  let part := fun lo n => String.join (((List.finRange 16).drop lo).take n |>.map hex)
  "-".intercalate [part 0 4, part 4 2, part 6 2, part 8 2, part 10 6]

variable (sha256 : Bytes → Hash)

/-- the walk of `Proof` from a node at a depth -/
def proofFrom (id : Key) : Node → ℕ → List (Fin 16 → Hash) × Option (Key × Hash)
  | .empty, _ => ([], none)
  | .leaf _ leafID content, _ => ([], some (leafID, content))
  | .node _ child, depth =>
    let level := fun i => (child i).hash (hasher sha256)
    if trieDepth ≤ depth then ([level], none)
    else
      let rest := proofFrom id (child (keyNibble id depth)) (depth + 1)
      (level :: rest.1, rest.2)

def DocumentTree.proof (t : DocumentTree) (id : Key) : TreeProof :=
  let path := proofFrom sha256 id (t.trieRootOrBuild sha256) 0
  ⟨id, path.1, path.2⟩

def internalHashOfHashes (children : Fin 16 → Hash) : Hash :=
  sha256 (0x01 :: (List.ofFn fun i => (children i).toBytes).flatten)

/-- the loop over the levels, from the last up: each must hold the hash below it in the id's slot -/
def climb (id : Key) : ℕ → List (Fin 16 → Hash) → Hash → Option Hash
  | _, [], h => some h
  | d, level :: levels, h =>
    match climb id (d + 1) levels h with
    | none => none
    | some h => if level (keyNibble id d) ≠ h then none else some (internalHashOfHashes sha256 level)

def errProofMismatch : String := "document tree proof: does not match the tree hash"

/-- `VerifyTreeProof`: the content hash and true, or false when the tree holds nothing -/
def verifyTreeProof (root : Hash) (p : TreeProof) : Except String (Hash × Bool) :=
  if trieDepth < p.levels.length then
    .error ("document tree proof: " ++ toString p.levels.length ++ " levels, at most " ++ toString trieDepth)
  else
    let depth := p.levels.length
    let close := fun h report =>
      match climb sha256 p.docID 0 p.levels h with
      | none => .error errProofMismatch
      | some h => if h ≠ root then .error errProofMismatch else .ok report
    match p.leaf with
    | none => close Hash.zero (Hash.zero, false)
    | some (leafID, leafHash) =>
      if (List.range depth).all fun d => keyNibble leafID d = keyNibble p.docID d then
        close (foldLeaf sha256 leafID leafHash depth)
          (if leafID = p.docID then (leafHash, true) else (Hash.zero, false))
      else .error ("document tree proof: leaf " ++ leafID.text ++ " is not on the path to " ++ p.docID.text)

/-- what a tree holds, the way a check reports it -/
def report (content : Option Hash) : Hash × Bool := (content.getD Hash.zero, content.isSome)

/-! ## Preimages -/

def leafPreimage (k : Key) (content : Hash) : Bytes := 0x00 :: k.toBytes ++ content.toBytes

def nodePreimage (children : Fin 16 → Hash) : Bytes := 0x01 :: (List.ofFn fun i => (children i).toBytes).flatten

/-- what is hashed for the tree of a map, without compression -/
inductive TreePreimage (m : Key → Option Hash) : Bytes → Prop where
  | leaf {k : Key} {content : Hash} (hm : m k = some content) : TreePreimage m (leafPreimage k content)
  | node {children : Fin 16 → Hash} (h : InnerNode nibbles (hasher sha256) m children) :
      TreePreimage m (nodePreimage children)

/-- what is hashed to check a proof -/
inductive ProofPreimage (p : TreeProof) : Bytes → Prop where
  | level {children : Fin 16 → Hash} (h : children ∈ p.levels) : ProofPreimage p (nodePreimage children)
  | leaf {k : Key} {content : Hash} (h : p.leaf = some (k, content)) : ProofPreimage p (leafPreimage k content)
  | spine {k : Key} {content : Hash} {d : ℕ} (h : p.leaf = some (k, content)) (hlo : p.levels.length ≤ d)
      (hhi : d < trieDepth) : ProofPreimage p (nodePreimage (spineNode nibbles (hasher sha256) k content d))

/-- different preimages have different hashes, none of them zero -/
structure CollisionFree (P : Bytes → Prop) : Prop where
  inj : ∀ a b, P a → P b → sha256 a = sha256 b → a = b
  ne_zero : ∀ a, P a → sha256 a ≠ Hash.zero

theorem Hash.toBytes_injective {a b : Hash} (h : a.toBytes = b.toBytes) : a = b := by
  ext i
  exact congrArg UInt8.toNat (congrFun (ofFn_injective h) i)

theorem Key.toBytes_injective {a b : Key} (h : a.toBytes = b.toBytes) : a = b := by
  ext i
  exact congrArg UInt8.toNat (congrFun (ofFn_injective h) i)

theorem leafPreimage_injective {k k' : Key} {c c' : Hash} (h : leafPreimage k c = leafPreimage k' c') :
    k = k' ∧ c = c' := by
  simp only [leafPreimage, cons_append, cons.injEq, true_and] at h
  obtain ⟨hk, hc⟩ := append_inj h (by simp [Key.toBytes])
  exact ⟨Key.toBytes_injective hk, Hash.toBytes_injective hc⟩

variable {f : Fin 16 → Hash} {P : Bytes → Prop} {r : Hash × Bool} {d : ℕ} {entries : EntryMap} {t : DocumentTree}

theorem nodePreimage_injective {g : Fin 16 → Hash} (h : nodePreimage f = nodePreimage g) : f = g := by
  have hflat := (cons.inj h).2
  have hread : ∀ (n : ℕ) (f g : Fin n → Hash),
      (List.ofFn fun i => (f i).toBytes).flatten = (List.ofFn fun i => (g i).toBytes).flatten → f = g := by
    intro n
    induction n with
    | zero => exact fun f g _ => funext fun i => i.elim0
    | succ n ih =>
      intro f g h
      simp only [ofFn_succ] at h
      obtain ⟨hhead, htail⟩ := append_inj h (by simp [Hash.toBytes])
      have hrest := ih _ _ htail
      funext i
      refine Fin.cases (Hash.toBytes_injective hhead) (fun j => congrFun hrest j) i
  exact hread 16 f g hflat

variable {sha256} {m : Key → Option Hash} {p : TreeProof}

/-- a hash function without collisions on the preimages keeps nodes and leaves apart -/
theorem CollisionFree.separates (h : CollisionFree sha256 P) :
    Separates (hasher sha256) (fun f => P (nodePreimage f)) (fun k c => P (leafPreimage k c)) where
  node_inj _ _ hf hg heq := nodePreimage_injective (h.inj _ _ hf hg heq)
  leaf_inj _ _ _ _ hk hk' heq := leafPreimage_injective (h.inj _ _ hk hk' heq)
  node_ne _ hf := h.ne_zero _ hf
  leaf_ne _ _ hk := h.ne_zero _ hk

/-! ## The proof a tree makes -/

def endHash (sha256 : Bytes → Hash) (leaf : Option (Key × Hash)) (depth : ℕ) : Hash :=
  match leaf with
  | none => Hash.zero
  | some (k, content) => foldLeaf sha256 k content depth

/-- what a path that ends there says of the id -/
def endReport (id : Key) (leaf : Option (Key × Hash)) : Option Hash :=
  leaf.bind fun e => if e.1 = id then some e.2 else none

/-- a check succeeds when the levels are few enough, the leaf is on the path and the levels lead to the root -/
theorem verifyTreeProof_eq_ok {root : Hash} : verifyTreeProof sha256 root p = .ok r ↔ p.levels.length ≤ trieDepth ∧
      (∀ k content, p.leaf = some (k, content) → ∀ d < p.levels.length, keyNibble k d = keyNibble p.docID d) ∧
      climb sha256 p.docID 0 p.levels (endHash sha256 p.leaf p.levels.length) = some root ∧
      r = report (endReport p.docID p.leaf) := by
  have hclose : ∀ (h : Hash) (out : Hash × Bool), (match climb sha256 p.docID 0 p.levels h with
        | none => .error errProofMismatch
        | some h => if h ≠ root then .error errProofMismatch else .ok out : Except String (Hash × Bool)) = .ok r ↔
      climb sha256 p.docID 0 p.levels h = some root ∧ r = out := by
    intro h out
    cases climb sha256 p.docID 0 p.levels h with
    | none => simp
    | some h' =>
      by_cases hroot : h' = root
      · simp [hroot, eq_comm]
      · simp [hroot]
  unfold verifyTreeProof
  by_cases hlevels : trieDepth < p.levels.length
  · rw [if_pos hlevels]
    simp [Nat.not_le.2 hlevels]
  · rw [if_neg hlevels]
    rcases hleaf : p.leaf with - | ⟨k, content⟩
    · simp only [hclose, endHash, endReport, report]
      simp [Nat.le_of_not_lt hlevels]
    · by_cases hpath : (List.range p.levels.length).all fun d => keyNibble k d = keyNibble p.docID d
      · simp only [hpath, if_true, hclose]
        have hreport : (if k = p.docID then (content, true) else (Hash.zero, false)) =
            report (if k = p.docID then some content else none) := by
          split_ifs <;> rfl
        rw [hreport]
        have hon : ∀ d < p.levels.length, keyNibble k d = keyNibble p.docID d := by simpa using hpath
        simp only [Nat.le_of_not_lt hlevels, true_and]
        constructor
        · intro h
          refine ⟨?_, h⟩
          rintro _ _ ⟨rfl, rfl⟩
          exact hon
        · exact fun h => h.2
      · simp only [hpath]
        constructor
        · intro h
          cases h
        · rintro ⟨-, hon, -⟩
          exact absurd (by simpa using hon k content rfl) hpath

/-- **The path of a tree's proof.** It leads from where it ends to the node it starts at, and ends where the map says. -/
theorem proofFrom_spec {t : Node} {path : ℕ → Fin 16} (ht : IsTrie sha256 m d path t) {id : Key} (hd : d ≤ trieDepth)
    (hid : Under nibbles path d id) : let q := proofFrom sha256 id t d
    d + q.1.length ≤ trieDepth ∧
      (∀ k content, q.2 = some (k, content) → ∀ e < d + q.1.length, keyNibble k e = keyNibble id e) ∧
      climb sha256 id d q.1 (endHash sha256 q.2 (d + q.1.length)) = some (t.hash (hasher sha256)) ∧
      endReport id q.2 = m id := by
  induction ht with
  | empty hnone => exact ⟨hd, nofun, rfl, (hnone id hid).symm⟩
  | leaf hk hm hother =>
    rename_i d path k content
    refine ⟨hd, ?_, ?_, ?_⟩
    · rintro _ _ ⟨⟩ e he
      exact (hk e he).trans (hid e he).symm
    · change some (foldLeaf sha256 k content d) = _
      rw [foldLeaf_eq]
      rfl
    · by_cases hkid : k = id
      · subst hkid
        simp [proofFrom, endReport, hm]
      · simp [proofFrom, endReport, hkid, hother id hid (Ne.symm hkid)]
  | node hlt ha hb hab hma hmb hchild ih =>
    rename_i d path a b child
    obtain ⟨hlen, hon, hclimb, hrep⟩ := ih (keyNibble id d) hlt (under_step hid)
    have hq : proofFrom sha256 id (.node ((hasher sha256).node fun i => (child i).hash (hasher sha256)) child) d =
        ((fun i => (child i).hash (hasher sha256)) :: (proofFrom sha256 id (child (keyNibble id d)) (d + 1)).1,
          (proofFrom sha256 id (child (keyNibble id d)) (d + 1)).2) := by
      exact if_neg (Nat.not_le.2 hlt)
    simp only [hq, length_cons]
    have hsucc : d + ((proofFrom sha256 id (child (keyNibble id d)) (d + 1)).1.length + 1) =
        d + 1 + (proofFrom sha256 id (child (keyNibble id d)) (d + 1)).1.length := by omega
    rw [hsucc]
    refine ⟨hlen, hon, ?_, hrep⟩
    simp only [climb, hclimb, ne_eq]
    rfl

/-- **Completeness.** The proof a tree makes checks against the tree's hash, and reports what the tree holds. -/
theorem proof_verifies (h : Holds sha256 t entries) (id : Key) :
    verifyTreeProof sha256 t.treeHash (t.proof sha256 id) = .ok (report (entries.lookup id)) := by
  obtain ⟨hlen, hon, hclimb, hrep⟩ := proofFrom_spec h.trie (Nat.zero_le _) (under_zero (k := id))
  rw [verifyTreeProof_eq_ok]
  simp only [DocumentTree.proof, h.trieRootOrBuild]
  rw [Nat.zero_add] at hlen hon hclimb
  refine ⟨hlen, hon, ?_, by rw [hrep]⟩
  rw [hclimb, h.hash]
  rfl

/-! ## Any proof that checks -/

/-- **Down the levels.** A proof whose levels lead to the hash of a subtree ends with the hash of the subtree below them. -/
theorem climb_sound {id : Key} {levels : List (Fin 16 → Hash)} (hfree : CollisionFree sha256 P)
    (htree : ∀ b, TreePreimage sha256 m b → P b) {h : Hash} (hlevels : ∀ f ∈ levels, P (nodePreimage f))
    (hdepth : d + levels.length ≤ trieDepth)
    (hclimb : climb sha256 id d levels h = some (subtreeHash nibbles (hasher sha256) m d (keyNibble id))) :
    subtreeHash nibbles (hasher sha256) m (d + levels.length) (keyNibble id) = h := by
  induction levels generalizing d with
  | nil => exact (Option.some.inj hclimb).symm
  | cons level levels ih =>
    rw [length_cons] at hdepth ⊢
    unfold climb at hclimb
    split at hclimb
    · cases hclimb
    · rename_i below hbelow
      split_ifs at hclimb with hslot
      have hnode : subtreeHash nibbles (hasher sha256) m d (keyNibble id) = (hasher sha256).node level :=
        (Option.some.inj hclimb).symm
      have hchild := child_of_node hfree.separates (fun f hf => htree _ (.node hf)) (show d < nibbles.depth by
        change d < trieDepth
        omega) (hlevels level mem_cons_self) hnode (keyNibble id d)
      rw [Function.update_eq_self] at hchild
      rw [← Nat.add_assoc, Nat.add_right_comm]
      refine ih (fun f hf => hlevels f (.tail _ hf)) (by omega) ?_
      rw [hbelow, hchild, not_not.1 hslot]

/-- **Soundness.** A proof that checks against the hash of a tree reports what the tree holds. -/
theorem verify_sound (h : Holds sha256 t entries)
    (hfree : CollisionFree sha256 fun b => TreePreimage sha256 (fun k => entries.lookup k) b ∨ ProofPreimage sha256 p b)
    (hok : verifyTreeProof sha256 t.treeHash p = .ok r) : r = report (entries.lookup p.docID) := by
  obtain ⟨hlen, hon, hclimb, rfl⟩ := verifyTreeProof_eq_ok.1 hok
  have hnodes : ∀ f, InnerNode nibbles (hasher sha256) (fun k => entries.lookup k) f →
      TreePreimage sha256 (fun k => entries.lookup k) (nodePreimage f) ∨ ProofPreimage sha256 p (nodePreimage f) :=
    fun f hf => .inl (.node hf)
  have hleaves : ∀ k c, entries.lookup k = some c →
      TreePreimage sha256 (fun k => entries.lookup k) (leafPreimage k c) ∨ ProofPreimage sha256 p (leafPreimage k c) :=
    fun k c hk => .inl (.leaf hk)
  have hroot : t.treeHash = subtreeHash nibbles (hasher sha256) (fun k => entries.lookup k) 0 (keyNibble p.docID) := by
    rw [h.hash]
    exact ((h.trie.path_congr fun e he => absurd he (Nat.not_lt_zero e)).uncompressed_eq (Nat.zero_le _)).symm
  have hend := climb_sound hfree (fun b hb => .inl hb) (d := 0) (fun f hf => .inr (.level hf)) (by omega) (hroot ▸ hclimb)
  rw [Nat.zero_add] at hend
  have hid : Under nibbles (keyNibble p.docID) p.levels.length p.docID := fun e _ => rfl
  congr 1
  rcases hleaf : p.leaf with - | ⟨k, content⟩
  · -- an empty slot: the subtree is empty
    rw [hleaf] at hend
    exact (none_of_zero hfree.separates hnodes hleaves hlen hend hid).symm
  · -- a leaf: the subtree holds its entry and no other
    rw [hleaf] at hend
    obtain ⟨hm, hother⟩ := only_of_spine hfree.separates hnodes hleaves hlen (hon k content hleaf)
      (.inr (.leaf hleaf)) (fun e hlo hhi => .inr (.spine hleaf hlo hhi)) (hend.trans (foldLeaf_eq sha256 k content _))
    by_cases hkid : k = p.docID
    · rw [← hkid, hm]
      simp [endReport]
    · simp [endReport, hkid, hother p.docID hid (Ne.symm hkid)]

/-- **Tree proofs are exact.** For every tree, the proof it makes of an id checks against its hash and reports what it holds
for the id, and whatever proof checks against its hash reports what it holds for the proof's id, unless two of the preimages
in question collide or one hashes to zero. -/
theorem tree_proofs_exact (sha256 : Bytes → Hash) (s : Start) (ops : List Op) :
    ∃ t, trees sha256 s ops = .ok t ∧
      (∀ id, verifyTreeProof sha256 t.treeHash (t.proof sha256 id) = .ok (report (t.hashFor id))) ∧
      ∀ p r, CollisionFree sha256 (fun b => TreePreimage sha256 t.hashFor b ∨ ProofPreimage sha256 p b) →
        verifyTreeProof sha256 t.treeHash p = .ok r → r = report (t.hashFor p.docID) := by
  obtain ⟨t, htrees, h⟩ := trees_holds sha256 s ops
  have hmap : t.hashFor = fun k => (resultMap s ops).lookup k := funext h.hashFor
  refine ⟨t, htrees, ?_, ?_⟩
  · intro id
    rw [h.hashFor]
    exact proof_verifies h id
  · intro p r hfree hok
    rw [h.hashFor]
    exact verify_sound h (hmap ▸ hfree) hok

/-! ## A tree of one entry -/

def zeroKey : Key := ⟨fun _ => 0⟩

/-- a hash function that counts levels: one more than the second byte of the preimage -/
def counting (b : Bytes) : Hash := ⟨fun i => if i = 0 then Bytes.byteAt b 1 + 1 else 0⟩

theorem counting_spine (hd : d ≤ trieDepth) :
    (spine nibbles (hasher counting) zeroKey Hash.zero d).bytes 0 = UInt8.ofNat (33 - d) := by
  obtain ⟨n, hn⟩ : ∃ n, trieDepth - d = n := ⟨_, rfl⟩
  induction n generalizing d with
  | zero =>
    have hd' : d = 32 := by unfold trieDepth at hd hn; omega
    rw [hd']
    decide
  | succ n ih =>
    have hlt : d < nibbles.depth := by change d < trieDepth; omega
    have hdigit : nibbles.digit zeroKey d = 0 := by
      change keyNibble zeroKey d = 0
      simp [keyNibble, zeroKey]
    have hchild := ih (d := d + 1) (by omega) (by omega)
    have hbyte : ∀ (h : Hash) (rest : Bytes), (counting (0x01 :: (h.toBytes ++ rest))).bytes 0 = h.bytes 0 + 1 := by
      simp [counting, Bytes.byteAt, Hash.toBytes]
    have hcount : 33 - d = 33 - (d + 1) + 1 := by unfold trieDepth at hd hn; omega
    rw [spine_of_lt hlt, hdigit, onlyChild_eq]
    change (counting (0x01 :: ([] ++ _ ++ _))).bytes 0 = _
    rw [nil_append, hbyte, hchild, hcount, UInt8.ofNat_add]
    rfl

theorem innerNode_single {k₀ : Key} {c₀ : Hash} (hm : m k₀ = some c₀) (hother : ∀ k, k ≠ k₀ → m k = none)
    (hf : InnerNode nibbles (hasher sha256) m f) : ∃ d < trieDepth, f = spineNode nibbles (hasher sha256) k₀ c₀ d := by
  obtain ⟨hd, hk, hmk⟩ := hf
  rename_i d path k
  have hkk : k = k₀ := by
    by_contra hne
    exact hmk (hother k hne)
  subst hkk
  refine ⟨d, hd, funext fun i => ?_⟩
  have hback : nibbles.depth - (nibbles.depth - (d + 1)) = d + 1 := by omega
  rw [spineNode]
  by_cases hi : i = nibbles.digit k d
  · subst hi
    rw [Function.update_self, subtreeHash, uncompressed_single (by omega) (by rw [hback]; exact under_step hk) hm
      fun k' _ hne => hother k' hne, hback]
    rfl
  · rw [Function.update_of_ne hi]
    refine subtreeHash_empty (by omega) fun k' hk' => ?_
    refine hother k' ?_
    rintro rfl
    exact hi (under_succ.1 hk').2.symm

def oneLeaf : TreeProof := ⟨zeroKey, [], some (zeroKey, Hash.zero)⟩

/-- what is hashed for a tree of one entry, by the depth it stands for -/
def spinePreimage (d : ℕ) : Bytes :=
  if d = trieDepth then leafPreimage zeroKey Hash.zero
  else nodePreimage (spineNode nibbles (hasher counting) zeroKey Hash.zero d)

theorem counting_spinePreimage (hd : d ≤ trieDepth) : (counting (spinePreimage d)).bytes 0 = UInt8.ofNat (33 - d) := by
  rw [← counting_spine hd, spinePreimage]
  split_ifs with heq
  · rw [spine_of_le heq.ge]
    rfl
  · rw [spine_of_lt (lt_of_le_of_ne hd heq)]
    rfl

theorem counting_free (hP : ∀ b, P b → ∃ d ≤ trieDepth, b = spinePreimage d) : CollisionFree counting P := by
  refine ⟨?_, ?_⟩
  · intro a b ha hb heq
    obtain ⟨d, hd, rfl⟩ := hP a ha
    obtain ⟨e, he, rfl⟩ := hP b hb
    have hbytes : UInt8.ofNat (33 - d) = UInt8.ofNat (33 - e) := by
      rw [← counting_spinePreimage hd, ← counting_spinePreimage he, heq]
    have hnat := congrArg UInt8.toNat hbytes
    unfold trieDepth at hd he
    simp only [UInt8.toNat_ofNat'] at hnat
    have hde : d = e := by omega
    rw [hde]
  · intro a ha hzero
    obtain ⟨d, hd, rfl⟩ := hP a ha
    have hbytes : UInt8.ofNat (33 - d) = 0 := by
      rw [← counting_spinePreimage hd, hzero]
      rfl
    have hnat := congrArg UInt8.toNat hbytes
    unfold trieDepth at hd
    simp only [UInt8.toNat_ofNat', UInt8.toNat_zero] at hnat
    omega

theorem tree_proofs_exact_oneEntry : ∃ t, trees counting .empty [.withDoc zeroKey Hash.zero] = .ok t ∧
    CollisionFree counting (fun b => TreePreimage counting t.hashFor b ∨ ProofPreimage counting oneLeaf b) ∧
    verifyTreeProof counting t.treeHash oneLeaf = .ok (report (t.hashFor zeroKey)) := by
  obtain ⟨t, htrees, -, hsound⟩ := tree_proofs_exact counting .empty [.withDoc zeroKey Hash.zero]
  obtain ⟨t', htrees', h⟩ := trees_holds counting .empty [.withDoc zeroKey Hash.zero]
  cases htrees.symm.trans htrees'
  have hentry : t.hashFor zeroKey = some Hash.zero := (h.hashFor zeroKey).trans (AList.lookup_insert _)
  have hother : ∀ k, k ≠ zeroKey → t.hashFor k = none := fun k hk =>
    (h.hashFor k).trans ((AList.lookup_insert_ne hk).trans rfl)
  have hfree : CollisionFree counting (fun b => TreePreimage counting t.hashFor b ∨ ProofPreimage counting oneLeaf b) := by
    have hnode : ∀ d < trieDepth, ∃ e ≤ trieDepth,
        nodePreimage (spineNode nibbles (hasher counting) zeroKey Hash.zero d) = spinePreimage e :=
      fun d hd => ⟨d, hd.le, (if_neg hd.ne).symm⟩
    have hleaf : ∃ e ≤ trieDepth, leafPreimage zeroKey Hash.zero = spinePreimage e :=
      ⟨trieDepth, le_rfl, (if_pos rfl).symm⟩
    refine counting_free ?_
    intro b hb
    rcases hb with hb | hb
    · cases hb with
      | leaf hm =>
        rename_i k content
        by_cases hk : k = zeroKey
        · subst hk
          rw [hentry] at hm
          cases hm
          exact hleaf
        · rw [hother k hk] at hm
          cases hm
      | node hf =>
        obtain ⟨d, hd, rfl⟩ := innerNode_single hentry hother hf
        exact hnode d hd
    · cases hb with
      | level hmem => cases hmem
      | leaf heq =>
        cases heq
        exact hleaf
      | spine heq hlo hhi =>
        cases heq
        exact hnode _ hhi
  have hroot : foldLeaf counting zeroKey Hash.zero 0 = t.treeHash := by
    have hsingle : uncompressed nibbles (hasher counting) t.hashFor trieDepth (fun _ => 0) =
        some (spine nibbles (hasher counting) zeroKey Hash.zero (nibbles.depth - trieDepth)) :=
      uncompressed_single le_rfl (fun e he => absurd he (by simp [nibbles])) hentry fun k _ hk => hother k hk
    have hmap : t.hashFor = fun k => (resultMap .empty [.withDoc zeroKey Hash.zero]).lookup k := funext h.hashFor
    rw [h.treeHash, merkleHash, foldLeaf_eq]
    rw [hmap] at hsingle
    rw [hsingle]
    simp [nibbles]
  have hok : verifyTreeProof counting t.treeHash oneLeaf = .ok (Hash.zero, true) := by
    refine verifyTreeProof_eq_ok.2 ⟨Nat.zero_le _, ?_, ?_, rfl⟩
    · intro k content _ d hd
      cases hd
    · exact congrArg some hroot
  refine ⟨t, htrees, hfree, ?_⟩
  rw [hok, hsound oneLeaf _ hfree hok]
  rfl

end Kdb.DocTree
