/-
Content hashes of attachments (`document/attachment_hash.go`): the root of a Merkle tree over 1 MiB chunks, folded with
the size.

- `leaves_of_identity`: leaves and a size that are folded to the content hash of `c` are those of `c`.
- `attachmentContentHash_injective`: the content hash names the bytes.
Both for hashes without collisions (`CollisionFree`). The three hashes are SHA-256 under one domain tag each.
-/
import Kdb.Lib.Bytes
import Kdb.Lib.MerkleStack

namespace Kdb.AttachmentHash

open MerkleStack List

/-- `AttachmentChunkBytes` -/
def chunk : ℕ := 1048576

theorem chunk_pos : 0 < chunk := by decide

/-- the hashes of the scheme -/
structure Hasher (H : Type*) where
  chunkLeafHash : Bytes → H
  merkleNode : H → H → H
  attachmentIdentity : H → ℤ → H

/-- none of the hashes has a collision -/
structure CollisionFree {H : Type*} (X : Hasher H) : Prop where
  leaf : Function.Injective X.chunkLeafHash
  node : NodeInjective X.merkleNode
  identity : ∀ t t' n n', X.attachmentIdentity t n = X.attachmentIdentity t' n' → t = t' ∧ n = n'

/-- chunk `i` of the bytes -/
def chunkOf (c : Bytes) (i : ℕ) : Bytes := (c.drop (i * chunk)).take chunk

/-- how many chunks a size has -/
def chunkCount (size : ℤ) : ℕ := ((size + chunk - 1) / chunk).toNat

variable {H : Type*} (X : Hasher H)

/-- `MerkleBuilder`: `Add` for each leaf, then `Root` -/
def merkleRoot (leaves : List H) : H := root X.merkleNode (X.chunkLeafHash []) (build X.merkleNode leaves)

def leavesOf (c : Bytes) : List H := (List.range (max 1 (chunkCount c.length))).map fun i => X.chunkLeafHash (chunkOf c i)

def attachmentContentHash (c : Bytes) : H := X.attachmentIdentity (merkleRoot X (leavesOf X c)) c.length

/-! ## Chunks -/

theorem getElem?_chunkOf (b : Bytes) (j : ℕ) : (chunkOf b (j / chunk))[j % chunk]? = b[j]? := by
  rw [chunkOf, List.getElem?_take_of_lt (Nat.mod_lt j chunk_pos), List.getElem?_drop, Nat.div_add_mod']

theorem isPrefix_drop_chunkOf (c : Bytes) (j : ℕ) : (chunkOf c (j / chunk)).drop (j % chunk) <+: c.drop j := by
  rw [chunkOf, drop_take, drop_drop, Nat.div_add_mod']
  exact take_prefix _ _

theorem div_lt_chunkCount {n : ℤ} {j : ℕ} (hj : (j : ℤ) < n) : j / chunk < chunkCount n := by
  have hchunk : (0 : ℤ) < chunk := by exact_mod_cast chunk_pos
  have hle : (j : ℤ) / chunk + 1 ≤ (n + chunk - 1) / chunk := by
    rw [Int.le_ediv_iff_mul_le hchunk, add_mul]
    have hmul := Int.ediv_mul_le (j : ℤ) hchunk.ne'
    omega
  rw [chunkCount]
  omega

theorem chunkCount_pos {n : ℤ} (hn : 0 < n) : 0 < chunkCount n := by
  have h := div_lt_chunkCount (j := 0) (by exact_mod_cast hn)
  simpa using h

theorem length_leavesOf {c : Bytes} (hc : c ≠ []) : (leavesOf X c).length = chunkCount c.length := by
  have hpos : 0 < chunkCount c.length := chunkCount_pos (by exact_mod_cast length_pos_of_ne_nil hc)
  rw [leavesOf, length_map, length_range, Nat.max_eq_right hpos]

theorem getElem?_leavesOf (c : Bytes) {i : ℕ} (hi : i < chunkCount c.length) :
    (leavesOf X c)[i]? = some (X.chunkLeafHash (chunkOf c i)) := by
  rw [leavesOf, List.getElem?_map, List.getElem?_range (lt_max_of_lt_right hi)]
  rfl

variable {X}

/-- **The content hash fixes the leaves.** -/
theorem leaves_of_identity (hX : CollisionFree X) {c : Bytes} (hc : c ≠ []) {leaves : List H} {size : ℤ}
    (hcount : leaves.length = chunkCount size)
    (hroot : X.attachmentIdentity (merkleRoot X leaves) size = attachmentContentHash X c) :
    size = c.length ∧ leaves = leavesOf X c := by
  obtain ⟨htree, hsize⟩ := hX.identity _ _ _ _ hroot
  refine ⟨hsize, root_injective hX.node _ ?_ htree⟩
  rw [hcount, hsize, length_leavesOf X hc]

theorem eq_of_chunks {c c' : Bytes} (hlen : c.length = c'.length)
    (hchunks : ∀ i < chunkCount c.length, chunkOf c i = chunkOf c' i) : c = c' := by
  apply ext_getElem?
  intro j
  by_cases hj : j < c.length
  · rw [← getElem?_chunkOf c, ← getElem?_chunkOf c', hchunks _ (div_lt_chunkCount (by exact_mod_cast hj))]
  · rw [List.getElem?_eq_none (not_lt.1 hj), List.getElem?_eq_none (hlen ▸ not_lt.1 hj)]

theorem attachmentContentHash_injective (hX : CollisionFree X) : Function.Injective (attachmentContentHash X) := by
  intro c c' h
  by_cases hc : c = []
  · -- the size alone tells the empty bytes apart
    have hlen := (hX.identity _ _ _ _ h).2
    subst hc
    exact (length_eq_zero_iff.1 (by exact_mod_cast hlen.symm)).symm
  · have hlen : c.length = c'.length := by exact_mod_cast (hX.identity _ _ _ _ h).2
    have hc' : c' ≠ [] := by
      rintro rfl
      exact hc (length_eq_zero_iff.1 hlen)
    have hleaves := (leaves_of_identity hX hc' (length_leavesOf X hc) h).2
    refine eq_of_chunks hlen fun i hi => hX.leaf ?_
    have h1 := getElem?_leavesOf X c hi
    have h2 := getElem?_leavesOf X c' (hlen ▸ hi)
    rw [hleaves, h2] at h1
    exact (Option.some.inj h1).symm

end Kdb.AttachmentHash
