/-
Merkle tries with compressed leaves. Keys are strings of `depth` digits; a leaf stands for the whole subtree where it sits
when that subtree holds one entry, and carries the hash the subtree would have without compression.
- `uncompressed`: the hash of the full trie of a map, every key at full depth, an empty subtree counting as zero.
- `Canon`: the compressed trie of a map below a path. `Canon.uncompressed_eq`: its hash is the uncompressed one.
- `Canon.only`, `Canon.leaf_of_only`, `Canon.branch`: how canonical tries are put together and taken apart at one level.
- `entries`: what a trie holds, in key order (`Canon.entries_sorted`).
- `subtreeHash`: the hash of the full trie below a path, and what it says of the map when the hasher keeps nodes and
  leaves apart (`Separates`).
The hash functions are arbitrary, and outside `Separates` nothing is assumed about collisions.
-/
import Mathlib

namespace Kdb

open Function (update update_of_ne update_self)
open List Option

/-- keys read digit by digit, and ordered the same way -/
structure Digits (κ : Type*) [LinearOrder κ] (w : ℕ) where
  depth : ℕ
  digit : κ → ℕ → Fin w
  ofDigits : (ℕ → Fin w) → κ
  digit_ofDigits : ∀ path, ∀ d < depth, digit (ofDigits path) d = path d
  ext : ∀ a b, (∀ d < depth, digit a d = digit b d) → a = b
  lt_of_digit : ∀ a b, ∀ d < depth, (∀ e < d, digit a e = digit b e) → digit a d < digit b d → a < b

/-- how a leaf and an inner node are hashed, and what stands for nothing -/
structure Hasher (κ β δ : Type*) (w : ℕ) where
  zero : δ
  leaf : κ → β → δ
  node : (Fin w → δ) → δ

inductive Trie (κ β δ : Type*) (w : ℕ) where
  | empty
  | leaf (hash : δ) (id : κ) (content : β)
  | node (hash : δ) (child : Fin w → Trie κ β δ w)

namespace Trie

variable {κ β δ : Type*} {w : ℕ} [LinearOrder κ] (D : Digits κ w) (X : Hasher κ β δ w)

/-- the hash kept in a record; zero for nothing -/
def hash : Trie κ β δ w → δ
  | .empty => X.zero
  | .leaf hash _ _ => hash
  | .node hash _ => hash

/-- the entries in key order -/
def entries : Trie κ β δ w → List (κ × β)
  | .empty => []
  | .leaf _ id content => [(id, content)]
  | .node _ child => (List.finRange w).flatMap fun i => (child i).entries

/-- `k` agrees with the path on its first `d` digits -/
def Under (path : ℕ → Fin w) (d : ℕ) (k : κ) : Prop := ∀ e < d, D.digit k e = path e

/-! ## The uncompressed trie -/

/-- the hash of the subtree of `m` at a path, with `n` levels left; `none` if it is empty -/
def uncompressed (m : κ → Option β) : ℕ → (ℕ → Fin w) → Option δ
  | 0, path => (m (D.ofDigits path)).map (X.leaf (D.ofDigits path))
  | n + 1, path =>
    let children := fun i => uncompressed m n (update path (D.depth - (n + 1)) i)
    if ∀ i, (children i).isNone then none else some (X.node fun i => (children i).getD X.zero)

def onlyChild (i : Fin w) (h : δ) : δ := X.node (update (fun _ => X.zero) i h)

/-- the hash of a subtree at depth `d` that holds one entry -/
def spine (k : κ) (content : β) (d : ℕ) : δ :=
  (List.range' d (D.depth - d)).foldr (fun e h => onlyChild X (D.digit k e) h) (X.leaf k content)

variable {D X} {m m' : κ → Option β} {path : ℕ → Fin w} {d n : ℕ} {k id : κ} {content : β}

theorem uncompressed_succ : uncompressed D X m (n + 1) path =
    if ∀ i, (uncompressed D X m n (update path (D.depth - (n + 1)) i)).isNone then none
    else some (X.node fun i => (uncompressed D X m n (update path (D.depth - (n + 1)) i)).getD X.zero) := rfl

theorem spine_of_le (hd : D.depth ≤ d) : spine D X k content d = X.leaf k content := by
  rw [spine, Nat.sub_eq_zero_of_le hd]
  rfl

theorem spine_of_lt (hd : d < D.depth) :
    spine D X k content d = onlyChild X (D.digit k d) (spine D X k content (d + 1)) := by
  obtain ⟨n, hn⟩ : ∃ n, D.depth - d = n + 1 := ⟨D.depth - d - 1, by omega⟩
  have hn' : D.depth - (d + 1) = n := by omega
  rw [spine, hn, List.range'_succ, foldr_cons, spine, hn']

/-! ## Paths -/

theorem under_zero : Under D path 0 k := nofun

variable {i : Fin w} {t : Trie κ β δ w}

theorem under_succ : Under D (update path d i) (d + 1) k ↔ Under D path d k ∧ D.digit k d = i := by
  constructor
  · intro h
    refine ⟨fun e he => ?_, ?_⟩
    · rw [h e (by omega), update_of_ne (by omega)]
    · rw [h d (by omega), update_self]
  · rintro ⟨h, rfl⟩ e he
    rcases Nat.lt_succ_iff_lt_or_eq.1 he with he | rfl
    · rw [h e he, update_of_ne (by omega)]
    · rw [update_self]

theorem under_step (h : Under D path d k) : Under D (update path d (D.digit k d)) (d + 1) k :=
  under_succ.2 ⟨h, rfl⟩

theorem under_full (hd : D.depth ≤ d) (h : Under D path d k) : k = D.ofDigits path := by
  apply D.ext
  intro e he
  rw [h e (by omega), D.digit_ofDigits path e he]

theorem eq_of_under_full (hd : D.depth ≤ d) (hk : Under D path d k) (hid : Under D path d id) : k = id :=
  (under_full hd hk).trans (under_full hd hid).symm

theorem under_ofDigits (hd : d ≤ D.depth) : Under D path d (D.ofDigits path) := fun e he =>
  D.digit_ofDigits path e (by omega)

/-! ## Empty subtrees and subtrees of one entry -/

theorem uncompressed_eq_none (hn : n ≤ D.depth) (hnone : ∀ k, Under D path (D.depth - n) k → m k = none) :
    uncompressed D X m n path = none := by
  induction n generalizing path with
  | zero =>
    rw [uncompressed, hnone _ (under_ofDigits (by omega))]
    rfl
  | succ n ih =>
    have hd : D.depth - n = D.depth - (n + 1) + 1 := by omega
    rw [uncompressed_succ, if_pos]
    intro i
    rw [ih (by omega)]
    · rfl
    · intro k hk
      rw [hd] at hk
      exact hnone k (under_succ.1 hk).1

theorem uncompressed_isSome (hn : n ≤ D.depth) (hk : Under D path (D.depth - n) k) (hm : m k ≠ none) :
    (uncompressed D X m n path).isSome := by
  induction n generalizing path with
  | zero =>
    rw [uncompressed, ← under_full (by omega) hk, isSome_map]
    exact isSome_iff_ne_none.2 hm
  | succ n ih =>
    have hd : D.depth - n = D.depth - (n + 1) + 1 := by omega
    rw [uncompressed_succ, if_neg]
    · rfl
    · intro hall
      have hsome := ih (by omega) (hd ▸ under_step hk)
      rw [isNone_iff_eq_none.1 (hall _)] at hsome
      cases hsome

/-- **One entry.** Its subtree hashes to the spine above it. -/
theorem uncompressed_single (hn : n ≤ D.depth) (hid : Under D path (D.depth - n) id) (hm : m id = some content)
    (hother : ∀ k, Under D path (D.depth - n) k → k ≠ id → m k = none) :
    uncompressed D X m n path = some (spine D X id content (D.depth - n)) := by
  induction n generalizing path with
  | zero =>
    rw [uncompressed, ← under_full (by omega) hid, hm, spine_of_le (by omega)]
    rfl
  | succ n ih =>
    set d := D.depth - (n + 1) with hdef
    have hd : D.depth - n = d + 1 := by omega
    have hchild : ∀ i, uncompressed D X m n (update path d i) =
        if i = D.digit id d then some (spine D X id content (d + 1)) else none := by
      intro i
      split_ifs with hi
      · subst hi
        rw [← hd]
        refine ih (by omega) (hd ▸ under_step hid) fun k hk hne => ?_
        exact hother k (under_succ.1 (hd ▸ hk)).1 hne
      · refine uncompressed_eq_none (by omega) fun k hk => ?_
        obtain ⟨hk, hdigit⟩ := under_succ.1 (hd ▸ hk)
        refine hother k hk fun heq => hi ?_
        rw [← heq, hdigit]
    rw [uncompressed_succ, if_neg]
    · rw [spine_of_lt (by omega)]
      congr 2
      funext i
      rw [hchild i]
      by_cases hi : i = D.digit id d
      · subst hi
        simp
      · simp [hi]
    · intro hall
      have := hall (D.digit id d)
      rw [hchild, if_pos rfl] at this
      cases this

/-! ## Canonical tries -/

variable (D X m) in
/-- the compressed trie of `m` below a path of length `d` -/
inductive Canon : ℕ → (ℕ → Fin w) → Trie κ β δ w → Prop where
  | empty {d : ℕ} {path : ℕ → Fin w} (hnone : ∀ k, Under D path d k → m k = none) : Canon d path .empty
  | leaf {d : ℕ} {path : ℕ → Fin w} {id : κ} {content : β} (hid : Under D path d id) (hm : m id = some content)
      (hother : ∀ k, Under D path d k → k ≠ id → m k = none) : Canon d path (.leaf (spine D X id content d) id content)
  | node {d : ℕ} {path : ℕ → Fin w} {a b : κ} {child : Fin w → Trie κ β δ w} (hd : d < D.depth) (ha : Under D path d a)
      (hb : Under D path d b) (hab : a ≠ b) (hma : m a ≠ none) (hmb : m b ≠ none) (hchild : ∀ i, Canon (d + 1) (update path d i) (child i)) :
      Canon d path (.node (X.node fun i => (child i).hash X) child)

section

variable (ht : Canon D X m d path t)
include ht

theorem Canon.congr (heq : ∀ k, Under D path d k → m' k = m k) : Canon D X m' d path t := by
  induction ht with
  | empty hnone => exact .empty fun k hk => (heq k hk).trans (hnone k hk)
  | leaf hid hm hother =>
    exact .leaf hid ((heq _ hid).trans hm) fun k hk hne => (heq k hk).trans (hother k hk hne)
  | node hd ha hb hab hma hmb _ ih =>
    refine .node hd ha hb hab (heq _ ha ▸ hma) (heq _ hb ▸ hmb) fun i => ih i fun k hk => ?_
    exact heq k (under_succ.1 hk).1

theorem Canon.path_congr {path' : ℕ → Fin w} (heq : ∀ e < d, path e = path' e) : Canon D X m d path' t := by
  have hunder : ∀ {d : ℕ} {p p' : ℕ → Fin w} {k : κ}, (∀ e < d, p e = p' e) → Under D p' d k → Under D p d k :=
    fun heq hk e he => (hk e he).trans (heq e he).symm
  induction ht generalizing path' with
  | empty hnone => exact .empty fun k hk => hnone k (hunder heq hk)
  | leaf hid hm hother =>
    exact .leaf (hunder (fun e he => (heq e he).symm) hid) hm fun k hk hne => hother k (hunder heq hk) hne
  | node hd ha hb hab hma hmb _ ih =>
    rename_i d _ _ _ _ _
    have hback := fun e he => (heq e he).symm
    refine .node hd (hunder hback ha) (hunder hback hb) hab hma hmb fun i => ih i fun e he => ?_
    by_cases hed : e = d
    · rw [hed, update_self, update_self]
    · rw [update_of_ne hed, update_of_ne hed]
      exact heq e (by omega)

/-- **Compression keeps the hash.** -/
theorem Canon.uncompressed_eq (hd : d ≤ D.depth) : (uncompressed D X m (D.depth - d) path).getD X.zero = t.hash X := by
  have hback : D.depth - (D.depth - d) = d := by omega
  induction ht with
  | empty hnone =>
    rw [uncompressed_eq_none (by omega) (by rwa [hback])]
    rfl
  | leaf hid hm hother =>
    rw [uncompressed_single (by omega) (by rwa [hback]) hm (by rwa [hback]), hback]
    rfl
  | node hlt ha hb hab hma hmb _ ih =>
    rename_i d path a b child _
    obtain ⟨n, hn⟩ : ∃ n, D.depth - d = n + 1 := ⟨D.depth - d - 1, by omega⟩
    have hsome : (uncompressed D X m (n + 1) path).isSome :=
      uncompressed_isSome (by omega) (by rwa [← hn, hback]) hma
    rw [uncompressed_succ, ← hn, hback] at hsome
    rw [hn, uncompressed_succ, ← hn, hback]
    split_ifs at hsome with hne
    · cases hsome
    · rw [if_neg hne, getD_some]
      have hn' : n = D.depth - (d + 1) := by omega
      congr 1
      funext i
      rw [hn']
      exact ih i (by omega) (by omega)

/-! ## Building and taking apart -/

theorem Canon.exists_mem (hne : t ≠ .empty) : ∃ k, Under D path d k ∧ m k ≠ none := by
  cases ht with
  | empty => exact absurd rfl hne
  | leaf hid hm => exact ⟨_, hid, hm ▸ some_ne_none _⟩
  | node _ ha _ _ hma => exact ⟨_, ha, hma⟩

end

/-- two entries below a path need a branch -/
theorem Canon.branch {child : Fin w → Trie κ β δ w} {a b : κ} (ha : Under D path d a) (hb : Under D path d b)
    (hab : a ≠ b) (hma : m a ≠ none) (hmb : m b ≠ none)
    (hchild : ∀ i, Canon D X m (d + 1) (update path d i) (child i)) :
    Canon D X m d path (.node (X.node fun i => (child i).hash X) child) := by
  refine .node ?_ ha hb hab hma hmb hchild
  by_contra hd
  exact hab (eq_of_under_full (Nat.le_of_not_lt hd) ha hb)

/-- a branch whose entries all go one way -/
theorem Canon.only {a b : κ} (ha : Under D path d a) (hb : Under D path d b) (hab : a ≠ b) (hma : m a ≠ none)
    (hmb : m b ≠ none) (hi : ∀ k, Under D path d k → m k ≠ none → D.digit k d = i)
    (ht : Canon D X m (d + 1) (update path d i) t) : Canon D X m d path
      (.node (X.node fun j => (update (fun _ => Trie.empty) i t j).hash X) (update (fun _ => .empty) i t)) := by
  refine .branch ha hb hab hma hmb fun j => ?_
  by_cases hj : j = i
  · subst hj
    rw [update_self]
    exact ht
  · rw [update_of_ne hj]
    refine .empty fun k hk => ?_
    obtain ⟨hunder, rfl⟩ := under_succ.1 hk
    by_contra hm
    exact hj (hi k hunder hm)

/-- a leaf moved up one level, when it is all there is -/
theorem Canon.leaf_of_only {hash : δ} (ht : Canon D X m (d + 1) (update path d i) (.leaf hash id content))
    (hi : ∀ k, Under D path d k → m k ≠ none → D.digit k d = i) :
    Canon D X m d path (.leaf (spine D X id content d) id content) := by
  cases ht with
  | leaf hid hm hother =>
    refine .leaf (under_succ.1 hid).1 hm fun k hk hne => ?_
    by_contra hmk
    exact hmk (hother k (under_succ.2 ⟨hk, hi k hk hmk⟩) hne)

/-! ## Reading -/

theorem Canon.mem_entries (ht : Canon D X m d path t) :
    (k, content) ∈ t.entries ↔ Under D path d k ∧ m k = some content := by
  induction ht with
  | empty hnone =>
    simp only [entries, not_mem_nil, false_iff]
    rintro ⟨hk, hm⟩
    rw [hnone k hk] at hm
    cases hm
  | leaf hid hm hother =>
    rename_i id c
    simp only [entries, mem_singleton, Prod.mk.injEq]
    constructor
    · rintro ⟨rfl, rfl⟩
      exact ⟨hid, hm⟩
    · rintro ⟨hk, hmk⟩
      by_cases hne : k = id
      · subst hne
        exact ⟨rfl, Option.some.inj (hmk.symm.trans hm)⟩
      · rw [hother k hk hne] at hmk
        cases hmk
  | node _ _ _ _ _ _ _ ih =>
    simp only [entries, mem_flatMap, mem_finRange, true_and, ih, under_succ]
    constructor
    · rintro ⟨i, ⟨hk, -⟩, hm⟩
      exact ⟨hk, hm⟩
    · rintro ⟨hk, hm⟩
      exact ⟨_, ⟨hk, rfl⟩, hm⟩

/-- **The walk is in key order.** -/
theorem Canon.entries_sorted (ht : Canon D X m d path t) : t.entries.Pairwise fun a b => a.1 < b.1 := by
  induction ht with
  | empty => exact .nil
  | leaf => exact pairwise_singleton _ _
  | node hd _ _ _ _ _ hchild ih =>
    rw [entries, pairwise_flatMap]
    refine ⟨fun i _ => ih i, ?_⟩
    refine (pairwise_lt_finRange w).imp ?_
    rintro i j hij ⟨a, ca⟩ ha ⟨b, cb⟩ hb
    -- the first digit in which the two differ is this one
    obtain ⟨hunder, rfl⟩ := under_succ.1 ((hchild i).mem_entries.1 ha).1
    obtain ⟨hunder', rfl⟩ := under_succ.1 ((hchild j).mem_entries.1 hb).1
    exact D.lt_of_digit a b _ hd (fun e he => (hunder e he).trans (hunder' e he).symm) hij

/-! ## Reading hashes back -/

variable (D X m) in
/-- the hash of the full trie below a path of length `d` -/
def subtreeHash (d : ℕ) (path : ℕ → Fin w) : δ := (uncompressed D X m (D.depth - d) path).getD X.zero

variable (D X m) in
/-- the children of an inner node of the full trie: one with an entry below it -/
inductive InnerNode : (Fin w → δ) → Prop where
  | mk {d : ℕ} {path : ℕ → Fin w} {k : κ} (hd : d < D.depth) (hk : Under D path d k) (hm : m k ≠ none) :
      InnerNode fun i => subtreeHash D X m (d + 1) (update path d i)

/-- the children of a node on the spine above one entry -/
def spineNode (D : Digits κ w) (X : Hasher κ β δ w) (k : κ) (content : β) (d : ℕ) : Fin w → δ :=
  update (fun _ => X.zero) (D.digit k d) (spine D X k content (d + 1))

/-- the hasher gives different nodes and different leaves different hashes, and none of them zero -/
structure Separates (X : Hasher κ β δ w) (nodes : (Fin w → δ) → Prop) (leaves : κ → β → Prop) : Prop where
  node_inj : ∀ f g, nodes f → nodes g → X.node f = X.node g → f = g
  leaf_inj : ∀ k c k' c', leaves k c → leaves k' c' → X.leaf k c = X.leaf k' c' → k = k' ∧ c = c'
  node_ne : ∀ f, nodes f → X.node f ≠ X.zero
  leaf_ne : ∀ k c, leaves k c → X.leaf k c ≠ X.zero

theorem subtreeHash_empty (hd : d ≤ D.depth) (hnone : ∀ k, Under D path d k → m k = none) :
    subtreeHash D X m d path = X.zero := by
  have hback : D.depth - (D.depth - d) = d := by omega
  rw [subtreeHash, uncompressed_eq_none (by omega) (by rwa [hback])]
  rfl

theorem subtreeHash_node (hd : d < D.depth) (hk : Under D path d k) (hm : m k ≠ none) :
    subtreeHash D X m d path = X.node fun i => subtreeHash D X m (d + 1) (update path d i) := by
  obtain ⟨n, hn⟩ : ∃ n, D.depth - d = n + 1 := ⟨D.depth - d - 1, by omega⟩
  have hback : D.depth - (n + 1) = d := by omega
  have hn' : D.depth - (d + 1) = n := by omega
  have hsome : (uncompressed D X m (n + 1) path).isSome := uncompressed_isSome (by omega) (by rwa [hback]) hm
  rw [subtreeHash, hn]
  simp only [subtreeHash, hn']
  rw [uncompressed_succ, hback] at hsome ⊢
  split_ifs at hsome with hne
  · cases hsome
  · rw [if_neg hne, getD_some]

theorem subtreeHash_leaf (hd : d = D.depth) (hk : Under D path d k) (hm : m k = some content) :
    subtreeHash D X m d path = X.leaf k content := by
  rw [subtreeHash, hd, Nat.sub_self, uncompressed, ← under_full hd.ge hk, hm]
  rfl

theorem exists_of_ne_zero (hd : d ≤ D.depth) (hne : subtreeHash D X m d path ≠ X.zero) :
    ∃ k, Under D path d k ∧ m k ≠ none := by
  by_contra hno
  refine hne (subtreeHash_empty hd fun k hk => ?_)
  by_contra hm
  exact hno ⟨k, hk, hm⟩

section Separated

variable {nodes : (Fin w → δ) → Prop} {leaves : κ → β → Prop} (hsep : Separates X nodes leaves)
  (hnodes : ∀ f, InnerNode D X m f → nodes f) (hleaves : ∀ k c, m k = some c → leaves k c)

include hsep hnodes hleaves

/-- **Zero means empty.** -/
theorem none_of_zero (hd : d ≤ D.depth) (hzero : subtreeHash D X m d path = X.zero) (hk : Under D path d k) :
    m k = none := by
  by_contra hm
  rcases hd.lt_or_eq with hlt | heq
  · rw [subtreeHash_node hlt hk hm] at hzero
    exact hsep.node_ne _ (hnodes _ (.mk hlt hk hm)) hzero
  · obtain ⟨c, hc⟩ := ne_none_iff_exists'.1 hm
    rw [subtreeHash_leaf heq hk hc] at hzero
    exact hsep.leaf_ne k c (hleaves k c hc) hzero

omit hleaves in
/-- **A node pins its children.** -/
theorem child_of_node {f : Fin w → δ} (hd : d < D.depth) (hf : nodes f) (heq : subtreeHash D X m d path = X.node f)
    (i : Fin w) : subtreeHash D X m (d + 1) (update path d i) = f i := by
  obtain ⟨k, hk, hm⟩ := exists_of_ne_zero hd.le (heq ▸ hsep.node_ne f hf)
  rw [subtreeHash_node hd hk hm] at heq
  exact congrFun (hsep.node_inj _ _ (hnodes _ (.mk hd hk hm)) hf heq) i

/-- **A spine pins its entry.** A subtree with the hash of one entry holds that entry and nothing else. -/
theorem only_of_spine (hd : d ≤ D.depth) (hid : Under D path d id) (hleaf : leaves id content)
    (hspine : ∀ e, d ≤ e → e < D.depth → nodes (spineNode D X id content e))
    (heq : subtreeHash D X m d path = spine D X id content d) :
    m id = some content ∧ ∀ k, Under D path d k → k ≠ id → m k = none := by
  induction hn : D.depth - d generalizing d path with
  | zero =>
    have hfull : d = D.depth := by omega
    have hne : subtreeHash D X m d path ≠ X.zero := by
      rw [heq, spine_of_le hfull.ge]
      exact hsep.leaf_ne _ _ hleaf
    obtain ⟨k, hk, hm⟩ := exists_of_ne_zero hd hne
    obtain ⟨c, hc⟩ := ne_none_iff_exists'.1 hm
    rw [subtreeHash_leaf hfull hk hc, spine_of_le hfull.ge] at heq
    obtain ⟨rfl, rfl⟩ := hsep.leaf_inj _ _ _ _ (hleaves k c hc) hleaf heq
    exact ⟨hc, fun k' hk' hne => absurd (eq_of_under_full hfull.ge hk' hid) hne⟩
  | succ n ih =>
    have hlt : d < D.depth := by omega
    rw [spine_of_lt hlt] at heq
    have hchild := child_of_node hsep hnodes hlt (hspine d le_rfl hlt) heq
    obtain ⟨hm, hother⟩ := ih (by omega) (under_step hid) (fun e he hed => hspine e (by omega) hed)
      (by rw [hchild, spineNode, update_self]) (by omega)
    refine ⟨hm, fun k hk hne => ?_⟩
    by_cases hdigit : D.digit k d = D.digit id d
    · exact hother k (under_succ.2 ⟨hk, hdigit⟩) hne
    · -- another slot: it holds zero, so nothing
      refine none_of_zero hsep hnodes hleaves (by omega) ?_ (under_step hk)
      rw [hchild, spineNode, update_of_ne hdigit]

end Separated

end Trie

end Kdb
