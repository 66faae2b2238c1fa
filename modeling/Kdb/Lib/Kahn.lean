/-
Kahn's algorithm over a ranked graph: the members of a set in an order in which every node comes after its parents inside the
set. Ties go to the least ready node.

- `kahn_perm`, `kahn_ordered`: the order holds every member once, parents first.
- `kahn_drop`: the order of what is left of a set once the first nodes of its order are gone is the rest of that order.

A node waits once for every time a parent is named, and is released as often. The ready nodes are a list from which the least
is taken, as from a heap.
-/
import Kdb.Lib.RankedGraph
import Kdb.Lib.DependencyOrder

namespace Kdb.RankedGraph

open List

variable {ν : Type*} [LinearOrder ν] (G : RankedGraph ν) (nodes : List ν)

/-- the parents of a node inside the set, as often as they are named -/
def inside (x : ν) : List ν := (G.parents x).filter (· ∈ nodes)

/-- the nodes of the set naming a node as a parent, once for every time -/
def children (p : ν) : List ν := nodes.flatMap fun x => ((G.parents x).filter (· = p)).map fun _ => x

/-- a node waits for one parent less; waiting for none, it is ready -/
def release (st : (ν → ℕ) × List ν) (ch : ν) : (ν → ℕ) × List ν :=
  let pending := Function.update st.1 ch (st.1 ch - 1)
  (pending, if pending ch = 0 then ch :: st.2 else st.2)

/-- take the least ready node and release its children -/
def kahnFuel : ℕ → (ν → ℕ) → List ν → List ν → List ν
  | 0, _, _, order => order
  | n + 1, pending, ready, order =>
    match ready.min? with
    | none => order
    | some x =>
      let st := (G.children nodes x).foldl release (pending, ready.erase x)
      kahnFuel n st.1 st.2 (order ++ [x])

def kahn : List ν :=
  let pending := fun x => (G.inside nodes x).length
  G.kahnFuel nodes nodes.length pending (nodes.filter fun x => pending x = 0) []

variable {G nodes} {pending : ν → ℕ} {ready order : List ν} {x y : ν}

theorem mem_inside {p : ν} : p ∈ G.inside nodes x ↔ p ∈ G.parents x ∧ p ∈ nodes := by
  simp [inside]

/-! ## Releasing -/

theorem count_children (hnodup : nodes.Nodup) (p : ν) :
    (G.children nodes p).count y = if y ∈ nodes then (G.parents y).count p else 0 := by
  unfold children
  induction nodes with
  | nil => rfl
  | cons z nodes ih =>
    obtain ⟨hz, hnodup⟩ := nodup_cons.1 hnodup
    rw [flatMap_cons, count_append, ih hnodup, map_const', count_replicate, ← countP_eq_length_filter]
    by_cases hy : z = y
    · subst hy
      rw [if_neg hz, if_pos mem_cons_self, if_pos (by simp)]
      exact countP_congr fun q _ => by simp
    · rw [if_neg (by simpa using hy), Nat.zero_add]
      exact if_congr (by simp [Ne.symm hy]) rfl rfl

/-- releasing a list of nodes, each as often as it stands there -/
theorem release_all {cs : List ν} {st : (ν → ℕ) × List ν} (hle : ∀ x, cs.count x ≤ st.1 x) (hready : st.2.Nodup)
    (hnew : ∀ x ∈ cs, x ∉ st.2) : (∀ x, (cs.foldl release st).1 x = st.1 x - cs.count x) ∧
      (∀ x, x ∈ (cs.foldl release st).2 ↔ x ∈ st.2 ∨ x ∈ cs ∧ st.1 x = cs.count x) ∧ (cs.foldl release st).2.Nodup := by
  induction cs generalizing st with
  | nil => simp [hready]
  | cons c cs ih =>
    have hc : cs.count c + 1 ≤ st.1 c := by simpa using hle c
    have hpending : ∀ x, (release st c).1 x = st.1 x - if c = x then 1 else 0 := by
      intro x
      change Function.update st.1 c (st.1 c - 1) x = _
      by_cases hx : x = c
      · rw [hx, Function.update_self, if_pos rfl]
      · rw [Function.update_of_ne hx, if_neg (Ne.symm hx), Nat.sub_zero]
    have hmem : ∀ x, x ∈ (release st c).2 ↔ x ∈ st.2 ∨ x = c ∧ st.1 c = 1 := by
      intro x
      rw [release]
      rw [Function.update_self]
      split
      · have hone : st.1 c = 1 := by omega
        rw [or_comm]
        simp [hone]
      · have hne : st.1 c ≠ 1 := by omega
        simp [hne]
    have hcount : ∀ x, (c :: cs).count x = cs.count x + if c = x then 1 else 0 := by
      intro x
      rw [count_cons]
      exact congrArg _ (if_congr (by simp) rfl rfl)
    -- a node that is ready now is released no more
    have hlast : st.1 c = 1 → c ∉ cs := by
      intro hone hcs
      have := count_pos_iff.2 hcs
      omega
    obtain ⟨h₁, h₂, h₃⟩ := @ih (release st c) (fun x => by
        have := hle x
        rw [hcount] at this
        rw [hpending]
        omega)
      (by
        rw [release]
        split
        · exact nodup_cons.2 ⟨hnew c mem_cons_self, hready⟩
        · exact hready)
      (fun x hx hin => by
        rcases (hmem x).1 hin with h | ⟨rfl, hone⟩
        · exact hnew x (.tail _ hx) h
        · exact hlast hone hx)
    rw [foldl_cons]
    refine ⟨fun x => ?_, fun x => ?_, h₃⟩
    · rw [h₁, hpending, hcount]
      omega
    · rw [h₂, hmem, hpending, hcount, mem_cons]
      by_cases hx : c = x
      · subst hx
        rw [if_pos rfl]
        constructor
        · rintro ((h | ⟨-, hone⟩) | ⟨hcs, heq⟩)
          · exact .inl h
          · exact .inr ⟨.inl rfl, by omega⟩
          · exact .inr ⟨.inl rfl, by omega⟩
        · rintro (h | ⟨-, heq⟩)
          · exact .inl (.inl h)
          · by_cases hcs : c ∈ cs
            · exact .inr ⟨hcs, by omega⟩
            · have := count_eq_zero.2 hcs
              exact .inl (.inr ⟨rfl, by omega⟩)
      · rw [if_neg hx]
        have hx' : ¬x = c := fun h => hx h.symm
        simp [hx']

/-! ## The loop -/

variable (nodes) in
/-- how often a node names parents of the set that are not out yet -/
def waiting (order ps : List ν) : ℕ := ps.countP fun p => p ∈ nodes ∧ p ∉ order

theorem waiting_concat (hx : x ∈ nodes) (hout : x ∉ order) (ps : List ν) :
    waiting nodes order ps = waiting nodes (order ++ [x]) ps + ps.count x := by
  induction ps with
  | nil => rfl
  | cons p ps ih =>
    rw [waiting, waiting, countP_cons, countP_cons, ← waiting, ← waiting]
    by_cases hp : p = x
    · subst hp
      simp [hx, hout]
      omega
    · simp [hp]
      omega

variable (G nodes) in
/-- after some nodes are out -/
structure Sorting (pending : ν → ℕ) (ready order : List ν) : Prop where
  pending_eq : ∀ x ∈ nodes, pending x = waiting nodes order (G.parents x)
  mem_ready : ∀ x, x ∈ ready ↔ x ∈ nodes ∧ x ∉ order ∧ pending x = 0
  ready_nodup : ready.Nodup
  order_nodup : order.Nodup
  order_sub : ∀ x ∈ order, x ∈ nodes
  ordered : DepOrdered (G.inside nodes) order

theorem Sorting.start (hnodup : nodes.Nodup) : G.Sorting nodes (fun x => (G.inside nodes x).length)
    (nodes.filter fun x => (G.inside nodes x).length = 0) [] where
  pending_eq := by
    intro x _
    rw [inside, ← countP_eq_length_filter]
    exact countP_congr fun p _ => by simp
  mem_ready := by
    simp
  ready_nodup := hnodup.filter _
  order_nodup := nodup_nil
  order_sub := nofun
  ordered := .nil _

/-- one node more -/
theorem Sorting.step (hnodup : nodes.Nodup) (hs : G.Sorting nodes pending ready order) (hx : x ∈ ready) :
    G.Sorting nodes ((G.children nodes x).foldl release (pending, ready.erase x)).1
      ((G.children nodes x).foldl release (pending, ready.erase x)).2 (order ++ [x]) := by
  obtain ⟨hxn, hout, hzero⟩ := (hs.mem_ready x).1 hx
  have hwait : ∀ y ∈ nodes, pending y = waiting nodes (order ++ [x]) (G.parents y) + (G.parents y).count x :=
    fun y hy => (hs.pending_eq y hy).trans (waiting_concat hxn hout _)
  have hcount := fun y => count_children (G := G) (y := y) hnodup x
  -- a child names the node, which was not out
  have hchild : ∀ y ∈ G.children nodes x, y ∈ nodes ∧ 0 < (G.parents y).count x := by
    intro y hy
    have hpos := count_pos_iff.2 hy
    rw [hcount] at hpos
    split at hpos
    · exact ⟨‹_›, hpos⟩
    · omega
  obtain ⟨h₁, h₂, h₃⟩ := @release_all _ _ (G.children nodes x) (pending, ready.erase x) (fun y => by
      rw [hcount]
      split_ifs with hy
      · have := hwait y hy
        dsimp only
        omega
      · exact Nat.zero_le _)
    (hs.ready_nodup.erase x)
    (fun y hy hin => by
      obtain ⟨hyn, hpos⟩ := hchild y hy
      have hyzero := ((hs.mem_ready y).1 (mem_of_mem_erase hin)).2.2
      have := hwait y hyn
      omega)
  have hnow : ∀ y ∈ nodes, ((G.children nodes x).foldl release (pending, ready.erase x)).1 y =
      waiting nodes (order ++ [x]) (G.parents y) := by
    intro y hy
    have := hwait y hy
    rw [h₁, hcount, if_pos hy]
    dsimp only
    omega
  refine ⟨hnow, fun y => ?_, h₃, ?_, ?_, ?_⟩
  · rw [h₂, hs.ready_nodup.mem_erase_iff, hs.mem_ready, mem_append, mem_singleton, not_or]
    constructor
    · rintro (⟨hne, hyn, hyout, hyzero⟩ | ⟨hyc, heq⟩)
      · have := hwait y hyn
        exact ⟨hyn, ⟨hyout, hne⟩, by rw [hnow y hyn]; omega⟩
      · obtain ⟨hyn, hpos⟩ := hchild y hyc
        have hyw := hwait y hyn
        rw [hcount, if_pos hyn] at heq
        dsimp only at heq
        refine ⟨hyn, ⟨fun hyout => ?_, ?_⟩, by rw [hnow y hyn]; omega⟩
        · -- what is out has its parents out
          obtain ⟨l₁, l₂, rfl⟩ := append_of_mem hyout
          have hxl := hs.ordered l₁ y l₂ rfl x (mem_inside.2 ⟨count_pos_iff.1 hpos, hxn⟩)
          exact hout (mem_append_left _ hxl)
        · rintro rfl
          omega
    · rintro ⟨hyn, ⟨hyout, hne⟩, hyzero⟩
      rw [hnow y hyn] at hyzero
      have := hwait y hyn
      by_cases hpos : (G.parents y).count x = 0
      · exact .inl ⟨hne, hyn, hyout, by omega⟩
      · refine .inr ⟨count_pos_iff.1 ?_, ?_⟩
        · rw [hcount, if_pos hyn]
          omega
        · rw [hcount, if_pos hyn]
          dsimp only
          omega
  · rw [nodup_append]
    exact ⟨hs.order_nodup, nodup_singleton x, fun a ha b hb => by
      rw [mem_singleton.1 hb]
      exact fun h => hout (h ▸ ha)⟩
  · exact forall_mem_append.2 ⟨hs.order_sub, forall_mem_singleton.2 hxn⟩
  · refine hs.ordered.concat fun p hp => ?_
    obtain ⟨hpx, hpn⟩ := mem_inside.1 hp
    by_contra hpout
    have hpos : 0 < waiting nodes order (G.parents x) := countP_pos_iff.2 ⟨p, hpx, by simp [hpn, hpout]⟩
    have := hs.pending_eq x hxn
    omega

theorem Sorting.all_out (hs : G.Sorting nodes pending [] order) (hx : x ∈ nodes) : x ∈ order := by
  induction hr : G.rank x using Nat.strong_induction_on generalizing x with
  | _ r ih =>
    by_contra hout
    have hpos : 0 < pending x := by
      rw [Nat.pos_iff_ne_zero]
      intro hzero
      cases (hs.mem_ready x).2 ⟨hx, hout, hzero⟩
    rw [hs.pending_eq x hx] at hpos
    obtain ⟨p, hp, hwaits⟩ := countP_pos_iff.1 hpos
    simp only [decide_eq_true_eq] at hwaits
    exact hwaits.2 (ih _ (hr ▸ G.rank_lt x p hp) hwaits.1 rfl)

theorem Sorting.finish (hnodup : nodes.Nodup) {n : ℕ} (hs : G.Sorting nodes pending ready order)
    (hn : nodes.length ≤ order.length + n) :
    (G.kahnFuel nodes n pending ready order).Perm nodes ∧ DepOrdered (G.inside nodes) (G.kahnFuel nodes n pending ready order) := by
  induction n generalizing pending ready order with
  | zero =>
    refine ⟨?_, hs.ordered⟩
    exact (subperm_of_subset hs.order_nodup hs.order_sub).perm_of_length_le (by omega)
  | succ n ih =>
    rw [kahnFuel]
    cases hmin : ready.min? with
    | none =>
      rw [List.min?_eq_none_iff] at hmin
      subst hmin
      refine ⟨(perm_ext_iff_of_nodup hs.order_nodup hnodup).2 fun x => ?_, hs.ordered⟩
      exact ⟨hs.order_sub x, hs.all_out⟩
    | some x =>
      refine ih (hs.step hnodup (List.min?_mem hmin)) ?_
      rw [length_append, length_singleton]
      omega

theorem kahn_perm (hnodup : nodes.Nodup) : (G.kahn nodes).Perm nodes :=
  ((Sorting.start hnodup).finish hnodup (by simp)).1

/-- **Parents first.** -/
theorem kahn_ordered (hnodup : nodes.Nodup) : DepOrdered (G.inside nodes) (G.kahn nodes) :=
  ((Sorting.start hnodup).finish hnodup (by simp)).2

/-! ## What is left of a set -/

theorem min?_congr {l l' : List ν} (h : ∀ x, x ∈ l ↔ x ∈ l') : l.min? = l'.min? := by
  refine Option.ext ?_
  intro a
  simp only [List.min?_eq_some_iff, h]

theorem prefix_kahnFuel (n : ℕ) (pending : ν → ℕ) (ready order : List ν) :
    order <+: G.kahnFuel nodes n pending ready order := by
  induction n generalizing pending ready order with
  | zero => exact prefix_refl _
  | succ n ih =>
    rw [kahnFuel]
    cases ready.min? with
    | none => exact prefix_refl _
    | some x => exact (prefix_append _ _).trans (ih _ _ _)

/-- the loop on a set whose nodes in `done` are out goes as the loop on the rest -/
theorem Sorting.resume {nodes' done : List ν} (hnodup : nodes.Nodup) (hnodup' : nodes'.Nodup)
    (hrest : ∀ x, x ∈ nodes' ↔ x ∈ nodes ∧ x ∉ done) (n : ℕ) {pending' : ν → ℕ} {ready' : List ν}
    (hs : G.Sorting nodes pending ready (done ++ order)) (hs' : G.Sorting nodes' pending' ready' order) :
    G.kahnFuel nodes n pending ready (done ++ order) = done ++ G.kahnFuel nodes' n pending' ready' order := by
  induction n generalizing pending ready pending' ready' order with
  | zero => rfl
  | succ n ih =>
    have hwaiting : ∀ ps, waiting nodes (done ++ order) ps = waiting nodes' order ps := by
      intro ps
      refine countP_congr ?_
      simp only [hrest, mem_append, decide_eq_true_eq]
      tauto
    have hready : ∀ x, x ∈ ready ↔ x ∈ ready' := by
      intro x
      rw [hs.mem_ready, hs'.mem_ready]
      by_cases hx : x ∈ nodes
      · by_cases hd : x ∈ done
        · simp [hd, hrest]
        · have hx' : x ∈ nodes' := (hrest x).2 ⟨hx, hd⟩
          rw [hs.pending_eq x hx, hs'.pending_eq x hx', hwaiting]
          simp [hx, hx', hd]
      · simp [hx, hrest]
    rw [kahnFuel, kahnFuel, min?_congr hready]
    cases hmin : ready'.min? with
    | none => rfl
    | some x =>
      have hx' := List.min?_mem hmin
      have hstep := hs.step hnodup ((hready x).2 hx')
      rw [append_assoc] at hstep
      dsimp only
      rw [append_assoc]
      exact ih hstep (hs'.step hnodup' hx')

/-- the loop passes through every prefix of the order it ends with -/
theorem kahn_passes (hnodup : nodes.Nodup) {k : ℕ} (hk : k ≤ nodes.length) : ∃ pending ready,
    G.Sorting nodes pending ready ((G.kahn nodes).take k) ∧
      G.kahn nodes = G.kahnFuel nodes (nodes.length - k) pending ready ((G.kahn nodes).take k) := by
  induction k with
  | zero => exact ⟨_, _, Sorting.start hnodup, rfl⟩
  | succ k ih =>
    obtain ⟨pending, ready, hs, heq⟩ := ih (by omega)
    have hlen : (G.kahn nodes).length = nodes.length := (kahn_perm hnodup).length_eq
    obtain ⟨m, hm⟩ : ∃ m, nodes.length - k = m + 1 := ⟨nodes.length - k - 1, by omega⟩
    rw [hm, kahnFuel] at heq
    cases hmin : ready.min? with
    | none =>
      -- some node is still missing, so one is ready
      rw [hmin] at heq
      have := congrArg List.length heq
      rw [length_take] at this
      omega
    | some x =>
      rw [hmin] at heq
      dsimp only at heq
      have hstep := hs.step hnodup (List.min?_mem hmin)
      have hpre : (G.kahn nodes).take k ++ [x] <+: G.kahn nodes := by
        nth_rewrite 2 [heq]
        exact prefix_kahnFuel ..
      have htake : (G.kahn nodes).take k ++ [x] = (G.kahn nodes).take (k + 1) := by
        have := prefix_iff_eq_take.1 hpre
        rwa [length_append, length_take, Nat.min_eq_left (by omega)] at this
      rw [htake] at hstep heq
      exact ⟨_, _, hstep, by rwa [show nodes.length - (k + 1) = m by omega]⟩

/-- **The rest of the order.** -/
theorem kahn_drop {nodes' : List ν} (hnodup : nodes.Nodup) (hnodup' : nodes'.Nodup) (k : ℕ)
    (hrest : ∀ x, x ∈ nodes' ↔ x ∈ nodes ∧ x ∉ (G.kahn nodes).take k) : G.kahn nodes' = (G.kahn nodes).drop k := by
  have hlen : (G.kahn nodes).length = nodes.length := (kahn_perm hnodup).length_eq
  have hsplit : ((G.kahn nodes).take k ++ (G.kahn nodes).drop k).Nodup := by
    rw [take_append_drop]
    exact (kahn_perm hnodup).nodup_iff.2 hnodup
  have hperm : nodes'.Perm ((G.kahn nodes).drop k) := by
    refine (perm_ext_iff_of_nodup hnodup' (nodup_append.1 hsplit).2.1).2 ?_
    intro x
    rw [hrest, ← (kahn_perm (G := G) hnodup).mem_iff]
    nth_rewrite 1 [← take_append_drop k (G.kahn nodes)]
    rw [mem_append]
    have hdisjoint := (nodup_append.1 hsplit).2.2
    constructor
    · rintro ⟨htake | hdrop, hnot⟩
      · exact absurd htake hnot
      · exact hdrop
    · intro hdrop
      exact ⟨.inr hdrop, fun htake => hdisjoint x htake x hdrop rfl⟩
  rcases le_total k nodes.length with hk | hk
  · obtain ⟨pending, ready, hs, heq⟩ := kahn_passes (G := G) hnodup hk
    have hcount : nodes.length - k = nodes'.length := by
      rw [hperm.length_eq, length_drop, hlen]
    rw [hcount] at heq
    rw [← append_nil ((G.kahn nodes).take k)] at hs heq
    rw [Sorting.resume hnodup hnodup' hrest _ hs (Sorting.start hnodup')] at heq
    have hdrop : (G.kahn nodes).take k ++ (G.kahn nodes).drop k = (G.kahn nodes).take k ++ G.kahn nodes' :=
      (take_append_drop k _).trans heq
    exact (append_cancel_left hdrop).symm
  · have hnil : (G.kahn nodes).drop k = [] := drop_eq_nil_of_le (by omega)
    rw [hnil] at hperm ⊢
    rw [hperm.eq_nil]
    rfl

end Kdb.RankedGraph
