/-
Replay of a namespace's log (`Kdb.Embed.GroupCommit`): what a crash leaves decided, and which commits stand on it.

- `Clear`: every undecided part a commit stands on belongs to a group that its own decision, or its barrier's, comes
  behind.
- `mem_replayNamespace`: of a log in dependency order, replay keeps exactly the commits that stand on decided parts.
-/
import Kdb.Embed.GroupCommit
import Kdb.Lib.DependencyOrder

namespace Kdb.GroupCommit

open List Option

/-! ## Decisions and the order they come in -/

/-- what a crash now would leave decided: the group's record is in its epoch's file, or the epoch is sealed -/
def Decided (s : Host) (g : GroupId) : Prop :=
  ∃ G, s.group g = some G ∧ ∀ f, s.files[G.epoch]? = some f → g ∈ f.records

/-- the groups a group's decision must come behind -/
def predsOf (s : Host) (g : GroupId) : List GroupId := ((s.group g).map TxnGroup.preds).getD []

/-- `Behind s b a`: the decision of `b` comes behind that of `a` -/
def Behind (s : Host) : GroupId → GroupId → Prop := Relation.ReflTransGen fun b a => a ∈ predsOf s b

/-- every part the commit stands on is decided, or of a group that `b` comes behind -/
def Clear (C : Commits) (s : Host) (h : Hash) (b : Option GroupId) : Prop :=
  ∀ y m, C.graph.Below y h → C.marker y = some m → Decided s m.group ∨ ∃ g, b = some g ∧ Behind s g m.group

/-- groups only gain parts and predecessors, and decisions stay -/
structure Grows (s t : Host) : Prop where
  group : ∀ g G, s.group g = some G → ∃ G', t.group g = some G' ∧ G'.epoch = G.epoch ∧ G'.parts = G.parts ∧
    G.added ⊆ G'.added ∧ G.preds ⊆ G'.preds
  decided : ∀ g, Decided s g → Decided t g

variable {C : Commits} {s t : Host} {g : GroupId} {h : Hash} {n : Ns}

theorem Grows.behind (hg : Grows s t) {a b : GroupId} (h : Behind s b a) : Behind t b a := by
  refine Relation.ReflTransGen.mono ?_ _ _ h
  intro b a ha
  unfold predsOf at ha ⊢
  cases hG : s.group b with
  | none => simp [hG] at ha
  | some G =>
    obtain ⟨G', hG', -, -, -, hsub⟩ := hg.group b G hG
    simpa [hG'] using hsub (by simpa [hG] using ha)

variable {b : Option GroupId}

theorem Clear.grow (hg : Grows s t) (hc : Clear C s h b) : Clear C t h b := by
  intro y m hy hm
  refine (hc y m hy hm).imp (hg.decided _) ?_
  rintro ⟨g, hb, hbehind⟩
  exact ⟨g, hb, hg.behind hbehind⟩

theorem Clear.of_parents (hp : ∀ p ∈ C.graph.parents h, Clear C s p b)
    (hself : ∀ m, C.marker h = some m → Decided s m.group ∨ ∃ g, b = some g ∧ Behind s g m.group) : Clear C s h b := by
  intro y m hy hm
  obtain rfl | ⟨p, hmem, hy⟩ := hy.eq_or_parent
  · exact hself m hm
  · exact hp p hmem y m hy hm

/-! ## The namespace logs -/

def Namespace.log (N : Namespace) : List Hash := N.disk ++ N.queue

/-- one namespace: its parts belong to groups that added them, its graph is in its log, and whatever its commits stand on
is decided or ahead of what they wait for -/
structure Logs (C : Commits) (s : Host) (n : Ns) (N : Namespace) : Prop where
  marked : ∀ h ∈ N.log, ∀ m, C.marker h = some m →
    ∃ G, s.group m.group = some G ∧ G.epoch = m.epoch ∧ n ∈ G.parts ∧ n ∈ G.added
  parents_first : DepOrdered C.graph.parents N.log
  graph_sub : ∀ h ∈ N.graph, h ∈ N.log
  graph_clear : ∀ h ∈ N.graph, Clear C s h N.barrier
  part_clear : ∀ h ∈ N.log, ∀ m, C.marker h = some m → Clear C s h (some m.group)
  waiting_clear : ∀ w ∈ N.waiting, w.1 ∈ N.log ∧ Clear C s w.1 w.2
  acked_clear : ∀ h ∈ N.acked, h ∈ N.disk ∧ Clear C s h none

variable {N : Namespace} {log : List Hash} {gate : GroupGate}

theorem Logs.grow (hN : Logs C s n N) (hg : Grows s t) : Logs C t n N where
  marked h hh m hm := by
    obtain ⟨G, hG, he, hp, ha⟩ := hN.marked h hh m hm
    obtain ⟨G', hG', he', hp', ha', -⟩ := hg.group _ G hG
    exact ⟨G', hG', he'.trans he, hp' ▸ hp, ha' ha⟩
  parents_first := hN.parents_first
  graph_sub := hN.graph_sub
  graph_clear h hh := (hN.graph_clear h hh).grow hg
  part_clear h hh m hm := (hN.part_clear h hh m hm).grow hg
  waiting_clear w hw := ⟨(hN.waiting_clear w hw).1, (hN.waiting_clear w hw).2.grow hg⟩
  acked_clear h hh := ⟨(hN.acked_clear h hh).1, (hN.acked_clear h hh).2.grow hg⟩

theorem mem_of_below (hl : DepOrdered C.graph.parents log) {y : Hash} (hy : C.graph.Below y h) (hh : h ∈ log) : y ∈ log := by
  induction hy with
  | refl => exact hh
  | step hp _ ih => exact ih (hl.dep_mem hh hp)

/-! ## Replay -/

/-- the epoch's file has the group's record, or there is none: the epoch is sealed -/
def Recorded (s : Host) (m : Marker) : Prop := ∀ f, s.files[m.epoch]? = some f → m.group ∈ f.records

/-- the commit stands on decided parts only -/
def Stands (C : Commits) (s : Host) (h : Hash) : Prop :=
  ∀ y m, C.graph.Below y h → C.marker y = some m → Recorded s m

theorem stands_iff : Stands C s h ↔
    (∀ p ∈ C.graph.parents h, Stands C s p) ∧ ∀ m, C.marker h = some m → Recorded s m := by
  constructor
  · intro hs
    exact ⟨fun p hp y m hy => hs y m (.step hp hy), fun m => hs h m .refl⟩
  · rintro ⟨hp, hself⟩ y m hy hm
    obtain rfl | ⟨p, hmem, hy⟩ := hy.eq_or_parent
    · exact hself m hm
    · exact hp p hmem y m hy hm

/-- with no epoch open a part is committed exactly when it is recorded -/
theorem resolvePart_closed (hlog : s.coord.log = none) (m : Marker) :
    (Recorded s m ∧ resolvePart s m = .committed) ∨ (¬ Recorded s m ∧ resolvePart s m = .aborted) := by
  unfold resolvePart Recorded
  cases hf : s.files[m.epoch]? with
  | none => simp [hlog]
  | some f => by_cases hm : m.group ∈ f.records <;> simp [hlog, hm]

/-- what the gate holds after a log: the commits on decided parts are kept, the rest dropped -/
structure Sorted (C : Commits) (s : Host) (log : List Hash) (gate : GroupGate) : Prop where
  kept : ∀ x, x ∈ gate.kept ↔ x ∈ log ∧ Stands C s x
  dropped : ∀ x, x ∈ gate.dropped ↔ x ∈ log ∧ ¬ Stands C s x
  held : gate.held = []

section

variable (hg : Sorted C s log gate)
include hg

theorem Sorted.verdict (hp : ∀ p ∈ C.graph.parents h, p ∈ log) :
    ((∀ p ∈ C.graph.parents h, Stands C s p) ∧ parentsVerdict gate (C.graph.parents h) = none) ∨
      ((∃ p ∈ C.graph.parents h, ¬ Stands C s p) ∧ parentsVerdict gate (C.graph.parents h) = some .aborted) := by
  unfold parentsVerdict
  simp only [hg.held, not_mem_nil, if_false]
  by_cases hall : ∀ p ∈ C.graph.parents h, Stands C s p
  · refine .inl ⟨hall, List.findSome?_eq_none_iff.2 ?_⟩
    intro p hmem
    exact if_neg fun hd => ((hg.dropped p).1 hd).2 (hall p hmem)
  · push Not at hall
    obtain ⟨p, hmem, hns⟩ := hall
    refine .inr ⟨⟨p, hmem, hns⟩, ?_⟩
    cases hv : (C.graph.parents h).findSome? fun p => if p ∈ gate.dropped then some PartDecision.aborted else none with
    | none =>
      have := List.findSome?_eq_none_iff.1 hv p hmem
      simp [(hg.dropped p).2 ⟨hp p hmem, hns⟩] at this
    | some v =>
      obtain ⟨q, -, hq⟩ := exists_of_findSome?_eq_some hv
      split_ifs at hq
      exact hq.symm

theorem Sorted.keep (hs : Stands C s h) : Sorted C s (log ++ [h]) { gate with kept := gate.kept ++ [h] } := by
  refine ⟨fun x => ?_, fun x => ?_, hg.held⟩
  · by_cases hx : x = h
    · simp [hx, hs]
    · simp [hx, hg.kept]
  · by_cases hx : x = h
    · simp [hx, hs, hg.dropped]
    · simp [hx, hg.dropped]

theorem Sorted.drop (hns : ¬ Stands C s h) : Sorted C s (log ++ [h]) { gate with dropped := gate.dropped ++ [h] } := by
  refine ⟨fun x => ?_, fun x => ?_, hg.held⟩
  · by_cases hx : x = h
    · simp [hx, hns, hg.kept]
    · simp [hx, hg.kept]
  · by_cases hx : x = h
    · simp [hx, hns]
    · simp [hx, hg.dropped]

theorem Sorted.again (hh : h ∈ gate.kept) : Sorted C s (log ++ [h]) gate := by
  have hlog : h ∈ log := ((hg.kept h).1 hh).1
  have hmem : ∀ x, x ∈ log ++ [h] ↔ x ∈ log := by
    intro x
    simp only [mem_append, mem_singleton, or_iff_left_iff_imp]
    rintro rfl
    exact hlog
  exact ⟨fun x => by rw [hg.kept, hmem], fun x => by rw [hg.dropped, hmem], hg.held⟩

end

theorem Sorted.step (hlog : s.coord.log = none) (hg : Sorted C s log gate) (hp : ∀ p ∈ C.graph.parents h, p ∈ log) :
    Sorted C s (log ++ [h]) (gate.replay C s h) := by
  unfold GroupGate.replay
  by_cases hk : h ∈ gate.kept
  · rw [if_pos hk]
    exact hg.again hk
  · rw [if_neg hk]
    obtain ⟨hparents, hv⟩ | ⟨⟨p, hmem, hns⟩, hv⟩ := hg.verdict hp
    · rw [hv]
      cases hm : C.marker h with
      | none => exact hg.keep (stands_iff.2 ⟨hparents, by simp [hm]⟩)
      | some m =>
        obtain ⟨hrec, hres⟩ | ⟨hrec, hres⟩ := resolvePart_closed hlog m
        · simp only [map_some, hres]
          refine hg.keep (stands_iff.2 ⟨hparents, ?_⟩)
          intro m' hm'
          rwa [← Option.some.inj (hm.symm.trans hm')]
        · simp only [map_some, hres]
          exact hg.drop fun hs => hrec ((stands_iff.1 hs).2 m hm)
    · rw [hv]
      exact hg.drop fun hs => hns ((stands_iff.1 hs).1 p hmem)

/-- **Replay.** Of a log in dependency order, replay keeps exactly the commits that stand on decided parts. -/
theorem mem_replayNamespace (hlog : s.coord.log = none) {disk : List Hash} (hd : DepOrdered C.graph.parents disk)
    (x : Hash) : x ∈ replayNamespace C s disk ↔ x ∈ disk ∧ Stands C s x := by
  have key : Sorted C s disk (disk.foldl (GroupGate.replay C s) ⟨[], [], []⟩) := by
    induction disk using List.reverseRecOn with
    | nil => exact ⟨by simp, by simp, rfl⟩
    | append_singleton l h ih =>
      rw [foldl_append]
      exact (ih hd.of_append).step hlog (hd l h [] rfl)
  exact key.kept x

theorem Logs.clear_of_stands (hN : Logs C s n N) {x : Hash} (hx : x ∈ N.log) (hs : Stands C s x) :
    Clear C s x none := by
  intro y m hy hm
  obtain ⟨G, hG, he, -⟩ := hN.marked y (mem_of_below hN.parents_first hy hx) m hm
  exact .inl ⟨G, hG, he.symm ▸ hs y m hy hm⟩

theorem Logs.stands_of_clear (hN : Logs C s n N) {x : Hash} (hx : x ∈ N.log) (hc : Clear C s x none) :
    Stands C s x := by
  intro y m hy hm
  obtain ⟨G, hG, he, -⟩ := hN.marked y (mem_of_below hN.parents_first hy hx) m hm
  obtain ⟨G', hG', hd⟩ | ⟨g, hg, -⟩ := hc y m hy hm
  · cases hG.symm.trans hG'
    intro f hf
    exact hd f (by rw [he, hf])
  · cases hg

end Kdb.GroupCommit
