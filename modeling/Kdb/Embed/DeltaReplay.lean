/-
Replay in any order (`embed/delta_replay.go`: `replayDeltaNamespaceFrom`, `applyIfParentsReady`, `applyCommitsTopologically`,
`groupGate.skip`).

A record is applied as soon as its parents are there. One that comes before a parent is deferred, and placed in rounds once
the log is read. The gate leaves out a part whose group did not commit and what stands on it; it is asked again in every
round, since a parent may have been left out meanwhile.

- `replay_exact`: replay succeeds exactly when no record to be applied lacks a parent, and then keeps the records that stand
  on no part left out. Both depend only on what the log holds, not on its order or on repetitions.
- `recovered_in_any_order`: so recovery finds the same graph in whatever order a namespace's log is read;
  `recovered_closed`: it holds everything its commits stand on.

What an applied commit does to main, the live tree and the recovery report is left out, as are the tails of segments.
-/
import Kdb.Embed.GroupAtomicity

namespace Kdb.GroupCommit

open List Machine

section Model

variable (C : Commits) (s : Host) (shallow : List Hash) (gate : GroupGate) (st : GroupGate × List Hash) (h : Hash)

/-- `groupGate.skip`: the commit filed, if it is to be left out -/
def GroupGate.skip : Option GroupGate :=
  if h ∈ gate.kept then none
  else match (parentsVerdict gate (C.graph.parents h)).or ((C.marker h).map (resolvePart s)) with
    | some .aborted => some { gate with dropped := gate.dropped ++ [h] }
    | some .held => some { gate with held := gate.held ++ [h] }
    | _ => none

def GroupGate.ready : Bool := (C.graph.parents h).all (· ∈ gate.kept)

/-- `PutCommit`, `PutShallowCommit` -/
def GroupGate.put : GroupGate := if h ∈ gate.kept then gate else { gate with kept := gate.kept ++ [h] }

/-- one record: skipped, applied by `applyIfParentsReady`, or deferred -/
def readRecord : GroupGate × List Hash :=
  match st.1.skip C s h with
  | some gate => (gate, st.2)
  | none =>
    if h ∈ st.1.kept then st
    else if st.1.ready C h then (st.1.put h, st.2)
    else (st.1, st.2 ++ [h])

/-- one pending commit: skipped, applied, admitted as a shallow root, or left for the next round -/
def placeCommit : GroupGate × List Hash :=
  match st.1.skip C s h with
  | some gate => (gate, st.2)
  | none => if st.1.ready C h || h ∈ shallow then (st.1.put h, st.2) else (st.1, st.2 ++ [h])

/-- the rounds; `missingParentsError` with its count and first commit when a round places nothing -/
def applyCommitsTopologically : (fuel : ℕ) → GroupGate → (pending : List Hash) → Except (ℕ × Hash) GroupGate
  | _, gate, [] => .ok gate
  | 0, _, h :: pending => .error (pending.length + 1, h)
  | fuel + 1, gate, h :: pending =>
    let round := (h :: pending).foldl (placeCommit C s shallow) (gate, [])
    if round.2.length < pending.length + 1 then applyCommitsTopologically fuel round.1 round.2
    else .error (round.2.length, round.2.headD h)

/-- over the commits a checkpoint gave, or none: the log is read, then what is deferred is placed -/
def replayDeltaNamespaceFrom (base log : List Hash) : Except (ℕ × Hash) GroupGate :=
  let read := log.foldl (readRecord C s) (⟨base, [], []⟩, [])
  let pending := read.2.filter (· ∉ read.1.kept)
  applyCommitsTopologically C s shallow pending.length read.1 pending

/-- a record of a part that did not commit, or above one -/
inductive LeftOut (base log : List Hash) : Hash → Prop
  | part {x : Hash} {m : Marker} : x ∈ log → x ∉ base → C.marker x = some m → resolvePart s m ≠ .committed →
    LeftOut base log x
  | above {x p : Hash} : x ∈ log → x ∉ base → p ∈ C.graph.parents x → LeftOut base log p → LeftOut base log x

/-- every record to be applied has its parents, or is a known root -/
def Whole (base log : List Hash) : Prop :=
  ∀ x ∈ log, x ∉ base → x ∉ shallow → ¬ LeftOut C s base log x → ∀ p ∈ C.graph.parents x, p ∈ base ∨ p ∈ log

end Model

variable {C : Commits} {s : Host} {shallow base log todo l : List Hash} {gate : GroupGate} {h x : Hash}

theorem leftOut_iff : LeftOut C s base log x ↔ x ∈ log ∧ x ∉ base ∧
    ((∃ m, C.marker x = some m ∧ resolvePart s m ≠ .committed) ∨ ∃ p ∈ C.graph.parents x, LeftOut C s base log p) := by
  constructor
  · rintro (⟨h₁, h₂, hm, hr⟩ | ⟨h₁, h₂, hp, hl⟩)
    · exact ⟨h₁, h₂, .inl ⟨_, hm, hr⟩⟩
    · exact ⟨h₁, h₂, .inr ⟨_, hp, hl⟩⟩
  · rintro ⟨h₁, h₂, ⟨m, hm, hr⟩ | ⟨p, hp, hl⟩⟩
    · exact .part h₁ h₂ hm hr
    · exact .above h₁ h₂ hp hl

/-! ## What the gate says -/

def GroupGate.Out (gate : GroupGate) (x : Hash) : Prop := x ∈ gate.dropped ∨ x ∈ gate.held

/-- neither a parent nor its own group keeps the commit out -/
def GroupGate.Free (C : Commits) (s : Host) (gate : GroupGate) (h : Hash) : Prop :=
  (∀ p ∈ C.graph.parents h, ¬ gate.Out p) ∧ ∀ m, C.marker h = some m → resolvePart s m = .committed

/-- a commit that is not there is skipped when it is not free, and filed -/
theorem skip_cases (C : Commits) (s : Host) (gate : GroupGate) (h : Hash) :
    gate.skip C s h = none ∧ (h ∈ gate.kept ∨ gate.Free C s h) ∨
    ∃ g, gate.skip C s h = some g ∧ g.kept = gate.kept ∧ (∀ x, g.Out x ↔ gate.Out x ∨ x = h) ∧ h ∉ gate.kept ∧
      ¬ gate.Free C s h := by
  have hnone : parentsVerdict gate (C.graph.parents h) = none ↔ ∀ p ∈ C.graph.parents h, ¬ gate.Out p := by
    simp only [parentsVerdict, findSome?_eq_none_iff, GroupGate.Out]
    refine forall₂_congr fun p _ => ?_
    split_ifs <;> simp_all
  unfold GroupGate.skip GroupGate.Free
  by_cases hk : h ∈ gate.kept
  · simp [hk]
  rw [← hnone]
  cases hv : parentsVerdict gate (C.graph.parents h) with
  | none => cases hm : C.marker h with
    | none => simp [hk]
    | some m => cases hr : resolvePart s m <;> simp [hk, hr, GroupGate.Out] <;> tauto
  | some v => cases v with
    | committed =>
      obtain ⟨p, -, hp⟩ := exists_of_findSome?_eq_some hv
      split_ifs at hp <;> cases hp
    | aborted | held => simp [hk, GroupGate.Out]; tauto

/-! ## Steps -/

variable (C s shallow base log) in
/-- what is kept and filed is right, and the rest of the log is still to do -/
structure Placed (gate : GroupGate) (todo : List Hash) : Prop where
  base_kept : ∀ x ∈ base, x ∈ gate.kept
  kept : ∀ x ∈ gate.kept, x ∈ base ∨
    x ∈ log ∧ ¬ LeftOut C s base log x ∧ (x ∈ shallow ∨ ∀ p ∈ C.graph.parents x, p ∈ gate.kept)
  out : ∀ x, gate.Out x → LeftOut C s base log x
  todo_sub : ∀ x ∈ todo, x ∈ log
  cover : ∀ x ∈ log, x ∈ gate.kept ∨ gate.Out x ∨ x ∈ todo

variable (C s shallow gate l h) in
/-- what a step makes of a commit: it files it, keeps it or leaves it to do -/
inductive Handled : GroupGate × List Hash → Prop
  | filed {g : GroupGate} : gate.skip C s h = some g → Handled (g, l)
  | kept : gate.skip C s h = none → h ∈ gate.kept ∨ gate.ready C h ∨ h ∈ shallow → Handled (gate.put h, l)
  | left : Handled (gate, l ++ [h])

theorem readRecord_handled : Handled C s shallow l gate h (readRecord C s (gate, l) h) := by
  unfold readRecord
  cases hskip : gate.skip C s h with
  | some g => exact .filed hskip
  | none =>
    dsimp only
    split_ifs with hk hr
    · simpa [GroupGate.put, hk] using Handled.kept hskip (.inl hk)
    · exact .kept hskip (.inr (.inl hr))
    · exact .left

theorem placeCommit_handled : Handled C s shallow l gate h (placeCommit C s shallow (gate, l) h) := by
  unfold placeCommit
  cases hskip : gate.skip C s h with
  | some g => exact .filed hskip
  | none =>
    dsimp only
    split_ifs with hgo
    · exact .kept hskip (.inr (by simpa using hgo))
    · exact .left

section

-- a root admitted without its parents has none in the log, which could be a part left out only later
variable (hshallow : ∀ x ∈ shallow, ∀ p ∈ C.graph.parents x, p ∉ log)
include hshallow

/-- **Step.** What is kept and filed stays right. -/
theorem Placed.step (hI : Placed C s shallow base log gate (l ++ h :: todo)) {r : GroupGate × List Hash}
    (hr : Handled C s shallow l gate h r) : Placed C s shallow base log r.1 (r.2 ++ todo) := by
  obtain ⟨hb, hk, ho, ht, hc⟩ := hI
  cases hr with
  | @filed g hg =>
    obtain ⟨hnone, -⟩ | ⟨_, hg', hkept, hout, hnot, hfree⟩ := skip_cases C s gate h
    · simp [hnone] at hg
    obtain rfl := Option.some.inj (hg.symm.trans hg')
    have hleft : LeftOut C s base log h := by grind [GroupGate.Free, leftOut_iff]
    constructor <;> grind
  | kept hnone hgo =>
    obtain ⟨-, hfree⟩ | ⟨g, hg, -⟩ := skip_cases C s gate h
    · have hnot : ¬ LeftOut C s base log h := by grind [GroupGate.Free, GroupGate.ready, leftOut_iff]
      by_cases hin : h ∈ gate.kept
      · constructor <;> grind [GroupGate.put]
      · constructor <;> grind [GroupGate.put, GroupGate.ready, GroupGate.Out]
    · simp [hnone] at hg
  | left => exact ⟨hb, hk, ho, by simpa using ht, by simpa using hc⟩

theorem Placed.foldl {f : GroupGate × List Hash → Hash → GroupGate × List Hash}
    (hf : ∀ gate l h, Handled C s shallow l gate h (f (gate, l) h)) (hI : Placed C s shallow base log gate (l ++ todo)) :
    Placed C s shallow base log (todo.foldl f (gate, l)).1 (todo.foldl f (gate, l)).2 := by
  induction todo generalizing gate l with
  | nil => simpa using hI
  | cons h todo ih => exact ih (hI.step hshallow (hf gate l h))

omit hshallow in
/-- what a round leaves was pending; a round that leaves all of it found nothing to place -/
theorem round_spec (C : Commits) (s : Host) (shallow : List Hash) (gate : GroupGate) (l pending : List Hash) :
    let round := pending.foldl (placeCommit C s shallow) (gate, l)
    (∀ x ∈ round.2, x ∈ l ∨ x ∈ pending) ∧ round.2.length ≤ l.length + pending.length ∧
      (round.2.length = l.length + pending.length →
        ∀ x ∈ pending, gate.skip C s x = none ∧ ¬ gate.ready C x ∧ x ∉ shallow) := by
  induction pending generalizing gate l with
  | nil => simp
  | cons h pending ih =>
    have hstep : (placeCommit C s shallow (gate, l) h = (gate, l ++ [h]) ∧ gate.skip C s h = none ∧ ¬ gate.ready C h ∧
        h ∉ shallow) ∨ ∃ g, placeCommit C s shallow (gate, l) h = (g, l) := by
      unfold placeCommit
      cases gate.skip C s h with
      | some g => exact .inr ⟨g, rfl⟩
      | none =>
        dsimp only
        split_ifs with hgo
        · exact .inr ⟨_, rfl⟩
        · exact .inl ⟨rfl, rfl, by simpa using hgo⟩
    rw [foldl_cons]
    obtain ⟨heq, hh⟩ | ⟨g, heq⟩ := hstep
    · rw [heq]
      have := ih gate (l ++ [h])
      grind
    · rw [heq]
      have := ih g l
      grind

omit hshallow in
/-- while something is pending, the lowest of it can be placed -/
theorem Placed.placeable (hI : Placed C s shallow base log gate todo) (hw : Whole C s shallow base log) (hne : todo ≠ [])
    (hbase : ∀ x ∈ todo, x ∉ base) : ∃ x ∈ todo, gate.skip C s x = none → gate.ready C x ∨ x ∈ shallow := by
  obtain ⟨x, hx, hmin⟩ := todo.toFinset.exists_min_image C.graph.rank (by simpa using hne)
  simp only [mem_toFinset] at hx hmin
  have hrank : ∀ p ∈ C.graph.parents x, p ∉ todo := fun p hp hpt => absurd (hmin p hpt) (not_le.2 (C.graph.rank_lt x p hp))
  obtain ⟨hb, hk, ho, ht, hc⟩ := hI
  refine ⟨x, hx, fun hnone => ?_⟩
  obtain ⟨-, hfree⟩ | ⟨g, hg, -⟩ := skip_cases C s gate x
  · by_contra hno
    have hleft : ¬ LeftOut C s base log x := by grind [GroupGate.Free, leftOut_iff]
    have := hw x (ht x hx) (hbase x hx) (by tauto) hleft
    grind [GroupGate.ready, leftOut_iff]
  · simp [hnone] at hg

theorem applyCommitsTopologically_spec (fuel : ℕ) (hI : Placed C s shallow base log gate todo)
    (hbase : ∀ x ∈ todo, x ∉ base) (hfuel : todo.length ≤ fuel) :
    (∃ g, applyCommitsTopologically C s shallow fuel gate todo = .ok g ∧ Placed C s shallow base log g []) ∨
      ∃ e, applyCommitsTopologically C s shallow fuel gate todo = .error e ∧ ¬ Whole C s shallow base log := by
  induction fuel generalizing gate todo with
  | zero =>
    obtain rfl : todo = [] := length_eq_zero_iff.1 (by omega)
    exact .inl ⟨gate, rfl, hI⟩
  | succ fuel ih =>
    cases todo with
    | nil => exact .inl ⟨gate, rfl, hI⟩
    | cons h pending =>
      obtain ⟨hsub, hle, hstuck⟩ := round_spec C s shallow gate [] (h :: pending)
      have hround := Placed.foldl hshallow (fun _ _ _ => placeCommit_handled) (l := []) hI
      rw [applyCommitsTopologically]
      split_ifs with hlt
      · refine ih hround (fun x hx => hbase x (by simpa using hsub x hx)) ?_
        simp only [length_cons] at hfuel
        omega
      · refine .inr ⟨_, rfl, fun hw => ?_⟩
        obtain ⟨x, hx, hgo⟩ := hI.placeable hw (by simp) hbase
        obtain ⟨hnone, hready, hs⟩ := hstuck (by simp at hle hlt ⊢; omega) x hx
        exact (hgo hnone).elim hready hs

theorem replay_placed (base : List Hash) :
    (∃ g, replayDeltaNamespaceFrom C s shallow base log = .ok g ∧ Placed C s shallow base log g []) ∨
      ∃ e, replayDeltaNamespaceFrom C s shallow base log = .error e ∧ ¬ Whole C s shallow base log := by
  have hstart : Placed C s shallow base log ⟨base, [], []⟩ ([] ++ log) := by
    constructor <;> grind [GroupGate.Out]
  obtain ⟨hb, hk, ho, ht, hc⟩ := hstart.foldl hshallow fun _ _ _ => readRecord_handled
  unfold replayDeltaNamespaceFrom
  set read := log.foldl (readRecord C s) (⟨base, [], []⟩, [])
  have hread : Placed C s shallow base log read.1 (read.2.filter (· ∉ read.1.kept)) := by
    constructor <;> grind
  exact applyCommitsTopologically_spec hshallow _ hread (by grind) le_rfl

end

theorem Placed.mem_kept (hI : Placed C s shallow base log gate []) :
    x ∈ gate.kept ↔ x ∈ base ∨ x ∈ log ∧ ¬ LeftOut C s base log x := by
  obtain ⟨hb, hk, ho, -, hc⟩ := hI
  grind

/-- **Replay in any order.** It succeeds exactly when every record to be applied has its parents or is a known root; the
commits there are then those that were there and the records that are not left out. -/
theorem replay_exact (C : Commits) (s : Host) (base shallow log : List Hash)
    (hshallow : ∀ x ∈ shallow, ∀ p ∈ C.graph.parents x, p ∉ log) :
    (∃ gate, replayDeltaNamespaceFrom C s shallow base log = .ok gate ∧ Whole C s shallow base log ∧
      ∀ x, x ∈ gate.kept ↔ x ∈ base ∨ x ∈ log ∧ ¬ LeftOut C s base log x) ∨
    ∃ e, replayDeltaNamespaceFrom C s shallow base log = .error e ∧ ¬ Whole C s shallow base log := by
  refine (replay_placed hshallow base).imp_left ?_
  rintro ⟨g, hg, hI⟩
  refine ⟨g, hg, fun x hx hxb hxs hl p hp => ?_, fun x => hI.mem_kept⟩
  have hp := ((hI.kept x (hI.mem_kept.2 (.inr ⟨hx, hl⟩))).resolve_left hxb).2.2.resolve_left hxs p hp
  exact (hI.mem_kept.1 hp).imp_right And.left

/-- a commit read before the part it stands on -/
theorem replay_exact_childFirst : Whole sampleCommits .init [] [] [12, 10] := by
  obtain ⟨-, -, hw, -⟩ | ⟨e, he, -⟩ := replay_exact sampleCommits .init [] [] [12, 10] (by simp)
  · exact hw
  · have hok : (replayDeltaNamespaceFrom sampleCommits .init [] [] [12, 10]).isOk = true := by decide +kernel
    rw [he] at hok
    cases hok

/-! ## Recovery -/

/-- in a log that holds its parents, the commits on decided parts are those not left out -/
theorem stands_iff_not_leftOut (hcoord : s.coord.log = none) (hclosed : ∀ x ∈ log, ∀ p ∈ C.graph.parents x, p ∈ log)
    (hx : x ∈ log) : Stands C s x ↔ ¬ LeftOut C s [] log x := by
  induction hr : C.graph.rank x using Nat.strong_induction_on generalizing x with
  | _ r ih =>
    have hp : ∀ p ∈ C.graph.parents x, (Stands C s p ↔ ¬ LeftOut C s [] log p) :=
      fun p hp => ih _ (hr ▸ C.graph.rank_lt x p hp) (hclosed x hx p hp) rfl
    have hm : ∀ m, Recorded s m ↔ resolvePart s m = .committed := by
      intro m
      obtain ⟨h₁, h₂⟩ | ⟨h₁, h₂⟩ := resolvePart_closed hcoord m <;> simp [h₁, h₂]
    rw [stands_iff, leftOut_iff]
    grind

/-- **Recovery in any order.** Whenever a host that is down is recovered, replaying a namespace's log in any order, with any
records repeated, gives the graph that replay in the log's own order gives. -/
theorem recovered_in_any_order (C : Commits) (steps : List Step) (hdown : (run (step C) Host.init steps).up = false) (n : Ns)
    (log : List Hash) (hlog : ∀ x, x ∈ log ↔ x ∈ ((run (step C) Host.init steps).ns n).disk) :
    ∃ gate, replayDeltaNamespaceFrom C (recover C (run (step C) Host.init steps)) [] [] log = .ok gate ∧
      ∀ x, x ∈ gate.kept ↔ x ∈ ((recover C (run (step C) Host.init steps)).ns n).graph := by
  have hI : Inv C (run (step C) Host.init steps) := run_of_step_all Inv.step steps (Inv.init C)
  have hclosed : ∀ x ∈ log, ∀ p ∈ C.graph.parents x, p ∈ log := fun x hx p hp =>
    (hlog p).2 ((hI.logs n).parents_first.of_append.dep_mem ((hlog x).1 hx) hp)
  obtain ⟨g, hg, hP⟩ | ⟨e, -, hw⟩ := @replay_placed C (recover C (run (step C) Host.init steps)) [] log (by simp) []
  · refine ⟨g, hg, fun x => ?_⟩
    have hdisk : ((recover C (run (step C) Host.init steps)).ns n).disk = ((run (step C) Host.init steps).ns n).disk := by
      simp [recover, hdown]
    rw [hP.mem_kept, mem_graph_recover hI hdown, hdisk, ← hlog]
    simp only [not_mem_nil, false_or]
    refine and_congr_right fun hx => (stands_iff_not_leftOut ?_ hclosed hx).symm
    simp [recover, hdown, TxnCoordinator.opened]
  · exact absurd (fun x hx _ _ _ p hp => .inr (hclosed x hx p hp)) hw

theorem recovered_in_any_order_sampleRun :
    ∃ gate, replayDeltaNamespaceFrom sampleCommits (recover sampleCommits (run (step sampleCommits) Host.init sampleRun)) [] []
        [12, 10] = .ok gate ∧
      ∀ x, x ∈ gate.kept ↔ x ∈ ((recover sampleCommits (run (step sampleCommits) Host.init sampleRun)).ns 0).graph := by
  have hdisk : ((run (step sampleCommits) Host.init sampleRun).ns 0).disk = [10, 12] := by decide +kernel
  exact recovered_in_any_order sampleCommits sampleRun (by decide +kernel) 0 [12, 10] (by simp [hdisk, or_comm])

/-- **No dangling parent.** A recovered graph holds everything its commits stand on: a part rolled back takes with it what
stands on it. -/
theorem recovered_closed (C : Commits) (steps : List Step) (hdown : (run (step C) Host.init steps).up = false) (n : Ns)
    {x y : Hash} (hx : x ∈ ((recover C (run (step C) Host.init steps)).ns n).graph) (hy : C.graph.Below y x) :
    y ∈ ((recover C (run (step C) Host.init steps)).ns n).graph := by
  have hI : Inv C (run (step C) Host.init steps) := run_of_step_all Inv.step steps (Inv.init C)
  obtain ⟨hdisk, hs⟩ := (mem_graph_recover hI hdown x).1 hx
  refine (mem_graph_recover hI hdown y).2 ⟨?_, fun z m hz => hs z m (hz.trans hy)⟩
  exact mem_of_below (hI.recover.logs n).parents_first.of_append hy hdisk

theorem recovered_closed_sampleRun :
    10 ∈ ((recover sampleCommits (run (step sampleCommits) Host.init sampleRun)).ns 0).graph :=
  recovered_closed sampleCommits sampleRun (by decide +kernel) 0 (x := 12) (by decide +kernel)
    (.step (p := 10) (by decide) .refl)

end Kdb.GroupCommit
