/-
Epoch numbers when the `EPOCH` file is lost between two runs (`embed/txn_coordinator.go`: `startEpochLocked`).

The next epoch is one past the recorded one and past every epoch that has a decision file. A sealed epoch has none, so the
number survives only in `EPOCH`.
- `part_epochs_never_reused`: epochs only grow as long as every loss leaves a decision file of the last one.
- `sealed_epoch_reused`: a loss after a clean shutdown starts the same epoch again.

A host that lost its file is compared with the one that kept it (`Lags`): they differ in nothing but the file, and they
choose the same next epoch.
-/
import Kdb.Embed.GroupAtomicity

namespace Kdb.GroupCommit

open Machine

/-- what can happen to a data root: the steps of its host, and the loss of `EPOCH` while none runs -/
inductive Event where
  | host (o : Step)
  | loseEpoch

def Event.step (C : Commits) (s : Host) : Event → Host
  | .host o => GroupCommit.step C s o
  | .loseEpoch => if s.up then s else { s with epochFile := 0 }

/-- a loss leaves a decision file of the recorded epoch or a later one, unless no epoch was recorded -/
def Survives (s : Host) : Event → Prop
  | .host _ => True
  | .loseEpoch => s.up = true ∨ s.epochFile = 0 ∨ ∃ e ∈ s.files.keys, s.epochFile ≤ e

instance (s : Host) (o : Event) : Decidable (Survives s o) := by
  cases o <;> unfold Survives <;> infer_instance

/-- the host, had its epoch file said `e` -/
def Host.recorded (s : Host) (e : Epoch) : Host := { s with epochFile := e }

/-- `e` is what the epoch file would say without the losses: it does, or no epoch has started since the loss and a
decision file still gives `e` away -/
inductive Lags (s : Host) (e : Epoch) : Prop where
  | kept (he : e = s.epochFile)
  | lost (hlog : s.coord.log = none) (he : s.epochFile ≤ e) (hfile : ∃ k ∈ s.files, e ≤ k)

variable {C : Commits} {s t t' : Host} {e e' b : Epoch} {o : Step} {g : GroupId} {n : Ns} {h : Hash}

theorem nextEpoch_recorded (h : Lags s e) : nextEpoch (s.recorded e) = nextEpoch s := by
  cases h with
  | kept he => rw [he]; rfl
  | lost _ he hfile =>
    obtain ⟨k, hk, hek⟩ := hfile
    have hbest : ∀ n ≤ k, s.files.keys.foldl max n = s.files.keys.foldl max 0 := by
      intro n hn
      have hk : k ≤ s.files.keys.foldl max 0 := le_foldl_max (.inr (Std.ExtTreeMap.mem_keys.2 hk))
      calc s.files.keys.foldl max n = s.files.keys.foldl max (max n 0) := by rw [Nat.max_zero]
        _ = max n (s.files.keys.foldl max 0) := List.foldl_assoc
        _ = s.files.keys.foldl max 0 := max_eq_right (hn.trans hk)
    simp only [nextEpoch, Host.recorded]
    rw [hbest e hek, hbest s.epochFile (he.trans hek)]

/-! ## Steps that start no epoch -/

/-- `s` becomes `t`, and `t'` with `e` in the epoch file; its epoch stays or ends, and with no decision log open its
decision files stay -/
structure Frame (e : Epoch) (s t t' : Host) : Prop where
  file : t' = t.recorded e
  epoch : t.coord.epoch = s.coord.epoch ∨ t.coord.epoch = 0
  log : s.coord.log = none → t.coord.log = none
  files : s.coord.log = none → ∀ k, k ∈ t.files ↔ k ∈ s.files

theorem Frame.same : Frame e s s (s.recorded e) := ⟨rfl, .inl rfl, id, fun _ _ => .rfl⟩

/-- nothing but the namespaces and the groups changes -/
theorem Frame.of_eq (hfile : t' = t.recorded e) (hcoord : t.coord = s.coord) (hfiles : t.files = s.files) : Frame e s t t' :=
  ⟨hfile, .inl (by rw [hcoord]), fun h => by rw [hcoord, h], fun _ _ => by rw [hfiles]⟩

/-- a decision log is open -/
theorem Frame.of_open (hfile : t' = t.recorded e) (hlog : s.coord.log ≠ none) (hepoch : t.coord.epoch = s.coord.epoch) :
    Frame e s t t' := ⟨hfile, .inl hepoch, (absurd · hlog), (absurd · hlog)⟩

theorem Frame.ite {p p' : Prop} [Decidable p] [Decidable p'] {u u' : Host} (hp : p' ↔ p) (ht : p → Frame e s t t')
    (hu : Frame e s u u') : Frame e s (if p then t else u) (if p' then t' else u') := by
  by_cases h : p
  · rw [if_pos h, if_pos (hp.2 h)]
    exact ht h
  · rw [if_neg h, if_neg (h ∘ hp.1)]
    exact hu

theorem recorded_group : (s.recorded e).group = s.group := rfl

theorem recorded_coord : (s.recorded e).coord = s.coord := rfl

theorem recorded_up : (s.recorded e).up = s.up := rfl

theorem Frame.finished (hcoord : t.coord = s.coord) (hfiles : t.files = s.files) (committed published roll : Bool) :
    Frame e s (finished t g e' committed published roll) (finished (t.recorded e) g e' committed published roll) := by
  have hepoch : t.coord.epoch = s.coord.epoch := by rw [hcoord]
  have hlog : t.coord.log = s.coord.log := by rw [hcoord]
  refine .ite .rfl (fun hroll => .of_open rfl (fun hnone => ?_) hepoch) ⟨rfl, .inl hepoch, hlog.trans, fun _ k => ?_⟩
  · simp [leave, hlog, hnone] at hroll
  · exact hfiles ▸ .rfl

theorem frame_flushDecisions (k : ℕ) : Frame e s (flushDecisions s k) (flushDecisions (s.recorded e) k) := by
  simp only [flushDecisions, recorded_coord]
  split
  · rename_i q hq
    exact .of_open rfl (by simp [hq]) rfl
  · exact .same

/-- only `begin` and `writeEpoch` read the epoch file, and only `begin` opens a decision log -/
theorem frame_step (hb : ∀ g parts, o ≠ .begin g parts) (hw : o ≠ .writeEpoch) :
    Frame e s (step C s o) (step C (s.recorded e) o) := by
  cases o with
  | begin g parts => exact absurd rfl (hb g parts)
  | writeEpoch => exact absurd rfl hw
  | flush n k => exact .of_eq rfl rfl rfl
  | commit n h | ack n h b => exact .ite .rfl (fun _ => .of_eq rfl rfl rfl) .same
  | addPart g n h =>
    simp only [step, addPart, recorded_group]
    split
    · exact .same
    · exact .ite .rfl (fun _ => .of_eq rfl rfl rfl) .same
  | decide g =>
    simp only [step, GroupCommit.decide, recorded_group, recorded_coord]
    split
    · rename_i q _ hq
      exact .ite .rfl (fun _ => .of_open rfl (by simp [hq]) rfl) .same
    · exact .same
  | finish g roll | fail g roll =>
    simp only [step, finish, fail, recorded_group]
    split
    · exact .ite .rfl (fun _ => .finished (by rfl) (by rfl) ..) .same
    · exact .same
  | flushDecisions k => exact frame_flushDecisions k
  | close =>
    refine .ite .rfl (fun _ => ?_) .same
    simp only [recorded_coord]
    split
    · exact ⟨rfl, .inl rfl, id, fun _ _ => .rfl⟩
    · rename_i q hq
      have hopen : s.coord.log ≠ none := by simp [hq]
      exact .ite .rfl (fun _ => .of_open rfl hopen rfl) (.of_open rfl hopen rfl)
  | crash k kd =>
    have hflush : Frame e s _ _ := frame_flushDecisions kd
    simp only [step, crash, hflush.file]
    exact ⟨rfl, .inr rfl, fun _ => rfl, hflush.files⟩
  | markDead k => exact .ite .rfl (fun _ => .same) ⟨rfl, .inl rfl, id, fun _ _ => Std.ExtTreeMap.mem_modify⟩
  | recover => exact .ite .rfl (fun _ => .same) ⟨rfl, .inr rfl, fun _ => rfl, fun _ _ => Std.ExtTreeMap.mem_map⟩

/-! ## Runs -/

/-- the host that kept its file takes the step of `s` to `t`, which goes to `t'`; the file gives away no less than before,
and an epoch that started is above it -/
structure Follows (s : Host) (e : Epoch) (t t' : Host) : Prop where
  lags : ∃ e', t' = t.recorded e' ∧ Lags t e' ∧ e ≤ e'
  epoch : t.coord.epoch = s.coord.epoch ∨ t.coord.epoch = 0 ∨ e < t.coord.epoch

theorem Lags.begin (h : Lags s e) (parts : List Ns) : Follows s e (begin s g parts) (begin (s.recorded e) g parts) := by
  have hnext := nextEpoch_recorded h
  have hlt : e < nextEpoch s := hnext ▸ lt_nextEpoch (s.recorded e)
  unfold GroupCommit.begin
  by_cases hup : s.up && !s.coord.closed && (s.group g).isNone
  · have hup' : (s.recorded e).up && !(s.recorded e).coord.closed && ((s.recorded e).group g).isNone := hup
    rw [if_pos hup, if_pos hup', recorded_coord]
    by_cases hlog : s.coord.log.isNone
    · have hsame : startEpoch (s.recorded e) = startEpoch s := by
        simp only [startEpoch, hnext]
        rfl
      rw [if_pos hlog, if_pos hlog, hsame]
      exact ⟨⟨nextEpoch s, rfl, .kept rfl, hlt.le⟩, .inr (.inr hlt)⟩
    · rw [if_neg hlog, if_neg hlog]
      cases h with
      | kept he => exact ⟨⟨e, rfl, .kept he, le_rfl⟩, .inl rfl⟩
      | lost hnone => exact absurd (by rw [hnone]; rfl) hlog
  · have hup' : ¬ ((s.recorded e).up && !(s.recorded e).coord.closed && ((s.recorded e).group g).isNone) := hup
    rw [if_neg hup, if_neg hup']
    exact ⟨⟨e, rfl, h, le_rfl⟩, .inl rfl⟩

theorem Lags.step (h : Lags s e) (o : Step) : Follows s e (step C s o) (step C (s.recorded e) o) := by
  by_cases hb : ∃ g parts, o = .begin g parts
  · obtain ⟨g, parts, rfl⟩ := hb
    exact h.begin parts
  by_cases hw : o = .writeEpoch
  · subst hw
    have hnext := nextEpoch_recorded h
    have hlt : e < nextEpoch s := hnext ▸ lt_nextEpoch (s.recorded e)
    simp only [GroupCommit.step, recorded_coord, recorded_up, hnext]
    by_cases hup : s.up && s.coord.log.isNone
    · simp only [if_pos hup]
      exact ⟨⟨nextEpoch s, rfl, .kept rfl, hlt.le⟩, .inl rfl⟩
    · simp only [if_neg hup]
      exact ⟨⟨e, rfl, h, le_rfl⟩, .inl rfl⟩
  have hf : ∀ e, Frame e s (GroupCommit.step C s o) (GroupCommit.step C (s.recorded e) o) :=
    fun e => frame_step (fun g parts ho => hb ⟨g, parts, ho⟩) hw
  have hfile : (GroupCommit.step C s o).epochFile = s.epochFile := by
    have hsame := congrArg Host.epochFile (hf s.epochFile).file
    exact hsame
  refine ⟨⟨e, (hf e).file, ?_, le_rfl⟩, (hf e).epoch.imp_right .inl⟩
  cases h with
  | kept he => exact .kept (he.trans hfile.symm)
  | lost hlog he hk =>
    obtain ⟨k, hk, hle⟩ := hk
    exact .lost ((hf e).log hlog) (hfile.trans_le he) ⟨k, ((hf e).files hlog k).2 hk, hle⟩

/-- the host with its file kept obeys the ledger, its file is not below `b`, and no epoch up to `b` is open -/
def Ahead (C : Commits) (b : Epoch) (s : Host) : Prop :=
  ∃ e, Lags s e ∧ Inv C (s.recorded e) ∧ b ≤ e ∧ (s.coord.epoch = 0 ∨ b < s.coord.epoch)

theorem Ahead.step (o : Event) (ho : Survives s o) (h : Ahead C b s) : Ahead C b (o.step C s) := by
  obtain ⟨e, hl, hI, hb, hepoch⟩ := h
  cases o with
  | host o =>
    obtain ⟨⟨e', hfile, hl', he⟩, hnew⟩ := hl.step (C := C) o
    refine ⟨e', hl', hfile ▸ Inv.step _ o hI, hb.trans he, ?_⟩
    rcases hnew with hsame | hzero | hlt
    · exact hsame ▸ hepoch
    · exact .inl hzero
    · exact .inr (hb.trans_lt hlt)
  | loseEpoch =>
    simp only [Event.step]
    split_ifs with hdown
    · exact ⟨e, hl, hI, hb, hepoch⟩
    · have hcoord : s.coord = .opened := hI.ledger.down (Bool.not_eq_true _ ▸ hdown)
      refine ⟨e, ?_, hI, hb, hepoch⟩
      cases hl with
      | lost hlog _ hk => exact .lost hlog (Nat.zero_le e) hk
      | kept he =>
        rcases ho with hup | hzero | ⟨k, hk, hle⟩
        · exact absurd hup hdown
        · exact .kept (he.trans hzero)
        · exact .lost (by rw [hcoord]; rfl) (Nat.zero_le e) ⟨k, Std.ExtTreeMap.mem_keys.1 hk, he ▸ hle⟩

theorem marker_of_added (hI : Inv C (s.recorded e)) (hnew : h ∉ (s.ns n).queue)
    (hadd : h ∈ ((addPart C s g n h).ns n).queue) : C.marker h = some ⟨s.coord.epoch, g⟩ ∧ 0 < s.coord.epoch := by
  unfold addPart at hadd
  split at hadd
  · exact absurd hadd hnew
  · rename_i G hG
    split_ifs at hadd with hcond
    · simp only [Bool.and_eq_true, decide_eq_true_eq] at hcond
      obtain ⟨⟨⟨⟨⟨hr, -⟩, -⟩, -⟩, -⟩, hm⟩ := hcond
      have hepoch : G.epoch = s.coord.epoch := (hI.ledger.of_runs (s := s.recorded e) hr hG).2.2
      exact hepoch ▸ ⟨hm, (hI.ledger.groups g G hG).epoch_pos⟩
    · exact absurd hadd hnew

/-- **Epochs are not reused.** Take a run in which every loss of `EPOCH` meets the condition, and a point of it at which no
process runs. Whatever happens after it, a part written then carries an epoch above that of every part in any log there. -/
theorem part_epochs_never_reused (C : Commits) (before after : List Event)
    (hrun : Along (Event.step C) Survives Host.init (before ++ after)) (hdown : (run (Event.step C) Host.init before).up = false)
    (g : GroupId) (n : Ns) (h : Hash) (hnew : h ∉ ((run (Event.step C) Host.init (before ++ after)).ns n).queue)
    (hadd : h ∈ ((addPart C (run (Event.step C) Host.init (before ++ after)) g n h).ns n).queue) :
    ∃ m, C.marker h = some m ∧ ∀ n' h' m', h' ∈ ((run (Event.step C) Host.init before).ns n').log →
      C.marker h' = some m' → m'.epoch < m.epoch := by
  rw [along_append] at hrun
  rw [run_append] at hnew hadd
  set s := run (Event.step C) Host.init before
  obtain ⟨e, hl, hI, -, -⟩ : Ahead C 0 s := run_of_step (fun _ o ho hs => hs.step o ho) hrun.1 ⟨0, .kept rfl, Inv.init C, le_rfl, .inl rfl⟩
  have hs : Ahead C e s := ⟨e, hl, hI, le_rfl, .inl (by rw [show s.coord = .opened from hI.ledger.down hdown]; rfl)⟩
  obtain ⟨_, -, hI', -, hepoch⟩ : Ahead C e _ := run_of_step (fun _ o ho hs => hs.step o ho) hrun.2 hs
  obtain ⟨hm, hpos⟩ := marker_of_added hI' hnew hadd
  refine ⟨_, hm, fun n' h' m' hh' hm' => ?_⟩
  -- a part that is in a log belongs to a group of a recorded epoch
  obtain ⟨G, hG, hsame, -⟩ := (hI.logs n').marked h' hh' m' hm'
  have hle : G.epoch ≤ e := (hI.ledger.groups _ G hG).epoch_le
  exact (hsame ▸ hle).trans_lt (hepoch.resolve_left hpos.ne')

/-- commits without parents: the part of group 7 in the first epoch, and those of group 8 -/
def lossCommits (epoch : Epoch) : Commits where
  graph := { parents := fun _ => [], rank := fun _ => 0, rank_lt := nofun }
  marker h := if h = 10 then some ⟨1, 7⟩ else if h = 11 then some ⟨epoch, 8⟩ else none

/-- group 7 commits in namespace 0 -/
def firstGroup : List Event :=
  [.host .recover, .host (.begin 7 [0]), .host (.addPart 7 0 10), .host (.flush 0 1), .host (.decide 7),
    .host (.flushDecisions 1), .host (.finish 7 false)]

/-- the process ends -/
def stopped : Event := .host (.crash (fun _ => 0) 0)

/-- a new process begins group 8 -/
def secondGroup : List Event := [.host .recover, .host (.begin 8 [0])]

/-- the condition met: the process dies with its epoch open, and `EPOCH` is lost -/
theorem part_epochs_never_reused_open : ∃ m, (lossCommits 2).marker 11 = some m ∧ 1 < m.epoch := by
  obtain ⟨m, hm, hall⟩ := part_epochs_never_reused (lossCommits 2) (firstGroup ++ [stopped]) (.loseEpoch :: secondGroup)
    (by decide +kernel) (by decide +kernel) 8 0 11 (by decide +kernel) (by decide +kernel)
  exact ⟨m, hm, hall 0 10 ⟨1, 7⟩ (by decide +kernel) rfl⟩

/-- **A sealed epoch is reused.** The epoch of group 7 is sealed by a clean shutdown and `EPOCH` is lost. The next process
gives group 8 the same epoch; when it dies, group 7's part is dropped, though its caller was told that it committed. -/
theorem sealed_epoch_reused :
    let C := lossCommits 1
    let closed := run (Event.step C) Host.init (firstGroup ++ [.host .close, stopped])
    let again := run (Event.step C) closed (.loseEpoch :: secondGroup)
    let died := run (Event.step C) again [stopped, .host .recover]
    10 ∈ (closed.ns 0).disk ∧ C.marker 10 = some ⟨1, 7⟩ ∧ 11 ∈ ((addPart C again 8 0 11).ns 0).queue ∧
      C.marker 11 = some ⟨1, 8⟩ ∧ died.settled 7 = true ∧ 10 ∉ (died.ns 0).graph := by
  decide +kernel

end Kdb.GroupCommit
