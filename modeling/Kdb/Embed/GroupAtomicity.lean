/-
Cross-namespace groups are atomic across crashes (`Kdb.Embed.GroupCommit`).

- `Inv.step`: every step keeps the ledger and the logs. The steps of one group are here, and crashes and recovery.
- `groups_atomic`: after any run and a crash, recovery finds every part of a group or none, as its caller was told.
-/
import Kdb.Embed.GroupLedger
import Kdb.Lib.Machine

namespace Kdb.GroupCommit

open Machine List

variable {C : Commits} {s t : Host} {g : GroupId} {G : TxnGroup} {h : Hash} {n : Ns}

/-! ## Parts and decisions -/

theorem Ledger.of_runs (hL : Ledger C s) (hr : s.runs g = true) (hG : s.group g = some G) :
    s.up = true ∧ g ∈ s.coord.inflight ∧ G.epoch = s.coord.epoch := by
  simp only [Host.runs, Bool.and_eq_true, decide_eq_true_eq] at hr
  obtain ⟨G', hG', he, -⟩ := hL.inflight g hr.2
  cases hG.symm.trans hG'
  exact ⟨hr.1, hr.2, he⟩

/-- what stood on the old barrier is ahead of the new one: the old barrier became a predecessor -/
theorem Clear.behind {b : Option GroupId} {x : Hash} (hc : Clear C s x b)
    (hb : ∀ a, b = some a → a ≠ g → a ∈ predsOf s g) : Clear C s x (some g) := by
  intro y m hy hm
  obtain hd | ⟨a, rfl, ha⟩ := hc y m hy hm
  · exact .inl hd
  · refine .inr ⟨g, rfl, ?_⟩
    by_cases hag : a = g
    · exact hag ▸ ha
    · exact .head (hb a rfl hag) ha

/-- a barrier is still one of an unsettled group with a part there -/
theorem Ledger.barrier_kept (hL : Ledger C s) {G₀ : TxnGroup} (hG : s.group g = some G₀) (hadd : G₀.added ⊆ G.added)
    (hp : G.phase ≠ .committed) {b : GroupId} (hb : (s.ns n).barrier = some b) :
    (b ≠ g ∧ (s.ns n).barrier = some b) ∨ (b = g ∧ n ∈ G.added ∧ G.phase ≠ .committed) := by
  by_cases hbg : b = g
  · subst hbg
    obtain ⟨B, hB, -, hmem, -⟩ := hL.barrier n b hb
    cases hG.symm.trans hB
    exact .inr ⟨rfl, hadd hmem, hp⟩
  · exact .inl ⟨hbg, hb⟩

variable {A : TxnGroup} {a : GroupId} {f : DecisionFile} {q : List GroupId}

theorem Changes.pred_ok (hc : Changes s t g G) (hA : s.group a = some A) (he : A.epoch = G.epoch) :
    ∃ A', t.group a = some A' ∧ A'.epoch = G.epoch := by
  obtain ⟨A', hA', hAe, -⟩ := hc.gains a A hA
  exact ⟨A', hA', hAe.trans he⟩

theorem Changes.preds_ok {G₀ : TxnGroup} (hc : Changes s t g G) (hok : GroupOk C s g G₀) (he : G₀.epoch = G.epoch) :
    ∀ a ∈ G₀.preds, ∃ A, t.group a = some A ∧ A.epoch = G.epoch := by
  intro a ha
  obtain ⟨A, hA, hAe⟩ := hok.preds a ha
  exact hc.pred_ok hA (hAe.trans he)

/-- a running group has no record yet -/
theorem Changes.fileOk_of_running {G₀ : TxnGroup} (hc : Changes s t g G) (hL : Ledger C s) (hG : s.group g = some G₀)
    (hphase : G₀.phase = .running) (hpend : ∀ e, t.pending e = s.pending e) (e : Epoch) (f : DecisionFile)
    (hf : s.files[e]? = some f) : FileOk t e f := by
  refine hc.fileOk hL hpend ?_ e f hf
  intro G₁ hG₁ hp
  cases hG.symm.trans hG₁
  simp [hphase] at hp

/-- the group with a part in one more namespace, behind the barrier it found there -/
def TxnGroup.grown (G : TxnGroup) (n : Ns) (pred : Option GroupId) : TxnGroup :=
  { G with added := n :: G.added, preds := pred.toList ++ G.preds }

@[simp] theorem TxnGroup.grown_phase (G : TxnGroup) (n : Ns) (pred : Option GroupId) : (G.grown n pred).phase = G.phase :=
  rfl

/-- the namespace with the part queued and the group its barrier -/
def Namespace.grown (N : Namespace) (g : GroupId) (h : Hash) : Namespace :=
  { N with graph := N.graph ++ [h], queue := N.queue ++ [h], barrier := some g }

/-- the host with the part added -/
def Host.grown (s : Host) (g : GroupId) (G : TxnGroup) (n : Ns) (h : Hash) : Host :=
  setGroup (setNs s n ((s.ns n).grown g h)) g (G.grown n ((s.barrier n).filter (· ≠ g)))

theorem Host.grown_ns (s : Host) (g : GroupId) (G : TxnGroup) (n : Ns) (h : Hash) (m : Ns) :
    (s.grown g G n h).ns m = if m = n then (s.ns n).grown g h else s.ns m := by
  by_cases hm : m = n
  · subst hm
    simp [Host.grown, setGroup, setNs]
  · simp [Host.grown, setGroup, setNs, hm]

theorem changes_grown (hL : Ledger C s) (hG : s.group g = some G) (hr : s.runs g = true) :
    Changes s (s.grown g G n h) g (G.grown n ((s.barrier n).filter (· ≠ g))) := by
  obtain ⟨hup, -, he⟩ := hL.of_runs hr hG
  refine ⟨rfl, he, ?_, rfl, rfl, rfl, id, fun _ _ => Iff.rfl, Iff.rfl, fun _ => Subset.refl _, rfl, hup, ?_⟩
  · intro G₀ hG₀
    cases hG.symm.trans hG₀
    exact ⟨rfl, rfl, subset_cons_self _ _, subset_append_right _ _⟩
  · intro m
    rw [Host.grown_ns]
    split
    · subst m
      rfl
    · rfl

/-- the barrier the group found is among its predecessors, unless it was the group's own -/
theorem Ledger.mem_preds_grown (hL : Ledger C s) :
    a ∈ (G.grown n ((s.barrier n).filter (· ≠ g))).preds ↔ ((s.ns n).barrier = some a ∧ a ≠ g) ∨ a ∈ G.preds := by
  rw [hL.barrier_eq n]
  simp [TxnGroup.grown]

theorem Ledger.grown (hL : Ledger C s) (hG : s.group g = some G) (hr : s.runs g = true) (hphase : G.phase = .running) :
    Ledger C (s.grown g G n h) := by
  have hc := changes_grown (n := n) (h := h) hL hG hr
  obtain ⟨-, hin, he⟩ := hL.of_runs hr hG
  have hok := hL.groups g G hG
  refine hc.ledger hL (.inr (ne_nil_of_mem hin)) ⟨hok.epoch_pos, hok.epoch_le, fun _ _ => hin, ?_, ?_, ?_, ?_,
    ?_, ?_⟩ (fun _ => .inl hphase) (hc.fileOk_of_running hL hG hphase fun _ => rfl) ?_
  · intro _ hp
    simp [hphase] at hp
  · intro a ha
    obtain ⟨hb, -⟩ | ha := hL.mem_preds_grown.1 ha
    · -- the new predecessor is the barrier, a group of the open epoch
      obtain ⟨A, hA, hAe, -⟩ := hL.barrier n a hb
      exact hc.pred_ok hA (hAe.trans he.symm)
    · exact hc.preds_ok hok rfl a ha
  · intro hp
    simp [hphase] at hp
  · intro _ hp
    simp [hphase] at hp
  · intro hp _
    exact hok.unsettled hp (.inl hphase)
  · intro hp
    simp [hphase] at hp
  · intro m b hb
    rw [Host.grown_ns] at hb
    split at hb
    · subst m
      cases hb
      exact .inr ⟨rfl, .head _, by simp [hphase]⟩
    · exact hL.barrier_kept hG (subset_cons_self _ _) (by simp [hphase]) hb

theorem Inv.addPart (hI : Inv C s) : Inv C (addPart C s g n h) := by
  unfold GroupCommit.addPart
  cases hG : s.group g with
  | none => exact hI
  | some G =>
    simp only
    split_ifs with hcond
    · simp only [Bool.and_eq_true, decide_eq_true_eq] at hcond
      obtain ⟨⟨⟨⟨⟨hruns, hphase⟩, hn⟩, -⟩, happ⟩, hmark⟩ := hcond
      have hL := hI.ledger
      have hc := changes_grown (n := n) (h := h) hL hG hruns
      change Inv C (s.grown g G n h)
      refine ⟨hL.grown hG hruns hphase, ?_⟩
      intro m
      have hN := (hI.logs m).grow hc.grows
      rw [Host.grown_ns]
      split
      · subst m
        refine hN.queue (parents_of_appendable happ) ?_ ?_ fun w hw => .inl hw
        · intro mk hmk
          cases hmark.symm.trans hmk
          exact ⟨⟨_, hc.self, rfl, hn, .head _⟩, rfl⟩
        · intro x hx
          refine (hN.graph_clear x hx).behind ?_
          intro a ha hne
          simpa [predsOf, hc.self] using hL.mem_preds_grown.2 (.inl ⟨ha, hne⟩)
      · exact hN
    · exact hI

theorem Ledger.record_of_enqueued (hL : Ledger C s) (hA : s.group a = some A) (he : A.epoch = s.coord.epoch)
    (hq : s.enqueued a = true) (hf : s.files[s.coord.epoch]? = some f) : a ∈ f.records ++ s.pending s.coord.epoch := by
  have hok := hL.groups a A hA
  have hphase : A.phase = .queued ∨ A.phase = .committed := by simpa [Host.enqueued, hA] using hq
  obtain hp | hp := hphase
  · obtain ⟨f', hf', hmem⟩ := hok.queued he hp
    rw [he] at hf' hmem
    cases hf.symm.trans hf'
    exact hmem
  · exact mem_append_left _ (hok.committed hp f (he.symm ▸ hf))

def Host.enqueue (s : Host) (g : GroupId) (G : TxnGroup) (q : List GroupId) : Host :=
  { setGroup s g { G with phase := .queued } with coord := { s.coord with log := some (q ++ [g]) } }

theorem Host.enqueue_pending (hq : s.coord.log = some q) (e : Epoch) :
    (s.enqueue g G q).pending e = if e = s.coord.epoch then s.pending e ++ [g] else s.pending e := by
  by_cases he : e = s.coord.epoch
  · simp [Host.pending, Host.enqueue, hq, he]
  · simp [Host.pending, Host.enqueue, he]

theorem changes_enqueue (hL : Ledger C s) (hG : s.group g = some G) (hr : s.runs g = true) (hq : s.coord.log = some q) :
    Changes s (s.enqueue g G q) g { G with phase := .queued } := by
  obtain ⟨hup, -, he⟩ := hL.of_runs hr hG
  refine ⟨rfl, he, ?_, rfl, rfl, rfl, id, fun _ _ => Iff.rfl, by simp [Host.enqueue, hq], ?_, rfl, hup, fun _ => rfl⟩
  · intro G₀ hG₀
    cases hG.symm.trans hG₀
    exact ⟨rfl, rfl, Subset.refl _, Subset.refl _⟩
  · intro e
    rw [Host.enqueue_pending hq]
    split
    · exact subset_append_left _ _
    · exact Subset.refl _

/-- the record joins the file's behind those of its predecessors -/
theorem fileOk_enqueue (hL : Ledger C s) (hG : s.group g = some G) (hr : s.runs g = true) (hq : s.coord.log = some q)
    (hpreds : ∀ a ∈ G.preds, s.enqueued a = true) {e : Epoch} (hf : s.files[e]? = some f) : FileOk (s.enqueue g G q) e f := by
  have hc := changes_enqueue hL hG hr hq
  have hok := hL.files e f hf
  have hpredsOf : predsOf (s.enqueue g G q) = predsOf s := by
    funext x
    by_cases hx : x = g
    · subst hx
      simp [predsOf, hc.self, hG]
    · simp [predsOf, hc.other hx]
  have hold : ∀ x ∈ f.records ++ s.pending e, ∃ X, (s.enqueue g G q).group x = some X ∧ X.epoch = e ∧
      (X.phase = .queued ∨ X.phase = .committed) := by
    intro x hx
    obtain ⟨X, hX, hXe, hXp⟩ := hok.records x hx
    by_cases hxg : x = g
    · subst hxg
      cases hG.symm.trans hX
      exact ⟨_, hc.self, hXe, .inl rfl⟩
    · exact ⟨X, (hc.other hxg).trans hX, hXe, hXp⟩
  refine ⟨hok.epoch_pos, hok.epoch_le, ?_, ?_⟩
  · intro x hx
    rw [Host.enqueue_pending hq] at hx
    split_ifs at hx with he
    · rw [← append_assoc] at hx
      obtain hx | hx := mem_append.1 hx
      · exact hold x hx
      · obtain rfl : x = g := by simpa using hx
        exact ⟨_, hc.self, hc.current.trans he.symm, .inl rfl⟩
    · exact hold x hx
  · rw [Host.enqueue_pending hq, hpredsOf]
    split_ifs with he
    · subst he
      rw [← append_assoc]
      refine hok.ordered.concat ?_
      intro a ha
      have ha : a ∈ G.preds := by simpa [predsOf, hG] using ha
      obtain ⟨A, hA, hAe⟩ := (hL.groups g G hG).preds a ha
      exact hL.record_of_enqueued hA (hAe.trans (hL.of_runs hr hG).2.2) (hpreds a ha) hf
    · exact hok.ordered

theorem Inv.decide (hI : Inv C s) : Inv C (decide C s g) := by
  unfold GroupCommit.decide
  cases hG : s.group g with
  | none => exact hI
  | some G =>
    cases hq : s.coord.log with
    | none => exact hI
    | some q =>
      simp only
      split_ifs with hcond
      · simp only [Bool.and_eq_true, decide_eq_true_eq, all_eq_true] at hcond
        obtain ⟨⟨⟨⟨⟨⟨hruns, -⟩, hphase⟩, -⟩, hparts⟩, hdurable⟩, hpreds⟩ := hcond
        have hL := hI.ledger
        have hc := changes_enqueue hL hG hruns hq
        obtain ⟨-, hin, he⟩ := hL.of_runs hruns hG
        have hok := hL.groups g G hG
        obtain ⟨f, hf⟩ := hL.log_file (by simp [hq])
        change Inv C (s.enqueue g G q)
        refine ⟨hc.ledger hL (.inr (ne_nil_of_mem hin)) ⟨hok.epoch_pos, hok.epoch_le, fun _ _ => hin, nofun,
          fun _ ha => hc.preds_ok hok rfl _ ha, nofun, ?_, ?_, ?_⟩ (fun _ => .inr rfl) ?_ ?_, fun n => (hI.logs n).grow hc.grows⟩
        · intro _ _
          refine ⟨f, he.symm ▸ hf, ?_⟩
          simp [Host.enqueue_pending hq, he]
        · intro _ _
          exact hok.unsettled (by simp [hphase]) (.inl hphase)
        · intro _ n hn
          have hd := hdurable n (hparts n hn)
          simp only [Host.partDurable, any_eq_true, decide_eq_true_eq] at hd
          exact hd
        · intro e f' hf'
          exact fileOk_enqueue hL hG hruns hq hpreds hf'
        · intro n b hb
          exact hL.barrier_kept (G := { G with phase := .queued }) hG (Subset.refl _) nofun hb
      · exact hI

/-- a group that leaves the coordinator with its phase changed -/
theorem changes_leave (hL : Ledger C s) (hG : s.group g = some G) (hr : s.runs g = true) {ns : Ns → Namespace}
    (hdisk : ∀ n, (ns n).disk = (s.ns n).disk) (phase : Phase) (committed published : Bool) :
    Changes s (leave { setGroup s g { G with phase := phase } with ns := ns } g G.epoch committed published) g
      { G with phase := phase } := by
  obtain ⟨hup, -, he⟩ := hL.of_runs hr hG
  refine ⟨rfl, he, ?_, rfl, rfl, rfl, ?_, ?_, Iff.rfl, fun _ => Subset.refl _, rfl, hup, hdisk⟩
  · intro G₀ hG₀
    cases hG.symm.trans hG₀
    exact ⟨rfl, rfl, Subset.refl _, Subset.refl _⟩
  · intro hf
    simp [leave, setGroup, hf]
  · intro x hx
    simp [leave, setGroup, hx]

theorem settle_ns (s : Host) (g : GroupId) (G : TxnGroup) (n : Ns) :
    (settle s g G).ns n = if n ∈ G.added ∧ (s.ns n).barrier = some g
      then { s.ns n with barrier := none } else s.ns n := rfl

theorem Inv.settle (hI : Inv C s) (hG : s.group g = some G) (hr : s.runs g = true) (hphase : G.phase = .queued)
    (hrec : Recorded s ⟨G.epoch, g⟩) (published : Bool) : Inv C (leave (settle s g G) g G.epoch true published) := by
  have hL := hI.ledger
  have hok := hL.groups g G hG
  obtain ⟨hup, hin, he⟩ := hL.of_runs hr hG
  have hdisk : ∀ n, ((GroupCommit.settle s g G).ns n).disk = (s.ns n).disk := by
    intro n
    rw [settle_ns]
    split <;> rfl
  have hc := changes_leave hL hG hr hdisk .committed true published
  refine ⟨hc.ledger hL (.inr (ne_nil_of_mem hin)) ⟨hok.epoch_pos, hok.epoch_le, nofun, nofun,
    fun _ ha => hc.preds_ok hok rfl _ ha, fun _ => hc.keeps.recorded hrec, nofun, fun h => absurd rfl h, ?_⟩ ?_ ?_ ?_, ?_⟩
  · intro _ n hn
    obtain ⟨h, hh, hm⟩ := hok.durable (.inl hphase) n hn
    exact ⟨h, hc.keeps.disk n h hh, hm⟩
  · intro hmem
    simp [leave, GroupCommit.settle] at hmem
  · refine hc.fileOk hL (fun _ => rfl) ?_
    intro G₀ hG₀ _
    cases hG.symm.trans hG₀
    exact ⟨.inr rfl, rfl⟩
  · intro n b hb
    change ((GroupCommit.settle s g G).ns n).barrier = some b at hb
    rw [settle_ns] at hb
    split at hb
    · cases hb
    · rename_i hkeep
      refine .inl ⟨?_, hb⟩
      rintro rfl
      obtain ⟨B, hB, -, hmem, -⟩ := hL.barrier n b hb
      cases hG.symm.trans hB
      exact hkeep ⟨hmem, hb⟩
  · intro n
    change Logs C _ n ((GroupCommit.settle s g G).ns n)
    have hN := hI.logs n
    rw [settle_ns]
    split_ifs with hdrop
    · refine Logs.grow ⟨hN.marked, hN.parents_first, hN.graph_sub, ?_, hN.part_clear, hN.waiting_clear, hN.acked_clear⟩
        hc.grows
      intro x hx
      exact Clear.settle hL ⟨G, hG, hrec⟩ (hdrop.2 ▸ hN.graph_clear x hx)
    · exact hN.grow hc.grows

theorem Inv.finish (hI : Inv C s) (roll : Bool) : Inv C (finish s g roll) := by
  unfold GroupCommit.finish
  cases hG : s.group g with
  | none => exact hI
  | some G =>
    simp only
    split_ifs with hcond
    · simp only [Bool.and_eq_true, decide_eq_true_eq] at hcond
      obtain ⟨⟨hr, hphase⟩, hrec⟩ := hcond
      refine (hI.settle hG hr hphase ?_ _).rollEpoch roll
      intro f hf
      simpa [hf] using hrec
    · exact hI

theorem fence_ns (s : Host) (g : GroupId) (G : TxnGroup) (n : Ns) :
    (fence s g G).ns n = if n ∈ G.added then { s.ns n with fenced := true } else s.ns n := rfl

theorem Inv.fence (hI : Inv C s) (hG : s.group g = some G) (hr : s.runs g = true) (hphase : G.phase = .running) :
    Inv C (leave (fence s g G) g G.epoch false (G.added ≠ [])) := by
  have hL := hI.ledger
  have hok := hL.groups g G hG
  obtain ⟨hup, hin, he⟩ := hL.of_runs hr hG
  have hdisk : ∀ n, ((GroupCommit.fence s g G).ns n).disk = (s.ns n).disk := by
    intro n
    rw [fence_ns]
    split <;> rfl
  have hbar : ∀ n, ((GroupCommit.fence s g G).ns n).barrier = (s.ns n).barrier := by
    intro n
    rw [fence_ns]
    split <;> rfl
  have hc := changes_leave hL hG hr hdisk .failed false (G.added ≠ [])
  refine ⟨hc.ledger hL (.inr (ne_nil_of_mem hin)) ⟨hok.epoch_pos, hok.epoch_le, nofun, ?_,
    fun _ ha => hc.preds_ok hok rfl _ ha, nofun, nofun, ?_, nofun⟩ ?_ (hc.fileOk_of_running hL hG hphase fun _ => rfl) ?_, ?_⟩
  · intro _ _ hadd
    have hadd : G.added ≠ [] := hadd
    simp [leave, hadd]
  · intro _ hadd
    obtain ⟨f, hf⟩ := hok.unsettled (by simp [hphase]) (.inl hphase)
    exact ⟨f, hf⟩
  · intro hmem
    simp [leave, GroupCommit.fence] at hmem
  · intro n b hb
    exact hL.barrier_kept (G := { G with phase := .failed }) hG (Subset.refl _) nofun ((hbar n).symm.trans hb)
  · intro n
    change Logs C _ n ((GroupCommit.fence s g G).ns n)
    have hN := (hI.logs n).grow hc.grows
    rw [fence_ns]
    split
    · exact ⟨hN.marked, hN.parents_first, hN.graph_sub, hN.graph_clear, hN.part_clear, hN.waiting_clear, hN.acked_clear⟩
    · exact hN

theorem Inv.fail (hI : Inv C s) (roll : Bool) : Inv C (fail s g roll) := by
  unfold GroupCommit.fail
  cases hG : s.group g with
  | none => exact hI
  | some G =>
    simp only
    split_ifs with hcond
    · simp only [Bool.and_eq_true, decide_eq_true_eq] at hcond
      exact (hI.fence hG hcond.1 hcond.2).rollEpoch roll
    · exact hI

/-! ## Crashes and recovery -/

/-- a crash loses the queues' ends, the graphs and the coordinator: what it leaves of the file is a prefix -/
theorem Inv.crash (hI : Inv C s) (k : Ns → ℕ) (kd : ℕ) : Inv C (crash s k kd) := by
  have hI' := hI.flushDecisions kd
  unfold GroupCommit.crash
  generalize GroupCommit.flushDecisions s kd = u at hI' ⊢
  have hL := hI'.ledger
  set t : Host := { u with
    ns := fun n => { u.ns n with
      disk := (u.ns n).disk ++ (u.ns n).queue.take (k n), queue := [], graph := [], barrier := none, fenced := false,
      waiting := [] }
    coord := .opened
    up := false } with ht
  have hpend : ∀ e, t.pending e = [] := by
    intro e
    unfold Host.pending
    split <;> rfl
  have hgrow : Grows u t :=
    ⟨fun _ G hG => ⟨G, hG, rfl, rfl, Subset.refl _, Subset.refl _⟩, fun _ hd => hd⟩
  change Inv C t
  refine ⟨⟨?_, ?_, nofun, Nat.zero_le _, fun h => absurd rfl h, fun _ _ => ⟨rfl, fun _ => rfl⟩, nofun, fun _ => rfl⟩, ?_⟩
  · intro g G hG
    have hok := hL.groups g G hG
    have hne : G.epoch ≠ t.coord.epoch := hok.epoch_pos.ne'
    refine ⟨hok.epoch_pos, hok.epoch_le, fun h => absurd h hne, fun h => absurd h hne, hok.preds, hok.committed,
      fun h => absurd h hne, hok.unsettled, ?_⟩
    intro hp n hn
    obtain ⟨h, hh, hm⟩ := hok.durable hp n hn
    exact ⟨h, mem_append_left _ hh, hm⟩
  · intro e f hf
    have hok := hL.files e f hf
    refine ⟨hok.epoch_pos, hok.epoch_le, ?_, ?_⟩
    · intro g hg
      rw [hpend, append_nil] at hg
      exact hok.records g (mem_append_left _ hg)
    · rw [hpend, append_nil]
      exact hok.ordered.of_append
  · intro n
    have hN := (hI'.logs n).grow hgrow
    have hlog : (t.ns n).log = (u.ns n).disk ++ (u.ns n).queue.take (k n) := append_nil _
    have hsub : ∀ h ∈ (t.ns n).log, h ∈ (u.ns n).log := by
      intro h hh
      rw [hlog] at hh
      exact (mem_append.1 hh).elim (mem_append_left _) fun hh => mem_append_right _ (mem_of_mem_take hh)
    refine ⟨fun h hh => hN.marked h (hsub h hh), ?_, nofun, nofun, fun h hh => hN.part_clear h (hsub h hh), nofun, ?_⟩
    · rw [hlog]
      exact hN.parents_first.take_right (k n)
    · intro h hh
      exact ⟨mem_append_left _ (hN.acked_clear h hh).1, (hN.acked_clear h hh).2⟩

theorem Inv.recover (hI : Inv C s) : Inv C (recover C s) := by
  unfold GroupCommit.recover
  split_ifs with hup
  · exact hI
  · have hL := hI.ledger
    have hcoord : s.coord = .opened := hL.down (by simpa using hup)
    set u : Host := { s with
      files := s.files.map fun _ => DecisionFile.renamed
      coord := .opened
      up := true } with hu
    have hIu : Inv C u := by
      have hren : Inv C { s with files := s.files.map fun _ => DecisionFile.renamed } := by
        refine hI.rename fun e => .inr ?_
        rw [Std.ExtTreeMap.getElem?_map]
      refine hren.coordinator rfl ⟨⟨le_rfl, by simp [hu, hcoord], by simp [hcoord, TxnCoordinator.opened],
        fun _ G hG => ⟨G, hG, rfl⟩, ?_, fun _ => id, fun _ _ => id⟩, rfl, by simp [hu, hcoord], ?_, by simp [hu, hcoord],
        fun _ _ => by simp [hcoord, TxnCoordinator.opened], by simp⟩
      · intro e f hf
        exact ⟨f, hf, Subset.refl _, by simp [Host.pending, hu, hcoord]⟩
      · intro e f hf
        exact ⟨f, hf, by simp [Host.pending, hu, hcoord]⟩
    set t : Host := { u with ns := fun n => { u.ns n with
      queue := [], graph := replayNamespace C u (u.ns n).disk, barrier := none, fenced := false, waiting := [] } } with ht
    have hm : Moves u t := ⟨⟨le_rfl, rfl, id, fun _ G hG => ⟨G, hG, rfl⟩,
      fun _ f hf => ⟨f, hf, Subset.refl _, Subset.refl _⟩, fun _ => id, fun _ _ => id⟩, rfl, rfl,
      fun _ f hf => ⟨f, hf, rfl⟩, id, fun h h' => ⟨h, h'⟩, by simp⟩
    change Inv C t
    refine ⟨hIu.ledger.keep hm (by simp), ?_⟩
    intro n
    have hN := hIu.logs n
    have hlog : (t.ns n).log = (u.ns n).disk := append_nil _
    have hsub : ∀ h ∈ (t.ns n).log, h ∈ (u.ns n).log := by
      intro h hh
      exact mem_append_left _ (hlog ▸ hh)
    have hdisk : DepOrdered C.graph.parents (u.ns n).disk := hN.parents_first.of_append
    refine Logs.grow ⟨fun h hh => hN.marked h (hsub h hh), hlog ▸ hdisk, ?_, ?_, fun h hh => hN.part_clear h (hsub h hh),
      by simp [ht], hN.acked_clear⟩ hm.grows
    · intro h hh
      rw [hlog]
      exact ((mem_replayNamespace rfl hdisk h).1 hh).1
    · intro h hh
      obtain ⟨hmem, hs⟩ := (mem_replayNamespace rfl hdisk h).1 hh
      exact hN.clear_of_stands (mem_append_left _ hmem) hs

/-- **Step.** Every step keeps the ledger and the logs. -/
theorem Inv.step (s : Host) (o : Step) (hI : Inv C s) : Inv C (step C s o) := by
  cases o with
  | begin g parts => exact hI.begin parts
  | writeEpoch =>
    simp only [GroupCommit.step]
    split
    · exact hI.writeEpoch
    · exact hI
  | addPart g n h => exact hI.addPart
  | commit n h => exact hI.commit
  | flush n k => exact hI.flush n k
  | ack n h b => exact hI.ack
  | decide g => exact hI.decide
  | flushDecisions k => exact hI.flushDecisions k
  | finish g roll => exact hI.finish roll
  | fail g roll => exact hI.fail roll
  | close => exact hI.close
  | crash k kd => exact hI.crash k kd
  | markDead e =>
    simp only [GroupCommit.step]
    split
    · exact hI
    · exact hI.markDead e
  | recover => exact hI.recover

theorem mem_graph_recover (hI : Inv C s) (hup : s.up = false) (x : Hash) :
    x ∈ ((recover C s).ns n).graph ↔ x ∈ ((recover C s).ns n).disk ∧ Stands C (recover C s) x := by
  have hd : DepOrdered C.graph.parents (s.ns n).disk := (hI.logs n).parents_first.of_append
  simp only [GroupCommit.recover, hup]
  exact mem_replayNamespace rfl hd x

/-! ## Atomicity -/

def Host.hasPart (C : Commits) (s : Host) (g : GroupId) (G : TxnGroup) (n : Ns) : Prop :=
  ∃ h ∈ (s.ns n).graph, C.marker h = some ⟨G.epoch, g⟩
  deriving Decidable

/-- what recovery owes the groups and the ordinary commits -/
structure Atomic (C : Commits) (s : Host) : Prop where
  all_or_none : ∀ g G, s.group g = some G → (∀ n ∈ G.parts, s.hasPart C g G n) ∨ ∀ n, ¬ s.hasPart C g G n
  elsewhere : ∀ g G, s.group g = some G → ∀ n, s.hasPart C g G n → n ∈ G.parts
  told : ∀ g G, s.group g = some G → G.phase = .committed → ∀ n ∈ G.parts, s.hasPart C g G n
  aborted : ∀ g G, s.group g = some G → G.phase = .failed ∨ G.phase = .running → ∀ n, ¬ s.hasPart C g G n
  undecided : ∀ g G, s.group g = some G → ¬ Decided s g → ∀ n, ¬ s.hasPart C g G n
  acked : ∀ n, ∀ h ∈ (s.ns n).acked, h ∈ (s.ns n).graph

/-- the graph holds exactly the durable commits that stand on recorded parts -/
def Replayed (C : Commits) (s : Host) : Prop :=
  ∀ n x, x ∈ (s.ns n).graph ↔ x ∈ (s.ns n).disk ∧ Stands C s x

theorem Inv.marked_of_hasPart (hI : Inv C s) (hG : s.group g = some G) (hp : s.hasPart C g G n) :
    n ∈ G.parts ∧ n ∈ G.added := by
  obtain ⟨h, hh, hm⟩ := hp
  obtain ⟨G', hG', -, hparts, hadded⟩ := (hI.logs n).marked h ((hI.logs n).graph_sub h hh) _ hm
  cases hG.symm.trans hG'
  exact ⟨hparts, hadded⟩

theorem Replayed.recorded_of_hasPart (hr : Replayed C s) (hp : s.hasPart C g G n) : Recorded s ⟨G.epoch, g⟩ := by
  obtain ⟨h, hh, hm⟩ := hp
  exact ((hr n h).1 hh).2 h _ .refl hm

theorem Inv.hasPart_of_decided (hI : Inv C s) (hr : Replayed C s) (hG : s.group g = some G) (hd : Recorded s ⟨G.epoch, g⟩)
    (hp : G.phase = .queued ∨ G.phase = .committed) : ∀ n ∈ G.parts, s.hasPart C g G n := by
  intro n hn
  obtain ⟨h, hh, hm⟩ := (hI.ledger.groups g G hG).durable hp n hn
  have hlog : h ∈ (s.ns n).log := mem_append_left _ hh
  have hclear : Clear C s h none := ((hI.logs n).part_clear h hlog _ hm).settle hI.ledger ⟨G, hG, hd⟩
  exact ⟨h, (hr n h).2 ⟨hh, (hI.logs n).stands_of_clear hlog hclear⟩, hm⟩

theorem Inv.not_hasPart (hI : Inv C s) (hr : Replayed C s) (hG : s.group g = some G)
    (hp : G.phase = .failed ∨ G.phase = .running) : ¬ s.hasPart C g G n := by
  intro hpart
  have hadded := (hI.marked_of_hasPart hG hpart).2
  have hrec := hr.recorded_of_hasPart hpart
  have hne : G.phase ≠ .committed := by
    rintro h
    simp [h] at hp
  -- its epoch still has a file, which holds only queued groups
  obtain ⟨f, hf⟩ := (hI.ledger.groups g G hG).unsettled hne (.inr (ne_nil_of_mem hadded))
  obtain ⟨G', hG', -, hq⟩ := (hI.ledger.files _ f hf).records g (mem_append_left _ (hrec f hf))
  cases hG.symm.trans hG'
  obtain hp | hp := hp <;> simp [hp] at hq

theorem Inv.atomic (hI : Inv C s) (hr : Replayed C s) : Atomic C s where
  all_or_none g G hG := by
    by_cases hd : Recorded s ⟨G.epoch, g⟩
    · cases hp : G.phase with
      | running => exact .inr fun n => hI.not_hasPart hr hG (.inr hp)
      | failed => exact .inr fun n => hI.not_hasPart hr hG (.inl hp)
      | queued => exact .inl (hI.hasPart_of_decided hr hG hd (.inl hp))
      | committed => exact .inl (hI.hasPart_of_decided hr hG hd (.inr hp))
    · exact .inr fun n hpart => hd (hr.recorded_of_hasPart hpart)
  elsewhere g G hG n hpart := (hI.marked_of_hasPart hG hpart).1
  told g G hG hp := hI.hasPart_of_decided hr hG ((hI.ledger.groups g G hG).committed hp) (.inr hp)
  aborted g G hG hp n := hI.not_hasPart hr hG hp
  undecided g G hG hd n hpart := hd ⟨G, hG, hr.recorded_of_hasPart hpart⟩
  acked n h hh := by
    obtain ⟨hdisk, hclear⟩ := (hI.logs n).acked_clear h hh
    exact (hr n h).2 ⟨hdisk, (hI.logs n).stands_of_clear (mem_append_left _ hdisk) hclear⟩

/-- **Atomic groups.** In every run of the host, with any interleaving of groups and commits, crashes at any step and
any number of recoveries: whenever the host is down, recovering it leaves every part of a group or none, every part of a
group whose caller was told it committed, no part of one that failed or is undecided, and every acknowledged commit. -/
theorem groups_atomic (C : Commits) (steps : List Step) (hdown : (run (step C) Host.init steps).up = false) :
    Atomic C (recover C (run (step C) Host.init steps)) := by
  have hI : Inv C (run (step C) Host.init steps) := run_of_step_all Inv.step steps (Inv.init C)
  exact hI.recover.atomic fun n x => mem_graph_recover hI hdown x

/-- commits whose graph has one edge, from 12 to 10: the parts of group 7 in two namespaces, and a commit on the first -/
def sampleCommits : Commits where
  graph :=
    { parents := fun h => if h = 12 then [10] else []
      rank := fun h => if h = 12 then 1 else 0
      rank_lt := by
        intro h p hp
        by_cases hh : h = 12
        · obtain rfl : p = 10 := by simpa [hh] using hp
          simp [hh]
        · simp [hh] at hp }
  marker h := if h = 10 ∨ h = 11 then some ⟨1, 7⟩ else none

/-- group 7 runs to its decision, a commit follows on its part, and the host dies with the decision on disk before the
group's caller is told -/
def sampleRun : List Step :=
  [.recover, .begin 7 [0, 1], .addPart 7 0 10, .addPart 7 1 11, .flush 0 1, .commit 0 12, .flush 1 1, .decide 7,
    .crash (fun _ => 1) 1]

theorem groups_atomic_sampleRun : Atomic sampleCommits (recover sampleCommits (run (step sampleCommits) Host.init sampleRun))
    ∧ ((recover sampleCommits (run (step sampleCommits) Host.init sampleRun)).ns 0).graph = [10, 12] :=
  ⟨groups_atomic sampleCommits sampleRun (by decide +kernel), by decide +kernel⟩

end Kdb.GroupCommit
