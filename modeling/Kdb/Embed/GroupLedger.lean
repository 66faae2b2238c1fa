/-
The decision log and the namespaces' logs while a host runs (`Kdb.Embed.GroupCommit`).

- `Ledger`: a queued or durable decision has every part of its group on disk and every predecessor's decision before it
  in the file; an epoch loses its file only when every group with a part has committed.
- `Inv`: the ledger, and the log of every namespace; kept here by the steps of a namespace and of the coordinator.
-/
import Kdb.Embed.GroupReplay

namespace Kdb.GroupCommit

open List

variable {C : Commits} {s t : Host} {g : GroupId} {h : Hash} {n : Ns}

/-! ## The ledger -/

/-- the records queued for an epoch -/
def Host.pending (s : Host) (e : Epoch) : List GroupId := if e = s.coord.epoch then s.coord.log.getD [] else []

/-- what is known of a group: where it runs, that its decision has its parts behind it on disk, and that the file of its
epoch stays while it is unsettled -/
structure GroupOk (C : Commits) (s : Host) (g : GroupId) (G : TxnGroup) : Prop where
  epoch_pos : 0 < G.epoch
  epoch_le : G.epoch ≤ s.epochFile
  runs : G.epoch = s.coord.epoch → G.phase = .running ∨ G.phase = .queued → g ∈ s.coord.inflight
  failed : G.epoch = s.coord.epoch → G.phase = .failed → G.added ≠ [] → s.coord.failed = true
  preds : ∀ a ∈ G.preds, ∃ A, s.group a = some A ∧ A.epoch = G.epoch
  committed : G.phase = .committed → Recorded s ⟨G.epoch, g⟩
  queued : G.epoch = s.coord.epoch → G.phase = .queued →
    ∃ f, s.files[G.epoch]? = some f ∧ g ∈ f.records ++ s.pending G.epoch
  unsettled : G.phase ≠ .committed → G.phase = .running ∨ G.added ≠ [] → ∃ f, s.files[G.epoch]? = some f
  durable : G.phase = .queued ∨ G.phase = .committed →
    ∀ n ∈ G.parts, ∃ h ∈ (s.ns n).disk, C.marker h = some ⟨G.epoch, g⟩

/-- what is known of a decision file: its records, durable and queued, are of its epoch's groups, in order -/
structure FileOk (s : Host) (e : Epoch) (f : DecisionFile) : Prop where
  epoch_pos : 0 < e
  epoch_le : e ≤ s.epochFile
  records : ∀ g ∈ f.records ++ s.pending e,
    ∃ G, s.group g = some G ∧ G.epoch = e ∧ (G.phase = .queued ∨ G.phase = .committed)
  ordered : DepOrdered (predsOf s) (f.records ++ s.pending e)

/-- the groups, the files and the coordinator -/
structure Ledger (C : Commits) (s : Host) : Prop where
  groups : ∀ g G, s.group g = some G → GroupOk C s g G
  files : ∀ (e : Epoch) f, s.files[e]? = some f → FileOk s e f
  inflight : ∀ g ∈ s.coord.inflight,
    ∃ G, s.group g = some G ∧ G.epoch = s.coord.epoch ∧ (G.phase = .running ∨ G.phase = .queued)
  coord_le : s.coord.epoch ≤ s.epochFile
  log_file : s.coord.log ≠ none → ∃ f, s.files[s.coord.epoch]? = some f
  idle : s.coord.log = none → s.coord.closed = false → s.coord.inflight = [] ∧ ∀ n, (s.ns n).barrier = none
  barrier : ∀ n b, (s.ns n).barrier = some b →
    ∃ G, s.group b = some G ∧ G.epoch = s.coord.epoch ∧ n ∈ G.added ∧ G.phase ≠ .committed
  down : s.up = false → s.coord = .opened

/-- the epoch goes on: files and logs only gain, and nothing that ran is forgotten -/
structure Keeps (s t : Host) : Prop where
  epochFile : s.epochFile ≤ t.epochFile
  epoch : t.coord.epoch = s.coord.epoch
  failed : s.coord.failed = true → t.coord.failed = true
  epochs : ∀ g G, s.group g = some G → ∃ G', t.group g = some G' ∧ G'.epoch = G.epoch
  file : ∀ (e : Epoch) f, s.files[e]? = some f → ∃ f', t.files[e]? = some f' ∧ f.records ⊆ f'.records ∧
    f.records ++ s.pending e ⊆ f'.records ++ t.pending e
  absent : ∀ e : Epoch, s.files[e]? = none → t.files[e]? = none
  disk : ∀ n h, h ∈ (s.ns n).disk → h ∈ (t.ns n).disk

variable {G : TxnGroup}

theorem Keeps.recorded (hk : Keeps s t) {m : Marker} (h : Recorded s m) : Recorded t m := by
  intro f' hf'
  cases hf : s.files[m.epoch]? with
  | none => simp [hk.absent _ hf] at hf'
  | some f =>
    obtain ⟨f'', hf'', hsub, -⟩ := hk.file _ f hf
    cases hf'.symm.trans hf''
    exact hsub (h f hf)

theorem GroupOk.keep (hG : GroupOk C s g G) (hk : Keeps s t)
    (hin : g ∈ s.coord.inflight → g ∈ t.coord.inflight) : GroupOk C t g G where
  epoch_pos := hG.epoch_pos
  epoch_le := hG.epoch_le.trans hk.epochFile
  runs he hp := hin (hG.runs (he.trans hk.epoch) hp)
  failed he hp ha := hk.failed (hG.failed (he.trans hk.epoch) hp ha)
  preds a ha := by
    obtain ⟨A, hA, he⟩ := hG.preds a ha
    obtain ⟨A', hA', he'⟩ := hk.epochs a A hA
    exact ⟨A', hA', he'.trans he⟩
  committed hp := hk.recorded (hG.committed hp)
  queued he hp := by
    obtain ⟨f, hf, hmem⟩ := hG.queued (he.trans hk.epoch) hp
    obtain ⟨f', hf', -, hsub⟩ := hk.file _ f hf
    exact ⟨f', hf', hsub hmem⟩
  unsettled hp ha := by
    obtain ⟨f, hf⟩ := hG.unsettled hp ha
    obtain ⟨f', hf', -⟩ := hk.file _ f hf
    exact ⟨f', hf'⟩
  durable hp n hn := by
    obtain ⟨h, hh, hm⟩ := hG.durable hp n hn
    exact ⟨h, hk.disk n h hh, hm⟩

theorem Keeps.grows (hk : Keeps s t) (hg : ∀ g G, s.group g = some G → ∃ G', t.group g = some G' ∧
    G'.epoch = G.epoch ∧ G'.parts = G.parts ∧ G.added ⊆ G'.added ∧ G.preds ⊆ G'.preds) : Grows s t := by
  refine ⟨hg, ?_⟩
  rintro g ⟨G, hG, hrec⟩
  obtain ⟨G', hG', he, -⟩ := hg g G hG
  refine ⟨G', hG', ?_⟩
  rw [he]
  exact hk.recorded (m := ⟨G.epoch, g⟩) hrec

/-- **Decisions are closed.** What a decided group comes behind is decided. -/
theorem Ledger.decided_of_behind (hL : Ledger C s) {a b : GroupId} (hb : Behind s b a) (hd : Decided s b) :
    Decided s a := by
  induction hb with
  | refl => exact hd
  | @tail c a _ ha ih =>
    obtain ⟨G, hG, hrec⟩ := ih
    have hpred : a ∈ G.preds := by simpa [predsOf, hG] using ha
    obtain ⟨A, hA, he⟩ := (hL.groups c G hG).preds a hpred
    refine ⟨A, hA, ?_⟩
    intro f hf
    rw [he] at hf
    -- the record of `c` is durable, and that of `a` comes before it
    have hord := (hL.files _ f hf).ordered.of_append
    exact hord.dep_mem (hrec f hf) ha

theorem Clear.settle (hL : Ledger C s) {b : GroupId} (hd : Decided s b) (hc : Clear C s h (some b)) :
    Clear C s h none := by
  intro y m hy hm
  refine .inl ?_
  obtain hm | ⟨g, hg, hbehind⟩ := hc y m hy hm
  · exact hm
  · cases hg
    exact hL.decided_of_behind hbehind hd

/-! ## Steps that change no group -/

theorem FileOk.of_same {e : Epoch} {f f' : DecisionFile} (hok : FileOk s e f) (hle : s.epochFile ≤ t.epochFile)
    (hgroup : t.group = s.group) (htotal : f'.records ++ t.pending e = f.records ++ s.pending e) : FileOk t e f' := by
  have hpreds : predsOf t = predsOf s := by
    funext g
    rw [predsOf, predsOf, hgroup]
  refine ⟨hok.epoch_pos, hok.epoch_le.trans hle, ?_, ?_⟩
  · rw [htotal, hgroup]
    exact hok.records
  · rw [htotal, hpreds]
    exact hok.ordered

/-- a step that leaves the groups and what is in flight alone, and only moves records from the queue to the file -/
structure Moves (s t : Host) : Prop where
  keeps : Keeps s t
  group : t.group = s.group
  inflight : t.coord.inflight = s.coord.inflight
  file : ∀ (e : Epoch) f', t.files[e]? = some f' → ∃ f, s.files[e]? = some f ∧
    f'.records ++ t.pending e = f.records ++ s.pending e
  log : t.coord.log ≠ none → s.coord.log ≠ none
  idle : t.coord.log = none → t.coord.closed = false → s.coord.log = none ∧ s.coord.closed = false
  down : t.up = false → t.coord = .opened

theorem Moves.grows (hm : Moves s t) : Grows s t :=
  hm.keeps.grows fun _ G hG => ⟨G, hm.group ▸ hG, rfl, rfl, Subset.refl _, Subset.refl _⟩

theorem Ledger.keep (hL : Ledger C s) (hm : Moves s t)
    (hbar : ∀ n b, (t.ns n).barrier = some b → (s.ns n).barrier = some b) : Ledger C t where
  groups g G hG := by
    rw [hm.group] at hG
    exact (hL.groups g G hG).keep hm.keeps (by rw [hm.inflight]; exact id)
  files e f' hf' := by
    obtain ⟨f, hf, htotal⟩ := hm.file e f' hf'
    exact (hL.files e f hf).of_same hm.keeps.epochFile hm.group htotal
  inflight g hg := by
    rw [hm.inflight] at hg
    rw [hm.group, hm.keeps.epoch]
    exact hL.inflight g hg
  coord_le := by
    rw [hm.keeps.epoch]
    exact hL.coord_le.trans hm.keeps.epochFile
  log_file hne := by
    obtain ⟨f, hf⟩ := hL.log_file (hm.log hne)
    obtain ⟨f', hf', -⟩ := hm.keeps.file _ f hf
    exact ⟨f', by rw [hm.keeps.epoch, hf']⟩
  idle hnone hopen := by
    obtain ⟨hnone', hopen'⟩ := hm.idle hnone hopen
    obtain ⟨hempty, hbarriers⟩ := hL.idle hnone' hopen'
    refine ⟨hm.inflight.trans hempty, ?_⟩
    intro n
    refine Option.eq_none_iff_forall_ne_some.2 ?_
    intro b hb
    exact absurd (hbar n b hb) (by simp [hbarriers n])
  barrier n b hb := by
    rw [hm.group, hm.keeps.epoch]
    exact hL.barrier n b (hbar n b hb)
  down := hm.down

/-- the ledger, and every namespace's log -/
structure Inv (C : Commits) (s : Host) : Prop where
  ledger : Ledger C s
  logs : ∀ n, Logs C s n (s.ns n)

theorem Inv.init (C : Commits) : Inv C Host.init := by
  refine ⟨⟨?_, ?_, ?_, ?_, ?_, ?_, ?_, ?_⟩, ?_⟩ <;>
    simp [Host.init, TxnCoordinator.opened]
  intro n
  refine ⟨?_, ?_, ?_, ?_, ?_, ?_, ?_⟩ <;> simp [Namespace.log, DepOrdered.nil]

theorem Keeps.setNs (s : Host) {N : Namespace} (hdisk : ∀ h, h ∈ (s.ns n).disk → h ∈ N.disk) :
    Keeps s (setNs s n N) where
  epochFile := le_rfl
  epoch := rfl
  failed := id
  epochs _ G hG := ⟨G, hG, rfl⟩
  file _ f hf := ⟨f, hf, Subset.refl _, Subset.refl _⟩
  absent _ := id
  disk m h hh := by
    by_cases hm : m = n
    · subst hm
      simpa [GroupCommit.setNs] using hdisk h hh
    · simpa [GroupCommit.setNs, hm] using hh

theorem Inv.setNs (hI : Inv C s) {N : Namespace} (hdisk : ∀ h, h ∈ (s.ns n).disk → h ∈ N.disk)
    (hbar : N.barrier = (s.ns n).barrier) (hlogs : Logs C s n N) : Inv C (setNs s n N) := by
  have hmoves : Moves s (GroupCommit.setNs s n N) :=
    ⟨Keeps.setNs s hdisk, rfl, rfl, fun _ f hf => ⟨f, hf, rfl⟩, id, fun h h' => ⟨h, h'⟩, hI.ledger.down⟩
  refine ⟨hI.ledger.keep hmoves ?_, ?_⟩
  · intro m b hb
    by_cases hm : m = n
    · subst hm
      rw [← hbar]
      simpa [GroupCommit.setNs] using hb
    · simpa [GroupCommit.setNs, hm] using hb
  · intro m
    by_cases hm : m = n
    · subst hm
      simpa [GroupCommit.setNs] using hlogs.grow hmoves.grows
    · simpa [GroupCommit.setNs, hm] using (hI.logs m).grow hmoves.grows

theorem Ledger.barrier_eq (hL : Ledger C s) (n : Ns) : s.barrier n = (s.ns n).barrier := by
  unfold Host.barrier
  cases hb : (s.ns n).barrier with
  | none => rfl
  | some b =>
    obtain ⟨G, hG, -, -, hne⟩ := hL.barrier n b hb
    simp [Host.settled, hG, hne]

/-- a commit joins the graph and the queue, under the barrier `b` -/
theorem Logs.queue {N : Namespace} (hN : Logs C s n N) {b : Option GroupId} {waiting : List (Hash × Option GroupId)}
    (hp : ∀ p ∈ C.graph.parents h, p ∈ N.graph)
    (hmark : ∀ m, C.marker h = some m → (∃ G, s.group m.group = some G ∧ G.epoch = m.epoch ∧ n ∈ G.parts ∧ n ∈ G.added)
      ∧ b = some m.group) (hbar : ∀ x ∈ N.graph, Clear C s x b) (hw : ∀ w ∈ waiting, w ∈ N.waiting ∨ w = (h, b)) :
    Logs C s n { N with graph := N.graph ++ [h], queue := N.queue ++ [h], barrier := b, waiting := waiting } := by
  have hh : Clear C s h b := by
    refine .of_parents (fun p hmem => hbar p (hp p hmem)) ?_
    intro m hm
    exact .inr ⟨m.group, (hmark m hm).2, .refl⟩
  have hlog : ∀ x, x ∈ N.disk ++ (N.queue ++ [h]) ↔ x ∈ N.log ∨ x = h := by
    simp [Namespace.log, or_assoc]
  refine ⟨?_, ?_, ?_, ?_, ?_, ?_, hN.acked_clear⟩
  · intro x hx m hm
    obtain hx | rfl := (hlog x).1 hx
    · exact hN.marked x hx m hm
    · exact (hmark m hm).1
  · have hord := hN.parents_first.concat fun p hmem => hN.graph_sub p (hp p hmem)
    simpa [Namespace.log] using hord
  · intro x hx
    refine (hlog x).2 ?_
    obtain hx | hx := mem_append.1 hx
    · exact .inl (hN.graph_sub x hx)
    · exact .inr (by simpa using hx)
  · intro x hx
    obtain hx | hx := mem_append.1 hx
    · exact hbar x hx
    · obtain rfl : x = h := by simpa using hx
      exact hh
  · intro x hx m hm
    obtain hx | rfl := (hlog x).1 hx
    · exact hN.part_clear x hx m hm
    · exact (hmark m hm).2 ▸ hh
  · intro w hmem
    obtain hmem | rfl := hw w hmem
    · exact ⟨(hlog _).2 (.inl (hN.waiting_clear w hmem).1), (hN.waiting_clear w hmem).2⟩
    · exact ⟨(hlog _).2 (.inr rfl), hh⟩

theorem parents_of_appendable (ha : s.appendable C n h = true) : ∀ p ∈ C.graph.parents h, p ∈ (s.ns n).graph := by
  simp only [Host.appendable, Bool.and_eq_true, all_eq_true, decide_eq_true_eq] at ha
  exact ha.2

theorem Inv.commit (hI : Inv C s) : Inv C (commit C s n h) := by
  unfold GroupCommit.commit
  split_ifs with hc
  · simp only [Bool.and_eq_true, decide_eq_true_eq] at hc
    refine hI.setNs (fun _ => id) rfl ((hI.logs n).queue (parents_of_appendable hc.1) ?_ (hI.logs n).graph_clear ?_)
    · intro m hm
      simp [hc.2] at hm
    · intro w hw
      rw [hI.ledger.barrier_eq n] at hw
      simpa using hw
  · exact hI

theorem Inv.flush (hI : Inv C s) (n : Ns) (k : ℕ) : Inv C (step C s (.flush n k)) := by
  have hlog : ((s.ns n).disk ++ (s.ns n).queue.take k) ++ (s.ns n).queue.drop k = (s.ns n).log := by
    rw [append_assoc, take_append_drop, Namespace.log]
  have hN := hI.logs n
  refine hI.setNs (fun _ hh => mem_append_left _ hh) rfl ⟨?_, ?_, ?_, hN.graph_clear, ?_, ?_, ?_⟩
  · simp only [Namespace.log, hlog]
    exact hN.marked
  · simp only [Namespace.log, hlog]
    exact hN.parents_first
  · simp only [Namespace.log, hlog]
    exact hN.graph_sub
  · simp only [Namespace.log, hlog]
    exact hN.part_clear
  · simp only [Namespace.log, hlog]
    exact hN.waiting_clear
  · intro x hx
    exact ⟨mem_append_left _ (hN.acked_clear x hx).1, (hN.acked_clear x hx).2⟩

theorem Ledger.decided_of_settled (hL : Ledger C s) (hs : s.settled g = true) : Decided s g := by
  unfold Host.settled at hs
  cases hG : s.group g with
  | none => simp [hG] at hs
  | some G =>
    have hphase : G.phase = .committed := by simpa [hG] using hs
    exact ⟨G, hG, (hL.groups g G hG).committed hphase⟩

theorem Inv.ack (hI : Inv C s) {b : Option GroupId} : Inv C (ack s n h b) := by
  simp only [GroupCommit.ack]
  split_ifs with hc
  · obtain ⟨hwait, hdisk, hset⟩ := hc
    have hN := hI.logs n
    refine hI.setNs (fun _ => id) rfl
      ⟨hN.marked, hN.parents_first, hN.graph_sub, hN.graph_clear, hN.part_clear, hN.waiting_clear, ?_⟩
    intro x hx
    obtain hx | hx := mem_append.1 hx
    · exact hN.acked_clear x hx
    · obtain rfl : x = h := by simpa using hx
      refine ⟨hdisk, ?_⟩
      have hclear := (hN.waiting_clear _ hwait).2
      cases b with
      | none => exact hclear
      | some b => exact hclear.settle hI.ledger (hI.ledger.decided_of_settled (by simpa using hset))
  · exact hI

/-! ## Steps of the decision log -/

theorem lt_nextEpoch (s : Host) : s.epochFile < nextEpoch s := by
  have hmax : s.epochFile ≤ s.files.keys.foldl max s.epochFile := le_foldl_max (.inl le_rfl)
  exact Nat.lt_succ_of_le (hmax.trans (le_max_left _ _))

section

variable (hI : Inv C s)
include hI

theorem Inv.coordinator (hns : t.ns = s.ns) (hm : Moves s t) : Inv C t := by
  refine ⟨hI.ledger.keep hm (fun n b hb => hns ▸ hb), ?_⟩
  intro n
  rw [hns]
  exact (hI.logs n).grow hm.grows

theorem Inv.writeEpoch : Inv C { s with epochFile := nextEpoch s } :=
  hI.coordinator rfl ⟨⟨(lt_nextEpoch s).le, rfl, id, fun _ G hG => ⟨G, hG, rfl⟩,
    fun _ f hf => ⟨f, hf, Subset.refl _, Subset.refl _⟩, fun _ => id, fun _ _ => id⟩, rfl, rfl,
    fun _ f hf => ⟨f, hf, rfl⟩, id, fun h h' => ⟨h, h'⟩, hI.ledger.down⟩

theorem Inv.closed (hup : s.up = true) : Inv C { s with coord := { s.coord with closed := true } } :=
  hI.coordinator rfl ⟨⟨le_rfl, rfl, id, fun _ G hG => ⟨G, hG, rfl⟩,
    fun _ f hf => ⟨f, hf, Subset.refl _, Subset.refl _⟩, fun _ => id, fun _ _ => id⟩, rfl, rfl,
    fun _ f hf => ⟨f, hf, rfl⟩, id, fun _ => nofun, fun h => by simp [hup] at h⟩

/-- files change by `φ`, which keeps the records -/
theorem Inv.rename {files : Std.ExtTreeMap Epoch DecisionFile compare}
    (hfiles : ∀ e : Epoch, files[e]? = s.files[e]? ∨ files[e]? = (s.files[e]?).map DecisionFile.renamed) :
    Inv C { s with files := files } := by
  have hsome : ∀ (e : Epoch) f, s.files[e]? = some f → ∃ f', files[e]? = some f' ∧ f'.records = f.records := by
    intro e f hf
    obtain h | h := hfiles e
    · exact ⟨f, h.trans hf, rfl⟩
    · exact ⟨f.renamed, by rw [h, hf, Option.map_some], rfl⟩
  have hnone : ∀ e : Epoch, s.files[e]? = none → files[e]? = none := by
    intro e hf
    obtain h | h := hfiles e
    · exact h.trans hf
    · rw [h, hf, Option.map_none]
  refine hI.coordinator rfl ⟨⟨le_rfl, rfl, id, fun _ G hG => ⟨G, hG, rfl⟩, ?_, hnone, fun _ _ => id⟩, rfl, rfl, ?_, id,
    fun h h' => ⟨h, h'⟩, hI.ledger.down⟩
  · intro e f hf
    obtain ⟨f', hf', hrec⟩ := hsome e f hf
    refine ⟨f', hf', hrec.symm ▸ Subset.refl _, ?_⟩
    rw [hrec]
    exact Subset.refl _
  · intro e f' hf'
    cases hf : s.files[e]? with
    | none => simp [hnone e hf] at hf'
    | some f =>
      obtain ⟨f'', hf'', hrec⟩ := hsome e f hf
      cases hf'.symm.trans hf''
      exact ⟨f, rfl, by rw [hrec]; rfl⟩

theorem Inv.markDead (e : Epoch) : Inv C { s with files := s.files.modify e DecisionFile.renamed } := by
  refine hI.rename ?_
  intro e'
  rw [Std.ExtTreeMap.getElem?_modify]
  split_ifs with heq
  · obtain rfl := Nat.compare_eq_eq.1 heq
    exact .inr rfl
  · exact .inl rfl

end

theorem writeRecords_file (s : Host) (records : List GroupId) (e : Epoch) :
    (writeRecords s records).files[e]? = if s.coord.epoch = e
      then (s.files[e]?).map fun f => { f with records := f.records ++ records } else s.files[e]? := by
  unfold writeRecords
  rw [Std.ExtTreeMap.getElem?_modify]
  by_cases he : s.coord.epoch = e
  · subst he
    simp
  · simp [he]

/-- the first records queued reach the file, the rest stay queued or, with the queue empty, the log is left -/
theorem Inv.write (hI : Inv C s) {q₁ q₂ : List GroupId} {log : Option (List GroupId)}
    (hq : s.coord.log = some (q₁ ++ q₂)) (hlog : log.getD [] = q₂) (hclosed : log = none → s.coord.closed = true) :
    Inv C { writeRecords s q₁ with coord := { s.coord with log := log } } := by
  have hpend : ∀ e : Epoch, s.coord.epoch = e →
      s.pending e = q₁ ++ q₂ ∧ Host.pending { writeRecords s q₁ with coord := { s.coord with log := log } } e = q₂ := by
    simp [Host.pending, hq, hlog]
  have hother : ∀ e : Epoch, s.coord.epoch ≠ e →
      s.pending e = [] ∧ Host.pending { writeRecords s q₁ with coord := { s.coord with log := log } } e = [] := by
    intro e he
    simp [Host.pending, Ne.symm he]
  refine hI.coordinator rfl ⟨⟨le_rfl, rfl, id, fun _ G hG => ⟨G, hG, rfl⟩, ?_, ?_, fun _ _ => id⟩, rfl, rfl, ?_, ?_, ?_, ?_⟩
  · intro e f hf
    have hfile := writeRecords_file s q₁ e
    by_cases he : s.coord.epoch = e
    · obtain ⟨h₁, h₂⟩ := hpend e he
      rw [if_pos he, hf] at hfile
      refine ⟨_, hfile, subset_append_left _ _, ?_⟩
      rw [h₁, h₂, ← append_assoc]
      exact Subset.refl _
    · obtain ⟨h₁, h₂⟩ := hother e he
      rw [if_neg he, hf] at hfile
      refine ⟨_, hfile, Subset.refl _, ?_⟩
      rw [h₁, h₂]
      exact Subset.refl _
  · intro e hf
    have hfile := writeRecords_file s q₁ e
    simpa [hf] using hfile
  · intro e f' hf'
    rw [writeRecords_file] at hf'
    by_cases he : s.coord.epoch = e
    · obtain ⟨h₁, h₂⟩ := hpend e he
      rw [if_pos he] at hf'
      obtain ⟨f, hf, rfl⟩ := Option.map_eq_some_iff.1 hf'
      refine ⟨f, hf, ?_⟩
      rw [h₁, h₂, append_assoc]
    · obtain ⟨h₁, h₂⟩ := hother e he
      rw [if_neg he] at hf'
      exact ⟨f', hf', by rw [h₁, h₂]⟩
  · simp [hq]
  · intro hnone hopen
    exact absurd (hclosed hnone) (by simpa using hopen)
  · intro hdown
    have := hI.ledger.down hdown
    simp [this, TxnCoordinator.opened] at hq

theorem Inv.flushDecisions (hI : Inv C s) (k : ℕ) : Inv C (flushDecisions s k) := by
  unfold GroupCommit.flushDecisions
  cases hq : s.coord.log with
  | none => exact hI
  | some q =>
    have hsplit : s.coord.log = some (q.take k ++ q.drop k) := by rw [hq, take_append_drop]
    exact hI.write hsplit rfl nofun

/-- nothing in flight and nothing failed: no group of the open epoch is unsettled, and no namespace has a barrier -/
theorem Ledger.quiet (hL : Ledger C s) (hin : s.coord.inflight = []) (hf : s.coord.failed = false) (hG : s.group g = some G)
    (he : G.epoch = s.coord.epoch) (hp : G.phase ≠ .committed) : G.added = [] ∧ G.phase = .failed := by
  have hok := hL.groups g G hG
  have hruns : ¬ (G.phase = .running ∨ G.phase = .queued) := by
    intro h
    simpa [hin] using hok.runs he h
  have hfailed : G.phase = .failed := by
    cases hphase : G.phase <;> simp_all
  refine ⟨?_, hfailed⟩
  by_contra hne
  simp [hok.failed he hfailed hne] at hf

theorem Ledger.quiet_barrier (hL : Ledger C s) (hin : s.coord.inflight = []) (hf : s.coord.failed = false) (n : Ns) :
    (s.ns n).barrier = none := by
  cases hb : (s.ns n).barrier with
  | none => rfl
  | some b =>
    obtain ⟨G, hG, he, hn, hp⟩ := hL.barrier n b hb
    simp [(hL.quiet hin hf hG he hp).1] at hn

theorem sealEpoch_file (s : Host) (e : Epoch) :
    (sealEpoch s).files[e]? = if s.coord.epoch = e then none else s.files[e]? := by
  unfold sealEpoch
  rw [Std.ExtTreeMap.getElem?_erase]
  simp

/-- **Sealing.** The open epoch's file goes once every group of the epoch with a part has committed. -/
theorem Inv.sealEpoch (hI : Inv C s) (hin : s.coord.inflight = []) (hf : s.coord.failed = false)
    (hlog : s.coord.log ≠ none) : Inv C (sealEpoch s) := by
  have hL := hI.ledger
  have hsub : ∀ (e : Epoch) f, (GroupCommit.sealEpoch s).files[e]? = some f → s.files[e]? = some f ∧ e ≠ s.coord.epoch := by
    intro e f he
    rw [sealEpoch_file] at he
    split at he
    · cases he
    · exact ⟨he, fun h => by simp_all⟩
  have hrec : ∀ m, Recorded s m → Recorded (GroupCommit.sealEpoch s) m := fun m hm f hf' => hm f (hsub _ f hf').1
  have hgrow : Grows s (GroupCommit.sealEpoch s) := by
    refine ⟨fun _ G hG => ⟨G, hG, rfl, rfl, Subset.refl _, Subset.refl _⟩, ?_⟩
    rintro g ⟨G, hG, hd⟩
    exact ⟨G, hG, fun f hf' => hd f (hsub _ f hf').1⟩
  refine ⟨⟨?_, ?_, hL.inflight, hL.coord_le, nofun, ?_, hL.barrier, ?_⟩, fun n => (hI.logs n).grow hgrow⟩
  · intro g G hG
    have hok := hL.groups g G hG
    refine ⟨hok.epoch_pos, hok.epoch_le, hok.runs, hok.failed, hok.preds, fun h => hrec _ (hok.committed h), ?_, ?_,
      hok.durable⟩
    · intro he hp
      simpa [hin] using hok.runs he (.inr hp)
    · intro hp ha
      by_cases he : G.epoch = s.coord.epoch
      · obtain ⟨hadd, hphase⟩ := hL.quiet hin hf hG he hp
        simp [hadd, hphase] at ha
      · obtain ⟨f, hfile⟩ := hok.unsettled hp ha
        exact ⟨f, by rw [sealEpoch_file, if_neg (Ne.symm he), hfile]⟩
  · intro e f he
    obtain ⟨hfile, hne⟩ := hsub e f he
    refine (hL.files e f hfile).of_same le_rfl rfl ?_
    rw [Host.pending, Host.pending, if_neg hne]
    exact congrArg _ (if_neg hne)
  · intro _ _
    exact ⟨hin, hL.quiet_barrier hin hf⟩
  · intro hdown
    simp [hL.down hdown, TxnCoordinator.opened] at hlog

theorem Inv.rollEpoch (hI : Inv C s) (roll : Bool) : Inv C (rollEpoch s roll) := by
  unfold GroupCommit.rollEpoch
  split_ifs with hc
  · simp only [Bool.and_eq_true, decide_eq_true_eq, Bool.not_eq_true'] at hc
    exact hI.sealEpoch hc.1.1.2 hc.1.2 (by simp [← Option.isSome_iff_ne_none, hc.2])
  · exact hI

theorem Inv.close (hI : Inv C s) : Inv C (close s) := by
  unfold GroupCommit.close
  split_ifs with hc
  · simp only [Bool.and_eq_true, Bool.not_eq_true'] at hc
    have hclosed := hI.closed hc.1
    cases hq : s.coord.log with
    | none => simpa [hq] using hclosed
    | some q =>
      simp only [hq]
      split
      · rename_i hquiet
        simp only [Bool.and_eq_true, decide_eq_true_eq, Bool.not_eq_true'] at hquiet
        exact hclosed.sealEpoch hquiet.1 hquiet.2 (by simp [hq])
      · have hsplit : s.coord.log = some (q ++ (none : Option (List GroupId)).getD []) := by
          rw [hq, Option.getD_none, append_nil]
        exact hclosed.write hsplit rfl fun _ => rfl
  · exact hI

theorem startEpoch_file (s : Host) (e : Epoch) :
    (startEpoch s).files[e]? = if nextEpoch s = e then some ⟨[], false⟩ else s.files[e]? := by
  unfold startEpoch
  rw [Std.ExtTreeMap.getElem?_insert]
  simp

theorem Inv.startEpoch (hI : Inv C s) (hlog : s.coord.log = none) (hopen : s.coord.closed = false)
    (hup : s.up = true) : Inv C (startEpoch s) := by
  have hL := hI.ledger
  obtain ⟨hin, hbar⟩ := hL.idle hlog hopen
  have hlt := lt_nextEpoch s
  have hsame : ∀ e : Epoch, e ≤ s.epochFile → (GroupCommit.startEpoch s).files[e]? = s.files[e]? := by
    intro e he
    rw [startEpoch_file, if_neg (he.trans_lt hlt).ne']
  have hpend : ∀ e : Epoch, (GroupCommit.startEpoch s).pending e = [] ∧ s.pending e = [] := by
    intro e
    constructor
    · unfold Host.pending
      split <;> rfl
    · simp [Host.pending, hlog]
  have hgrow : Grows s (GroupCommit.startEpoch s) := by
    refine ⟨fun _ G hG => ⟨G, hG, rfl, rfl, Subset.refl _, Subset.refl _⟩, ?_⟩
    rintro g ⟨G, hG, hd⟩
    refine ⟨G, hG, ?_⟩
    rw [hsame _ (hL.groups g G hG).epoch_le]
    exact hd
  refine ⟨⟨?_, ?_, ?_, le_rfl, ?_, nofun, ?_, ?_⟩, fun n => (hI.logs n).grow hgrow⟩
  · intro g G hG
    have hok := hL.groups g G hG
    have hle := hok.epoch_le
    have hne : G.epoch ≠ nextEpoch s := (hle.trans_lt hlt).ne
    refine ⟨hok.epoch_pos, hle.trans hlt.le, fun he => absurd he hne, fun he => absurd he hne, hok.preds, ?_,
      fun he => absurd he hne, ?_, hok.durable⟩
    · intro hp
      unfold Recorded
      rw [hsame _ hle]
      exact hok.committed hp
    · intro hp ha
      rw [hsame _ hle]
      exact hok.unsettled hp ha
  · intro e f hf
    by_cases he : nextEpoch s = e
    · rw [startEpoch_file, if_pos he] at hf
      cases hf
      refine ⟨he ▸ Nat.succ_pos _, he ▸ le_rfl, ?_, ?_⟩
      · simp [(hpend e).1]
      · simpa [(hpend e).1] using DepOrdered.nil _
    · rw [startEpoch_file, if_neg he] at hf
      exact (hL.files e f hf).of_same hlt.le rfl (by rw [(hpend e).1, (hpend e).2])
  · intro g hg
    simp [GroupCommit.startEpoch, hin] at hg
  · intro _
    exact ⟨_, (startEpoch_file s _).trans (if_pos rfl)⟩
  · intro n b hb
    simp [GroupCommit.startEpoch, hbar n] at hb
  · intro hdown
    simp [GroupCommit.startEpoch, hup] at hdown

/-! ## Steps of one group -/

/-- one group of the open epoch changes and no file does: the group only gains parts and predecessors -/
structure Changes (s t : Host) (g : GroupId) (G : TxnGroup) : Prop where
  group : t.group = Function.update s.group g (some G)
  current : G.epoch = s.coord.epoch
  old : ∀ G₀, s.group g = some G₀ →
    G.epoch = G₀.epoch ∧ G.parts = G₀.parts ∧ G₀.added ⊆ G.added ∧ G₀.preds ⊆ G.preds
  files : t.files = s.files
  epochFile : t.epochFile = s.epochFile
  epoch : t.coord.epoch = s.coord.epoch
  failed : s.coord.failed = true → t.coord.failed = true
  inflight : ∀ x, x ≠ g → (x ∈ t.coord.inflight ↔ x ∈ s.coord.inflight)
  log : t.coord.log = none ↔ s.coord.log = none
  pending : ∀ e, s.pending e ⊆ t.pending e
  closed : t.coord.closed = s.coord.closed
  up : t.up = true
  disk : ∀ n, (t.ns n).disk = (s.ns n).disk

section

variable (hc : Changes s t g G)
include hc

theorem Changes.other {x : GroupId} (hx : x ≠ g) : t.group x = s.group x := by
  rw [hc.group, Function.update_of_ne hx]

theorem Changes.self : t.group g = some G := by
  rw [hc.group, Function.update_self]

theorem Changes.gains (x : GroupId) (X : TxnGroup) (hX : s.group x = some X) :
    ∃ X', t.group x = some X' ∧ X'.epoch = X.epoch ∧ X'.parts = X.parts ∧ X.added ⊆ X'.added ∧ X.preds ⊆ X'.preds := by
  by_cases hx : x = g
  · subst hx
    exact ⟨G, hc.self, hc.old X hX⟩
  · exact ⟨X, (hc.other hx).trans hX, rfl, rfl, Subset.refl _, Subset.refl _⟩

theorem Changes.keeps : Keeps s t where
  epochFile := hc.epochFile.ge
  epoch := hc.epoch
  failed := hc.failed
  epochs x X hX := by
    obtain ⟨X', hX', he, -⟩ := hc.gains x X hX
    exact ⟨X', hX', he⟩
  file e f hf := by
    refine ⟨f, by rw [hc.files, hf], Subset.refl _, ?_⟩
    exact append_subset.2 ⟨subset_append_left _ _, Subset.trans (hc.pending e) (subset_append_right _ _)⟩
  absent e he := by rw [hc.files, he]
  disk n h hh := (hc.disk n).symm ▸ hh

theorem Changes.grows : Grows s t := hc.keeps.grows hc.gains

/-- the ledger after a step of one group, from what the step does to that group, the files and the barriers -/
theorem Changes.ledger (hL : Ledger C s) (hbusy : s.coord.log ≠ none ∨ s.coord.inflight ≠ []) (hG : GroupOk C t g G)
    (hin : g ∈ t.coord.inflight → G.phase = .running ∨ G.phase = .queued)
    (hfile : ∀ (e : Epoch) f, s.files[e]? = some f → FileOk t e f) (hbar : ∀ n b, (t.ns n).barrier = some b →
      (b ≠ g ∧ (s.ns n).barrier = some b) ∨ (b = g ∧ n ∈ G.added ∧ G.phase ≠ .committed)) : Ledger C t where
  groups x X hX := by
    by_cases hx : x = g
    · subst hx
      cases hc.self.symm.trans hX
      exact hG
    · exact (hL.groups x X ((hc.other hx).symm.trans hX)).keep hc.keeps (hc.inflight x hx).2
  files e f hf := hfile e f (by rw [← hc.files, hf])
  inflight x hmem := by
    by_cases hx : x = g
    · subst hx
      exact ⟨G, hc.self, hc.current.trans hc.epoch.symm, hin hmem⟩
    · rw [hc.other hx, hc.epoch]
      exact hL.inflight x ((hc.inflight x hx).1 hmem)
  coord_le := by
    rw [hc.epoch, hc.epochFile]
    exact hL.coord_le
  log_file hne := by
    rw [hc.files, hc.epoch]
    exact hL.log_file fun h => hne (hc.log.2 h)
  idle hnone hopen := by
    obtain ⟨hempty, -⟩ := hL.idle (hc.log.1 hnone) (hc.closed ▸ hopen)
    obtain h | h := hbusy
    · exact absurd (hc.log.1 hnone) h
    · exact absurd hempty h
  barrier n b hb := by
    obtain ⟨hne, hb⟩ | ⟨rfl, hn, hp⟩ := hbar n b hb
    · rw [hc.other hne, hc.epoch]
      exact hL.barrier n b hb
    · exact ⟨G, hc.self, hc.current.trans hc.epoch.symm, hn, hp⟩
  down hdown := by simp [hc.up] at hdown

/-- the files after a step of one group that queues no record: the group has none, or keeps what its record needs -/
theorem Changes.fileOk (hL : Ledger C s) (hpend : ∀ e, t.pending e = s.pending e)
    (hrec : ∀ G₀, s.group g = some G₀ → G₀.phase = .queued ∨ G₀.phase = .committed →
      (G.phase = .queued ∨ G.phase = .committed) ∧ G.preds = G₀.preds)
    (e : Epoch) (f : DecisionFile) (hf : s.files[e]? = some f) : FileOk t e f := by
  have hok := hL.files e f hf
  refine ⟨hok.epoch_pos, hc.epochFile ▸ hok.epoch_le, ?_, ?_⟩
  · intro x hx
    rw [hpend] at hx
    obtain ⟨X, hX, he, hp⟩ := hok.records x hx
    by_cases hxg : x = g
    · subst hxg
      exact ⟨G, hc.self, (hc.old X hX).1.trans he, (hrec X hX hp).1⟩
    · exact ⟨X, (hc.other hxg).trans hX, he, hp⟩
  · rw [hpend]
    refine hok.ordered.weaken ?_
    intro x hx
    obtain ⟨X, hX, -, hp⟩ := hok.records x hx
    by_cases hxg : x = g
    · subst hxg
      simp [predsOf, hX, hc.self, (hrec X hX hp).2]
    · simp [predsOf, hc.other hxg]

end

theorem Inv.register (hI : Inv C s) (hlog : s.coord.log ≠ none) (hup : s.up = true) (hg : s.group g = none)
    (parts : List Ns) : Inv C (register s g parts) := by
  have hL := hI.ledger
  have hc : Changes s (GroupCommit.register s g parts) g ⟨s.coord.epoch, parts, [], [], .running⟩ := by
    refine ⟨rfl, rfl, ?_, rfl, rfl, rfl, id, ?_, Iff.rfl, fun _ => Subset.refl _, rfl, hup, fun _ => rfl⟩
    · intro G₀ hG₀
      simp [hg] at hG₀
    · intro x hx
      simp [GroupCommit.register, setGroup, hx]
  obtain ⟨f, hf⟩ := hL.log_file hlog
  refine ⟨hc.ledger hL (.inl hlog) ⟨?_, hL.coord_le, ?_, ?_, ?_, ?_, ?_, ?_, ?_⟩ (fun _ => .inl rfl) ?_ ?_,
    fun n => (hI.logs n).grow hc.grows⟩
  · exact (hL.files _ f hf).epoch_pos
  · intro _ _
    exact .head _
  · simp
  · simp
  · simp
  · simp
  · intro _ _
    exact ⟨f, hf⟩
  · simp
  · refine hc.fileOk hL (fun _ => rfl) ?_
    intro G₀ hG₀
    simp [hg] at hG₀
  · intro n b hb
    refine .inl ⟨?_, hb⟩
    rintro rfl
    obtain ⟨G, hG, -⟩ := hL.barrier n b hb
    simp [hg] at hG

theorem Inv.begin (hI : Inv C s) (parts : List Ns) : Inv C (begin s g parts) := by
  unfold GroupCommit.begin
  split
  · rename_i hc
    simp only [Bool.and_eq_true, Bool.not_eq_true', Option.isNone_iff_eq_none] at hc
    obtain ⟨⟨hup, hopen⟩, hg⟩ := hc
    split
    · rename_i hnone
      exact (hI.startEpoch (by simpa using hnone) hopen hup).register nofun hup hg parts
    · rename_i hsome
      exact hI.register (by simpa using hsome) hup hg parts
  · exact hI

end Kdb.GroupCommit
