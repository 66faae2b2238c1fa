/-
Snapshots are consistent cuts (`Kdb.Server.NamespaceSnapshot`).

- `Ledger.snapStep`, `ledger_step`: every step keeps the ledger.
- `snapshot_consistent`: a snapshot has all of a group or nothing, and everything acknowledged before the call, when no
  part fails.
- `snapshot_sees_half_group`: a group whose second part fails leaves its first one behind a head.
-/
import Kdb.Server.SnapshotLedger

namespace Kdb.NamespaceSnapshot

open Function (update update_of_ne update_self)
open List

open Machine Script

variable {L B L' B' : Ns → List ℕ} {s s' : Host} {g i : ℕ} {G G' : Group} {S S' : Snap} {n m : Ns}

/-! ## Steps of a snapshot -/

/-- a step that is none of the groups' -/
theorem Ledger.other (hL : Ledger L B s) (me : Option Holder) (hme : ∀ g, some (.group g) ≠ me)
    (hlog : ∀ n, s.log n ⊆ s'.log n) (hstill : ∀ n i, s.gate n = some (.snapshot i) → s'.log n = s.log n)
    (hparts : ∀ g n, .part g ∈ s'.log n → .part g ∈ s.log n) (hgroups : s'.groups = s.groups)
    (hpub : s'.publishing = s.publishing) (hver : s'.version = s.version)
    (hgate : ∀ n who, some who ≠ me → s.gate n = some who → s'.gate n = some who)
    (hsnaps : ∀ i S, s'.snaps i = some S → (s.snaps i = some S ∧ some (.snapshot i) ≠ me) ∨ SnapOk B s' i S) :
    Ledger L B s' := by
  have hkeeps : Keeps me L B s L B s' :=
    ⟨hlog, hstill, fun _ => prefix_rfl, fun _ _ _ h => h, hgate,
      fun g G' hG' => .inr ⟨G', by rwa [hgroups] at hG', rfl⟩⟩
  refine hL.next hkeeps (fun n => by rw [hpub]; exact hL.publishing n) (fun n => by rw [hver]; exact hL.version n)
    (fun g G hG => .inl ⟨by rwa [hgroups] at hG, hme g⟩) (fun g n h => ?_) (fun g n h => ?_) hsnaps
  · rw [hgroups]
    exact hL.parts g n (hparts g n h)
  · rw [hgroups]
    exact hL.bumps g n h

/-- a step of a snapshot -/
theorem Ledger.moveSnap (hL : Ledger L B s) (hlog : s'.log = s.log) (hgroups : s'.groups = s.groups)
    (hpub : s'.publishing = s.publishing) (hver : s'.version = s.version)
    (hsnaps : s'.snaps = update s.snaps i (some S'))
    (hgate : ∀ n who, who ≠ .snapshot i → s.gate n = some who → s'.gate n = some who) (hok : SnapOk B s' i S') :
    Ledger L B s' := by
  refine hL.other (some (.snapshot i)) (by simp) (fun n => by rw [hlog]; exact Subset.refl _)
    (fun n _ _ => by rw [hlog]) (fun g n h => by rwa [hlog] at h) hgroups hpub hver
    (fun n who hwho => hgate n who fun h => hwho (by rw [h])) (fun k K hK => ?_)
  rw [hsnaps] at hK
  by_cases hki : k = i
  · subst hki
    rw [update_self] at hK
    cases hK
    exact .inr hok
  · rw [update_of_ne hki] at hK
    exact .inl ⟨hK, fun h => hki (Holder.snapshot.inj (Option.some.inj h))⟩

theorem Ledger.putSnap (hL : Ledger L B s) (hok : SnapOk B s i S') : Ledger L B (s.putSnap i S') := by
  have hkeeps : Keeps none L B s L B (s.putSnap i S') :=
    ⟨fun _ => Subset.refl _, fun _ _ _ => rfl, fun _ => prefix_rfl, fun _ _ _ h => h, fun _ _ _ h => h,
      fun _ G' hG' => .inr ⟨G', hG', rfl⟩⟩
  exact hL.moveSnap rfl rfl rfl rfl rfl (fun _ _ _ h => h) (hok.keep hkeeps hL (by simp))

theorem snapOk_begin (hnodup : S.names.Nodup) (hheads : S.heads = []) (hrest : S.rest = S.script) : SnapOk B s i S := by
  have hnone : ∀ e, e ∉ S.heads := fun e he => by
    rw [hheads] at he
    cases he
  refine ⟨hnodup, fun e he => absurd he (hnone e), fun _ n hn => .inl ?_, fun hg => ?_, fun hg => ?_⟩
  · rw [hrest]
    exact mem_script.2 hn
  · rw [Snap.script, hg] at hrest
    have hmem : ∀ n ∈ S.names, .version n ∈ S.rest ∧ .recheck n ∈ S.rest ∧ .reversion n ∈ S.rest := by
      intro n hn
      simp [hrest, spin, hn]
    exact ⟨hrest ▸ suffix_rfl, fun n hn => .inl (hmem n hn).1, fun e he => absurd he (hnone e),
      fun n hn => .inl (hmem n hn).2.1, fun n hn => .inl (hmem n hn).2.2⟩
  · rw [Snap.script, hg] at hrest
    refine ⟨hrest ▸ suffix_rfl, fun n hn _ => .inl ?_, fun e he => absurd he (hnone e),
      fun _ n _ g G _ _ e he => absurd he (hnone e)⟩
    simp [hrest, gated, hn]

section

variable (hS : SnapOk B s i S)
include hS

theorem SnapOk.retry (hg : S.gates = false) : SnapOk B s i S.retry := by
  rw [Snap.retry]
  split
  · exact snapOk_begin hS.nodup rfl (by simp [Snap.script, hg])
  · exact snapOk_begin hS.nodup rfl rfl

/-- an instruction that reads no head, without the gates -/
theorem SnapOk.pass (hg : S.gates = false) {j : Probe} {rest : List Probe} (hrest : S.rest = j :: rest)
    (hj : ∀ n, .head n ≠ j) {versions : Ns → ℕ} (hsame : S.heads = [] ∨ versions = S.versions)
    (hversions : ∀ n, .version n = j ∨ S.versions n ≤ (B n).length → versions n ≤ (B n).length)
    (hquiet : ∀ n ∈ S.names, .recheck n = j → Quiet B s n S.heads)
    (hstable : ∀ n ∈ S.names, .reversion n = j → Agree s n S.heads) :
    SnapOk B s i { S with rest := rest, versions := versions } := by
  have hsp := hS.spinning hg
  refine ⟨hS.nodup, fun e he => ?_, fun hf n hn => ?_, fun _ => ?_, fun h => ?_⟩
  · obtain ⟨hname, hread, hlog⟩ := hS.known e he
    exact ⟨hname, fun h => hread (mem_of_tail hrest h), hlog⟩
  · exact tail_or hrest (hS.read hf n hn) fun h => h.resolve_left (hj n)
  · refine ⟨suffix_of_cons (hrest ▸ hsp.suffix), fun n hn => tail_or hrest (hsp.versions n hn) (hversions n),
      fun e he => ?_, fun n hn => ?_, fun n hn => ?_⟩
    · rcases hsame with h | rfl
      · rw [h] at he
        cases he
      · exact hsp.after e he
    · exact tail_or hrest (hsp.quiet n hn) fun h => h.elim (hquiet n hn) id
    · exact tail_or hrest (hsp.stable n hn) fun h => h.elim (hstable n hn) id
  · rw [hg] at h
    cases h

/-- a gate is taken or given back -/
theorem SnapOk.passGate (hg : S.gates = true) {j : Probe} {rest : List Probe}
    (hrest : S.rest = j :: rest) (hj : ∀ n, .head n ≠ j) (hlog : s'.log = s.log) (hgroups : s'.groups = s.groups)
    (hheld : ∀ n, .acquire n = j ∨ s.gate n = some (.snapshot i) → .release n ∈ rest → s'.gate n = some (.snapshot i)) :
    SnapOk B s' i { S with rest := rest } := by
  have hga := hS.gated hg
  refine ⟨hS.nodup, fun e he => ?_, fun hf n hn => ?_, fun h => ?_, fun _ => ⟨suffix_of_cons (hrest ▸ hga.suffix),
    fun n hn h => tail_or hrest (hga.held n hn (mem_of_tail hrest h)) (hheld n · h), fun e he h => ?_, fun h n hn => ?_⟩⟩
  · obtain ⟨hname, hread, hknown⟩ := hS.known e he
    exact ⟨hname, fun h => hread (mem_of_tail hrest h), hlog ▸ hknown⟩
  · exact tail_or hrest (hS.read hf n hn) fun h => h.resolve_left (hj n)
  · rw [hg] at h
    cases h
  · rw [hlog]
    exact hga.current e he (mem_of_tail hrest h)
  · rw [Agree, hgroups]
    exact hga.agree (fun k hk hmem => h k hk (mem_tail hrest hmem (hj k))) n hn

/-- instructions of one mode only -/
theorem SnapOk.mode {j : Probe} (hj : j ∈ S.rest) :
    ((∃ n, j = .check n ∨ j = .version n ∨ j = .recheck n ∨ j = .reversion n) → S.gates = false) ∧
      ((∃ n, j = .acquire n ∨ j = .release n) → S.gates = true) := by
  constructor
  · rintro ⟨n, h⟩
    by_contra hg
    have hmem := (hS.gated (Bool.eq_true_of_not_eq_false hg)).suffix.subset hj
    rcases h with rfl | rfl | rfl | rfl <;> simp [NamespaceSnapshot.gated] at hmem
  · rintro ⟨n, h⟩
    by_contra hg
    have hmem := (hS.spinning (Bool.eq_false_of_not_eq_true hg)).suffix.subset hj
    rcases h with rfl | rfl <;> simp [spin] at hmem

theorem SnapOk.version (hL : Ledger L B s) {rest : List Probe} (hrest : S.rest = .version n :: rest) :
    SnapOk B s i { S with rest := rest, versions := update S.versions n (s.version n) } := by
  have hj : .version n ∈ S.rest := hrest ▸ (.head _)
  refine hS.pass ((hS.mode hj).1 ⟨n, by simp⟩) hrest (by simp) (.inl (hS.heads_nil hj rfl)) (fun m h => ?_) (by simp) (by simp)
  by_cases hmn : m = n
  · subst hmn
    rw [update_self, hL.version m]
  · rw [update_of_ne hmn]
    exact h.resolve_left fun h => hmn (Probe.version.inj h)

theorem SnapOk.head (hL : Ledger L B s) {rest : List Probe} (hrest : S.rest = .head n :: rest) :
    SnapOk B s i { S with rest := rest, heads := S.heads ++ [(n, s.log n)] } := by
  have hj : .head n ∈ S.rest := hrest ▸ (.head _)
  have hn : n ∈ S.names := mem_script.1 (hS.suffix.subset hj)
  have hstep : ∀ e ∈ S.heads ++ [(n, s.log n)], e ∈ S.heads ∨ e = (n, s.log n) := by
    simp
  have hread : .head n ∉ rest ∧ ∀ e ∈ S.heads, .head e.1 ∉ rest :=
    ⟨hS.ordered.notMem_tail (hrest ▸ hS.suffix), fun e he h => (hS.known e he).2.1 (mem_of_tail hrest h)⟩
  refine ⟨hS.nodup, fun e he => ?_, fun hf m hm => ?_, fun hg => ?_, fun hg => ?_⟩
  · rcases hstep e he with he | rfl
    · exact ⟨(hS.known e he).1, hread.2 e he, (hS.known e he).2.2⟩
    · exact ⟨hn, hread.1, Subset.refl _⟩
  · by_cases hmn : m = n
    · subst hmn
      exact .inr ⟨s.log m, mem_append_right _ mem_cons_self⟩
    · rcases hS.read hf m hm with h | ⟨h, hh⟩
      · exact .inl (mem_tail hrest h fun h => hmn (Probe.head.inj h))
      · exact .inr ⟨h, mem_append_left _ hh⟩
  · have hsp := hS.spinning hg
    have hord := spin_ordered hS.nodup
    refine ⟨suffix_of_cons (hrest ▸ hsp.suffix), fun m hm => ?_, fun e he m hm g hB G hG h1 => ?_, fun m hm => .inl ?_,
      fun m hm => .inl ?_⟩
    · exact (hsp.versions m hm).imp_left fun h => mem_tail hrest h (by simp)
    · rcases hstep e he with he | rfl
      · exact hsp.after e he m hm g hB G hG h1
      · exact hL.landed_of_bumped (mem_of_mem_take hB) hG h1
    · have hlater := hord.later hsp.suffix hj (by simp [spin, hm] : .recheck m ∈ spin S.names) (.inl (by simp [Probe.stage]))
      exact mem_tail hrest hlater (by simp)
    · have hlater := hord.later hsp.suffix hj (by simp [spin, hm] : .reversion m ∈ spin S.names) (.inl (by simp [Probe.stage]))
      exact mem_tail hrest hlater (by simp)
  · have hga := hS.gated hg
    have hord := gated_ordered hS.nodup
    have hrelease : ∀ m ∈ S.names, .release m ∈ S.rest := by
      intro m hm
      have hmem : .release m ∈ NamespaceSnapshot.gated S.names := by simp [NamespaceSnapshot.gated, hm]
      exact hord.later hga.suffix hj hmem (.inl (by simp [Probe.stage]))
    have hcurrent : ∀ e ∈ S.heads ++ [(n, s.log n)], e.1 ∈ S.names ∧ e.2 = s.log e.1 := by
      intro e he
      rcases hstep e he with he | rfl
      · exact ⟨(hS.known e he).1, hga.current e he (hrelease _ (hS.known e he).1)⟩
      · exact ⟨hn, rfl⟩
    have hgate : ∀ m ∈ S.names, s.gate m = some (.snapshot i) := by
      intro m hm
      refine (hga.held m hm (hrelease m hm)).resolve_left fun h => ?_
      exact hord.done (hrest ▸ hga.suffix) (.inl (by simp [Probe.stage])) (mem_tail hrest h (by simp))
    refine ⟨suffix_of_cons (hrest ▸ hga.suffix), fun m hm _ => .inr (hgate m hm), fun e he _ => (hcurrent e he).2, ?_⟩
    intro _ m _ g G hG _ e he e' he' h1 h2 hpart
    obtain ⟨hname, hlog⟩ := hcurrent e he
    rw [hlog] at hpart
    rw [(hcurrent e' he').2]
    exact hL.landed_of_gate hpart hG h1 (hgate _ hname) h2

end

/-- **One instruction of a snapshot.** -/
theorem Ledger.snapStep (hL : Ledger L B s) (hSn : s.snaps i = some S) : Ledger L B (snapStep s i S) := by
  have hS := hL.snaps i S hSn
  cases hrest : S.rest with
  | nil =>
    rw [NamespaceSnapshot.snapStep, hrest]
    exact hL
  | cons j rest =>
    have hj : j ∈ S.rest := hrest ▸ (.head _)
    rw [NamespaceSnapshot.snapStep, hrest]
    cases j with
    | check n =>
      have hg : S.gates = false := (hS.mode hj).1 ⟨n, by simp⟩
      refine hL.putSnap ?_
      split
      · exact hS.retry hg
      · exact hS.pass hg hrest (by simp) (.inr rfl) (by simp) (by simp) (by simp)
    | version n => exact hL.putSnap (hS.version hL hrest)
    | head n => exact hL.putSnap (hS.head hL hrest)
    | recheck n =>
      have hg : S.gates = false := (hS.mode hj).1 ⟨n, by simp⟩
      refine hL.putSnap ?_
      split_ifs with hquiet
      · exact hS.retry hg
      · refine hS.pass hg hrest (by simp) (.inr rfl) (by simp) (fun m hm hmn => ?_) (by simp)
        obtain rfl := Probe.recheck.inj hmn
        intro g G hG hpart e he hge
        exact hL.bumped_of_quiet ((hS.known e he).2.2 hge) hG hpart (not_not.1 hquiet)
    | reversion n =>
      have hg : S.gates = false := (hS.mode hj).1 ⟨n, by simp⟩
      have hsp := hS.spinning hg
      refine hL.putSnap ?_
      split_ifs with hsame
      · exact hS.retry hg
      · refine hS.pass hg hrest (by simp) (.inr rfl) (by simp) (by simp) (fun m hm hmn => ?_)
        obtain rfl := Probe.reversion.inj hmn
        intro g G hG hpart e he e' he' _ h2 hge
        have hquiet : Quiet B s m S.heads := by
          refine (hsp.quiet m hm).resolve_left fun h => ?_
          exact (spin_ordered hS.nodup).done (hrest ▸ hsp.suffix) (.inr ⟨m, rfl, rfl⟩) (mem_tail hrest h (by simp))
        -- nobody was counted since the version was loaded
        have hall : (B m).take (S.versions m) = B m := by
          rw [← not_not.1 hsame, hL.version m, take_length]
        exact hsp.after e' he' m hm g (hall.symm ▸ hquiet g G hG hpart e he hge) G hG h2
    | acquire n =>
      have hg : S.gates = true := (hS.mode hj).2 ⟨n, by simp⟩
      dsimp only
      split_ifs with hfree
      · refine hL.moveSnap rfl rfl rfl rfl rfl (fun m who _ h => ?_) (hS.passGate hg hrest (by simp) rfl rfl fun m h _ => ?_)
        · exact setGate_other (by simp [hfree]) h _
        · exact setGate_self (h.imp_left Probe.acquire.inj)
      · exact hL
    | release n =>
      have hg : S.gates = true := (hS.mode hj).2 ⟨n, by simp⟩
      have hga := hS.gated hg
      have hord := gated_ordered hS.nodup
      have hn : n ∈ S.names := by simpa [NamespaceSnapshot.gated] using hga.suffix.subset hj
      have hgate : s.gate n = some (.snapshot i) := by
        refine (hga.held n hn hj).resolve_left fun h => ?_
        exact hord.done (hrest ▸ hga.suffix) (.inl (by simp [Probe.stage])) (mem_tail hrest h (by simp))
      refine hL.moveSnap rfl rfl rfl rfl rfl (fun m who hwho h => ?_) (hS.passGate hg hrest (by simp) rfl rfl fun m h hlater => ?_)
      · exact setGate_other (fun h' => hwho (Option.some.inj (h'.symm.trans hgate))) h none
      · have hmn : m ≠ n := by
          rintro rfl
          exact hord.notMem_tail (hrest ▸ hga.suffix) hlater
        exact (update_of_ne hmn _ _).trans (h.resolve_left (by simp))

/-! ## Runs -/

theorem ledger_init : Ledger (fun _ => []) (fun _ => []) .init where
  publishing _ := rfl
  version _ := rfl
  groups _ _ h := by cases h
  parts _ _ h := by cases h
  bumps _ _ h := by cases h
  snaps _ _ h := by cases h

theorem Ledger.tell (hL : Ledger L B s) (acked : List (Ns × Entry)) : Ledger L B { s with acked := acked } :=
  hL.other none (by simp) (fun _ => Subset.refl _) (fun _ _ _ => rfl) (fun _ _ h => h) rfl rfl rfl
    (fun _ _ _ h => h) (fun _ _ hS => .inl ⟨hS, by simp⟩)

/-- **Every step keeps the ledger.** -/
theorem ledger_step (s : Host) (l : Label) (hsound : Sound s l) (h : ∃ L B, Ledger L B s) :
    ∃ L B, Ledger L B (step s l) := by
  obtain ⟨L, B, hL⟩ := h
  cases l with
  | begin g parts =>
    rw [step]
    split_ifs with hnew
    · set sorted := parts.insertionSort (· ≤ ·) with hsorted
      have hnodup : sorted.Nodup := (perm_insertionSort _ _).nodup_iff.2 hnew.2.2
      have hnone : ∀ {P : Group → Prop}, (∃ G, s.groups g = some G ∧ P G) → False := by
        rintro P ⟨G, hG, -⟩
        rw [hnew.1] at hG
        cases hG
      have hmem := fun (n : Ns) (hn : n ∈ sorted) => mem_commitGroup (G := ⟨sorted, commitGroup sorted, true⟩) hn
      refine ⟨L, B, hL.quiet rfl rfl rfl rfl (.inl hnew.1) hL.publishing (fun _ _ _ h => h) (fun _ _ _ h => h)
        ⟨hnodup, suffix_rfl, ?_, ?_, ?_, ?_, ?_⟩ (fun n h => (hnone (hL.parts g n h)).elim)
        (fun n h => (hnone (hL.bumps g n h)).elim)⟩
      · exact fun n hn _ => .inl (hmem n hn).1
      · exact fun n hn _ => .inl (hmem n hn).2.1
      · exact fun _ n hn => .inl (hmem n hn).2.2.2.1
      · exact fun _ n hn => .inl (hmem n hn).2.2.1
      · exact fun h => by cases h
    · exact ⟨L, B, hL⟩
  | group g o =>
    rw [step]
    cases hG : s.groups g with
    | none => exact ⟨L, B, hL⟩
    | some G => exact hL.groupStep hG (hsound G hG)
  | ackGroup g =>
    refine ⟨L, B, ?_⟩
    rw [step]
    split
    · exact hL
    · split
      · exact hL.tell _
      · exact hL
  | commit n id =>
    refine ⟨L, B, ?_⟩
    rw [step]
    split_ifs with hfree
    · refine hL.other none (by simp) (fun m x hx => (land_log s n m _ x).2 (.inl hx)) (fun m i h => ?_)
        (fun g m h => ?_) rfl rfl rfl (fun _ _ _ h => h) (fun _ _ hS => .inl ⟨hS, by simp⟩)
      · have hm : m ≠ n := by
          rintro rfl
          rw [hfree] at h
          cases h
        exact update_of_ne hm _ _
      · exact ((land_log s n m _ _).1 h).resolve_right (by simp)
    · exact hL
  | ackCommit n id =>
    refine ⟨L, B, ?_⟩
    rw [step]
    split
    · exact hL.tell _
    · exact hL
  | call i names =>
    refine ⟨L, B, ?_⟩
    rw [step]
    split
    · exact hL.putSnap (snapOk_begin (nodup_dedup _) rfl rfl)
    · exact hL
  | snap i =>
    refine ⟨L, B, ?_⟩
    rw [step]
    cases hS : s.snaps i with
    | none => exact hL
    | some S => exact hL.snapStep hS
  | giveUp i =>
    refine ⟨L, B, ?_⟩
    rw [step]
    cases hSn : s.snaps i with
    | none => exact hL
    | some S =>
      have hS := hL.snaps i S hSn
      dsimp only
      split_ifs with hwaits
      · obtain ⟨n, -, hhead⟩ := hwaits
        have hg : S.gates = true := (hS.mode (mem_of_head? hhead)).2 ⟨n, by simp⟩
        refine hL.moveSnap rfl rfl rfl rfl rfl (fun m who hwho h => ?_) ⟨hS.nodup, fun e he => absurd he not_mem_nil,
          fun hf => absurd hf (by simp), fun h => ?_, fun _ => ⟨nil_suffix, fun m _ h => absurd h not_mem_nil,
            fun e he => absurd he not_mem_nil, fun _ m _ g G _ _ e he => absurd he not_mem_nil⟩⟩
        · exact releaseAll_other hwho h
        · rw [hg] at h
          cases h
      · exact hL

/-! ## What was acknowledged -/

/-- what a step can do to heads, snapshots and acknowledgements: heads only move on, a snapshot has the heads it had and heads
read now, and what is acknowledged has landed -/
structure Moves (s t : Host) : Prop where
  log : ∀ n, s.log n ⊆ t.log n
  snaps : ∀ i S, s.snaps i = some S → ∃ S', t.snaps i = some S' ∧ S'.names = S.names ∧
    ∀ e ∈ S'.heads, e ∈ S.heads ∨ e.2 = s.log e.1
  acked : ∀ e ∈ t.acked, e ∈ s.acked ∨ e.2 ∈ s.log e.1 ∨
    ∃ g G, s.groups g = some G ∧ G.rest = [] ∧ G.ok ∧ e.1 ∈ G.parts ∧ e.2 = .part g

theorem Moves.of_snaps (hlog : ∀ n, s.log n ⊆ s'.log n) (hsnaps : s'.snaps = s.snaps) (hacked : s'.acked = s.acked) :
    Moves s s' :=
  ⟨hlog, fun _ S hS => ⟨S, hsnaps ▸ hS, rfl, fun _ he => .inl he⟩, fun _ he => .inl (hacked ▸ he)⟩

theorem Moves.refl (s : Host) : Moves s s := .of_snaps (fun _ => Subset.refl _) rfl rfl

theorem Moves.land (s : Host) (n : Ns) (e : Entry) : Moves s (s.land n e) :=
  .of_snaps (fun m x hx => (land_log s n m e x).2 (.inl hx)) rfl rfl

/-- a snapshot is put in the place of what it was -/
theorem Moves.putSnap (hlog : s'.log = s.log) (hsnaps : s'.snaps = s.snaps) (hacked : s'.acked = s.acked)
    (hS : ∀ S, s.snaps i = some S → S'.names = S.names ∧ ∀ e ∈ S'.heads, e ∈ S.heads ∨ e.2 = s.log e.1) :
    Moves s (s'.putSnap i S') := by
  refine ⟨fun n => congrFun hlog n ▸ Subset.refl _, fun k K hK => ?_, fun e he => .inl (hacked ▸ he)⟩
  by_cases hki : k = i
  · subst hki
    exact ⟨S', update_self _ _ _, hS K hK⟩
  · exact ⟨K, (update_of_ne hki _ _).trans (hsnaps ▸ hK), rfl, fun _ he => .inl he⟩

theorem moves_groupStep (s : Host) (g : ℕ) (G : Group) (o : Outcome) : Moves s (groupStep s g G o) := by
  have hsame : ∀ t : Host, t.log = s.log → t.snaps = s.snaps → t.acked = s.acked → Moves s t :=
    fun t hlog => .of_snaps fun n => congrFun hlog n ▸ Subset.refl _
  rw [groupStep]
  cases G.rest with
  | nil => exact .refl s
  | cons j rest =>
    cases j with
    | lock n =>
      dsimp only
      split
      · exact hsame _ rfl rfl rfl
      · split <;> exact hsame _ rfl rfl rfl
    | prepare =>
      dsimp only
      split <;> exact hsame _ rfl rfl rfl
    | apply n =>
      cases o with
      | fails => exact hsame _ rfl rfl rfl
      | ok | failsAppended => exact .of_snaps (Moves.land s n (.part g)).log rfl rfl
    | started n | bump n | finished n | unlock n => exact hsame _ rfl rfl rfl

theorem moves_snapStep (hSn : s.snaps i = some S) : Moves s (snapStep s i S) := by
  have hput : ∀ (t : Host) (S' : Snap), t.log = s.log → t.snaps = s.snaps → t.acked = s.acked → S'.names = S.names →
      (∀ e ∈ S'.heads, e ∈ S.heads ∨ e.2 = s.log e.1) → Moves s (t.putSnap i S') := by
    intro t S' hlog hsnaps hacked hnames hheads
    refine .putSnap hlog hsnaps hacked fun S₀ hS₀ => ?_
    cases hSn.symm.trans hS₀
    exact ⟨hnames, hheads⟩
  have hcheck : ∀ (c : Prop) [Decidable c] (rest : List Probe),
      Moves s (s.putSnap i (if c then S.retry else { S with rest := rest })) := by
    intro c _ rest
    split
    · rw [Snap.retry]
      split <;> exact hput s _ rfl rfl rfl rfl fun e he => by cases he
    · exact hput s _ rfl rfl rfl rfl fun e he => .inl he
  rw [snapStep]
  cases S.rest with
  | nil => exact .refl s
  | cons j rest =>
    cases j with
    | check n | recheck n | reversion n => exact hcheck _ rest
    | version n => exact hput s _ rfl rfl rfl rfl fun e he => .inl he
    | head n =>
      refine hput s _ rfl rfl rfl rfl (forall_mem_append.2 ⟨fun e he => .inl he, ?_⟩)
      exact forall_mem_singleton.2 (.inr rfl)
    | acquire n =>
      dsimp only
      split
      · exact hput _ _ rfl rfl rfl rfl fun e he => .inl he
      · exact .refl s
    | release n => exact hput _ _ rfl rfl rfl rfl fun e he => .inl he

/-- **What a step can do.** -/
theorem moves_step (s : Host) (l : Label) : Moves s (step s l) := by
  have hack : ∀ more : List (Ns × Entry), (∀ e ∈ more, e.2 ∈ s.log e.1 ∨
      ∃ g G, s.groups g = some G ∧ G.rest = [] ∧ G.ok ∧ e.1 ∈ G.parts ∧ e.2 = .part g) →
      Moves s { s with acked := s.acked ++ more } := fun more hmore =>
    ⟨(Moves.refl s).log, (Moves.refl s).snaps, forall_mem_append.2 ⟨fun e he => .inl he, fun e he => .inr (hmore e he)⟩⟩
  cases l with
  | begin g parts =>
    rw [step]
    split
    · exact .of_snaps (fun _ => Subset.refl _) rfl rfl
    · exact .refl s
  | group g o =>
    rw [step]
    cases s.groups g with
    | none => exact .refl s
    | some G => exact moves_groupStep s g G o
  | ackGroup g =>
    rw [step]
    cases hG : s.groups g with
    | none => exact .refl s
    | some G =>
      dsimp only
      split_ifs with hdone
      · exact hack _ (forall_mem_map.2 fun n hn => .inr ⟨g, G, hG, hdone.1, hdone.2, hn, rfl⟩)
      · exact .refl s
  | commit n id =>
    rw [step]
    split
    · exact .land s n _
    · exact .refl s
  | ackCommit n id =>
    rw [step]
    split
    · exact hack _ (forall_mem_singleton.2 (.inl ‹_›))
    · exact .refl s
  | call i names =>
    rw [step]
    split_ifs with hnew
    · refine .putSnap rfl rfl rfl fun S hS => ?_
      rw [hnew] at hS
      cases hS
    · exact .refl s
  | snap i =>
    rw [step]
    cases hS : s.snaps i with
    | none => exact .refl s
    | some S => exact moves_snapStep hS
  | giveUp i =>
    rw [step]
    cases hS : s.snaps i with
    | none => exact .refl s
    | some S =>
      dsimp only
      split
      · refine .putSnap rfl rfl rfl fun S₀ hS₀ => ?_
        cases hS.symm.trans hS₀
        exact ⟨rfl, fun e he => by cases he⟩
      · exact .refl s

/-- what holds from a call on: heads are read from what is there by then -/
def Since (s₁ : Host) (i : ℕ) (names : List Ns) (s : Host) : Prop :=
  (∀ n, s₁.log n ⊆ s.log n) ∧ ∃ S, s.snaps i = some S ∧ (∀ n ∈ names, n ∈ S.names) ∧ ∀ e ∈ S.heads, s₁.log e.1 ⊆ e.2

theorem since_step (s₁ : Host) (i : ℕ) (names : List Ns) (s : Host) (l : Label) (h : Since s₁ i names s) :
    Since s₁ i names (step s l) := by
  obtain ⟨hlog, S, hS, hnames, hheads⟩ := h
  have hm := moves_step s l
  obtain ⟨S', hS', hsame, hread⟩ := hm.snaps i S hS
  refine ⟨fun n => Subset.trans (hlog n) (hm.log n), S', hS', fun n hn => hsame ▸ hnames n hn, fun e he => ?_⟩
  rcases hread e he with he | he
  · exact hheads e he
  · rw [he]
    exact hlog e.1

/-- what was acknowledged has landed -/
theorem acked_step (s : Host) (l : Label) (hsound : Sound s l)
    (h : (∃ L B, Ledger L B s) ∧ ∀ e ∈ s.acked, e.2 ∈ s.log e.1) :
    (∃ L B, Ledger L B (step s l)) ∧ ∀ e ∈ (step s l).acked, e.2 ∈ (step s l).log e.1 := by
  obtain ⟨hex, hacked⟩ := h
  refine ⟨ledger_step s l hsound hex, fun e he => (moves_step s l).log e.1 ?_⟩
  obtain ⟨L, B, hL⟩ := hex
  rcases (moves_step s l).acked e he with he | he | ⟨g, G, hG, hrest, hok, hn, heq⟩
  · exact hacked e he
  · exact he
  · rw [heq]
    refine ((hL.groups g G hG).landed hok e.1 hn).resolve_left fun h => ?_
    rw [hrest] at h
    cases h

/-! ## The cut -/

theorem Ledger.agree (hL : Ledger L B s) (hSn : s.snaps i = some S) (hdone : S.done) (hn : n ∈ S.names) :
    Agree s n S.heads := by
  have hS := hL.snaps i S hSn
  have hnil : ∀ j : Probe, j ∉ S.rest := fun j => by rw [hdone.1]; exact not_mem_nil
  cases hg : S.gates with
  | false => exact ((hS.spinning hg).stable n hn).resolve_left (hnil _)
  | true => exact (hS.gated hg).agree (fun m _ => hnil _) n hn

/-- **A snapshot is a consistent cut.** In every interleaving of groups, commits and snapshots in which no part of a group
fails when it is applied: a snapshot that returns has a head for every namespace asked for, has every part of a group there
or none of it, and has everything that was acknowledged before the call. -/
theorem snapshot_consistent (ops₁ ops₂ : List Label) (i : ℕ) (names : List Ns) (S : Snap)
    (hsound : Along step Sound .init (ops₁ ++ .call i names :: ops₂)) (hnew : (run step .init ops₁).snaps i = none)
    (hS : (run step .init (ops₁ ++ .call i names :: ops₂)).snaps i = some S) (hdone : S.done) :
    (∀ n ∈ names, ∃ h, (n, h) ∈ S.heads) ∧
      (∀ g G, (run step .init (ops₁ ++ .call i names :: ops₂)).groups g = some G → ∀ e ∈ S.heads, ∀ e' ∈ S.heads,
        e.1 ∈ G.parts → e'.1 ∈ G.parts → (.part g ∈ e.2 ↔ .part g ∈ e'.2)) ∧
      ∀ e ∈ (run step .init ops₁).acked, ∀ h, (e.1, h) ∈ S.heads → e.2 ∈ h := by
  have hinit : (∃ L B, Ledger L B Host.init) ∧ ∀ e ∈ Host.init.acked, e.2 ∈ Host.init.log e.1 :=
    ⟨⟨_, _, ledger_init⟩, fun e he => by cases he⟩
  obtain ⟨⟨L, B, hL⟩, -⟩ := run_of_step acked_step hsound hinit
  obtain ⟨-, hacked⟩ := run_of_step acked_step ((along_append _ _ _ _ _).1 hsound).1 hinit
  have hsince : Since (run step .init ops₁) i names (run step .init (ops₁ ++ .call i names :: ops₂)) := by
    rw [run_append]
    refine run_of_step_all (since_step _ i names) ops₂ ?_
    rw [step, if_pos hnew]
    refine ⟨fun _ => Subset.refl _, _, update_self _ _ _, fun n hn => ?_, fun e he => by cases he⟩
    exact mem_dedup.2 ((mem_insertionSort _).2 hn)
  obtain ⟨-, S₀, hS₀, hnames, hheads⟩ := hsince
  cases hS.symm.trans hS₀
  have hok := hL.snaps i S hS
  refine ⟨fun n hn => ?_, fun g G hG e he e' he' h1 h2 => ⟨fun h => ?_, fun h => ?_⟩, fun e he h hh => ?_⟩
  · refine (hok.read hdone.2 n (hnames n hn)).resolve_left fun h => ?_
    rw [hdone.1] at h
    cases h
  · exact hL.agree hS hdone (hok.known e he).1 g G hG h1 e he e' he' h1 h2 h
  · exact hL.agree hS hdone (hok.known e he).1 g G hG h1 e' he' e he h2 h1 h
  · exact hheads (e.1, h) hh (hacked e he)

/-- a group over namespaces 0 and 1 that goes through -/
def wholeGroup : List Label := .begin 0 [1, 0] :: List.replicate 13 (.group 0 .ok)

/-- the group is acknowledged, another one has landed in namespace 0 and not yet in 1 -/
def before : List Label :=
  wholeGroup ++ [.ackGroup 0, .commit 1 7, .begin 1 [0, 1]] ++ List.replicate 6 (.group 1 .ok)

/-- the snapshot finds namespace 0 being published, the group goes through, and the next attempt succeeds -/
def during : List Label := [.snap 0] ++ List.replicate 7 (.group 1 .ok) ++ List.replicate 10 (.snap 0)

def seen : Option Snap := (run step .init (before ++ .call 0 [1, 0, 1] :: during)).snaps 0

theorem seen_isSome : seen.isSome := by decide +kernel

theorem snapshot_consistent_seen :
    (seen.get seen_isSome).heads = [(0, [.part 0, .part 1]), (1, [.part 0, .commit 7, .part 1])] ∧
      (∀ n ∈ [1, 0, 1], ∃ h, (n, h) ∈ (seen.get seen_isSome).heads) ∧
      ∀ e ∈ (run step .init before).acked, ∀ h, (e.1, h) ∈ (seen.get seen_isSome).heads → e.2 ∈ h := by
  have h := snapshot_consistent before during 0 [1, 0, 1] (seen.get seen_isSome) (by decide +kernel) (by decide +kernel)
    (Option.some_get seen_isSome).symm (by decide +kernel)
  exact ⟨by decide +kernel, h.1, h.2.2⟩

/-- a group over namespaces 0 and 1 whose second part fails -/
def halfGroup : List Label :=
  .begin 0 [0, 1] :: List.replicate 6 (.group 0 .ok) ++ [.group 0 .fails] ++ List.replicate 6 (.group 0 .ok)

/-- a group over namespaces 0 and 1 whose first part is appended and then fails -/
def abandonedGroup : List Label :=
  .begin 0 [0, 1] :: List.replicate 5 (.group 0 .ok) ++ [.group 0 .failsAppended] ++ List.replicate 6 (.group 0 .ok)

/-- the group is over, and a snapshot called then has its part in namespace 0 and not the one in namespace 1 -/
def SeesHalf (past : List Label) : Prop :=
  ((run step .init past).groups 0).map (fun G => (G.parts, G.rest)) = some ([0, 1], []) ∧
    ((run step .init (past ++ .call 0 [0, 1] :: List.replicate 10 (.snap 0))).snaps 0).map (fun S => (decide S.done, S.heads)) =
      some (true, [(0, [.part 0]), (1, [])])
  deriving Decidable

/-- **Half a group.** The group is over before the snapshot is called. -/
theorem snapshot_sees_half_group : SeesHalf halfGroup ∧ SeesHalf abandonedGroup := by decide +kernel

end Kdb.NamespaceSnapshot
