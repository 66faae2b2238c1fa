/-
What groups and snapshots of `Kdb.Server.NamespaceSnapshot` rely on while they run.

The two counters of a namespace count groups: those that publish into it (`L`) and those that have (`B`, in order).
- `Ledger`: the counters, what each group has done by what is left of its script, and what each snapshot knows.
- `Ledger.bumped_of_quiet`, `Ledger.landed_of_bumped`, `Ledger.landed_of_gate`: what the counters and the gates say of a
  group that has landed somewhere.
- `Keeps`: what a step leaves alone, and that groups and snapshots other than the one that steps are as before.
- `Ledger.groupStep`: one instruction of a group.
-/
import Kdb.Server.NamespaceSnapshot

namespace Kdb.NamespaceSnapshot

open Function (update update_of_ne update_self)
open List

open Script

/-! ## What a group keeps -/

variable {L B L' B' : Ns → List ℕ} {s s' : Host} {g i : ℕ} {G G' : Group} {S S' : Snap} {n m : Ns}

/-- a group by what is left of its script. `L n` are the groups that publish into `n`, `B n` those that have, in order. -/
structure GroupOk (L B : Ns → List ℕ) (s : Host) (g : ℕ) (G : Group) : Prop where
  nodup : G.parts.Nodup
  suffix : G.rest <:+ commitGroup G.parts
  held : ∀ n ∈ G.parts, .unlock n ∈ G.rest → .lock n ∈ G.rest ∨ s.gate n = some (.group g)
  opened : ∀ n ∈ G.parts, .finished n ∈ G.rest → .started n ∈ G.rest ∨ g ∈ L n
  bumped : G.ok → ∀ n ∈ G.parts, .bump n ∈ G.rest ∨ g ∈ B n
  landed : G.ok → ∀ n ∈ G.parts, .apply n ∈ G.rest ∨ .part g ∈ s.log n
  refused : G.ok = false → G.rest = []

theorem GroupOk.ordered (hG : GroupOk L B s g G) : Ordered Instr.Before (commitGroup G.parts) := commitGroup_ordered hG.nodup

theorem mem_commitGroup (hn : n ∈ G.parts) :
    .lock n ∈ commitGroup G.parts ∧ .started n ∈ commitGroup G.parts ∧ .apply n ∈ commitGroup G.parts ∧
      .bump n ∈ commitGroup G.parts ∧ .finished n ∈ commitGroup G.parts ∧ .unlock n ∈ commitGroup G.parts := by
  simp [commitGroup, closing, hn]

variable {j : Instr} {me : Option Holder} {heads : List (Ns × List Entry)} {rest : List Instr}

section

variable (hG : GroupOk L B s g G) (hrest : G.rest = j :: rest)
include hG hrest

theorem GroupOk.mem_parts (h : j = .apply n ∨ j = .finished n ∨ j = .unlock n) : n ∈ G.parts := by
  have hj : j ∈ commitGroup G.parts := hG.suffix.subset (hrest ▸ .head _)
  rcases h with rfl | rfl | rfl <;> simpa [commitGroup, closing] using hj

theorem GroupOk.stage_le : ∀ k ∈ G.rest, j.stage ≤ k.stage := by
  intro k hk
  rw [hrest] at hk
  rcases mem_cons.1 hk with rfl | hk
  · exact le_rfl
  · exact not_lt.1 fun h => hG.ordered.done (hrest ▸ hG.suffix) (.inl h) hk

theorem GroupOk.ok_of_rest : G.ok := by
  by_contra hok
  have hnil := hG.refused (Bool.eq_false_iff.2 hok)
  rw [hrest] at hnil
  cases hnil

/-- a group that has done its next instruction -/
theorem GroupOk.tail (hheld : ∀ n, .lock n = j ∨ s.gate n = some (.group g) → .unlock n ∈ rest → s'.gate n = some (.group g))
    (hopened : ∀ n, .started n = j ∨ g ∈ L n → .finished n ∈ rest → g ∈ L' n)
    (hbumped : ∀ n, .bump n = j ∨ g ∈ B n → g ∈ B' n)
    (hlanded : ∀ n, .apply n = j ∨ .part g ∈ s.log n → .part g ∈ s'.log n) :
    GroupOk L' B' s' g { G with rest := rest } where
  nodup := hG.nodup
  suffix := suffix_of_cons (hrest ▸ hG.suffix)
  held n hn h := tail_or hrest (hG.held n hn (mem_of_tail hrest h)) (hheld n · h)
  opened n hn h := tail_or hrest (hG.opened n hn (mem_of_tail hrest h)) (hopened n · h)
  bumped hok n hn := tail_or hrest (hG.bumped hok n hn) (hbumped n)
  landed hok n hn := tail_or hrest (hG.landed hok n hn) (hlanded n)
  refused hok := absurd (hG.ok_of_rest hrest) (Bool.eq_false_iff.1 hok)

end

/-! ## What a snapshot keeps -/

/-- the heads have all parts or none of every group with a part in `n` -/
def Agree (s : Host) (n : Ns) (heads : List (Ns × List Entry)) : Prop :=
  ∀ g G, s.groups g = some G → n ∈ G.parts → ∀ e ∈ heads, ∀ e' ∈ heads, e.1 ∈ G.parts → e'.1 ∈ G.parts →
    .part g ∈ e.2 → .part g ∈ e'.2

/-- every group with a part in `n` that the heads have a part of is through with `n` -/
def Quiet (B : Ns → List ℕ) (s : Host) (n : Ns) (heads : List (Ns × List Entry)) : Prop :=
  ∀ g G, s.groups g = some G → n ∈ G.parts → ∀ e ∈ heads, .part g ∈ e.2 → g ∈ B n

/-- a snapshot without the gates -/
structure Spinning (B : Ns → List ℕ) (s : Host) (S : Snap) : Prop where
  suffix : S.rest <:+ spin S.names
  versions : ∀ n ∈ S.names, .version n ∈ S.rest ∨ S.versions n ≤ (B n).length
  -- groups that were through with `n` when its version was loaded are in every head read since
  after : ∀ e ∈ S.heads, ∀ n ∈ S.names, ∀ g ∈ (B n).take (S.versions n), ∀ G, s.groups g = some G → e.1 ∈ G.parts →
    .part g ∈ e.2
  quiet : ∀ n ∈ S.names, .recheck n ∈ S.rest ∨ Quiet B s n S.heads
  stable : ∀ n ∈ S.names, .reversion n ∈ S.rest ∨ Agree s n S.heads

structure Gated (s : Host) (i : ℕ) (S : Snap) : Prop where
  suffix : S.rest <:+ gated S.names
  held : ∀ n ∈ S.names, .release n ∈ S.rest → .acquire n ∈ S.rest ∨ s.gate n = some (.snapshot i)
  current : ∀ e ∈ S.heads, .release e.1 ∈ S.rest → e.2 = s.log e.1
  agree : (∀ n ∈ S.names, .head n ∉ S.rest) → ∀ n ∈ S.names, Agree s n S.heads

structure SnapOk (B : Ns → List ℕ) (s : Host) (i : ℕ) (S : Snap) : Prop where
  nodup : S.names.Nodup
  known : ∀ e ∈ S.heads, e.1 ∈ S.names ∧ .head e.1 ∉ S.rest ∧ e.2 ⊆ s.log e.1
  read : S.failed = false → ∀ n ∈ S.names, .head n ∈ S.rest ∨ ∃ h, (n, h) ∈ S.heads
  spinning : S.gates = false → Spinning B s S
  gated : S.gates = true → Gated s i S

/-- the whole -/
structure Ledger (L B : Ns → List ℕ) (s : Host) : Prop where
  publishing : ∀ n, s.publishing n = (L n).length
  version : ∀ n, s.version n = (B n).length
  groups : ∀ g G, s.groups g = some G → GroupOk L B s g G
  parts : ∀ g n, .part g ∈ s.log n → ∃ G, s.groups g = some G ∧ G.ok ∧ ∀ j ∈ G.rest, 3 ≤ j.stage
  bumps : ∀ g n, g ∈ B n → ∃ G, s.groups g = some G ∧ G.ok ∧ ∀ j ∈ G.rest, 4 ≤ j.stage
  snaps : ∀ i S, s.snaps i = some S → SnapOk B s i S

section

variable (hL : Ledger L B s)
include hL

theorem Ledger.of_part (hG : s.groups g = some G) (h : .part g ∈ s.log n) : G.ok ∧ ∀ j ∈ G.rest, 3 ≤ j.stage := by
  obtain ⟨G₀, hG₀, hstage⟩ := hL.parts g n h
  rwa [Option.some.inj (hG.symm.trans hG₀)]

theorem Ledger.of_bump (hG : s.groups g = some G) (h : g ∈ B n) : G.ok ∧ ∀ j ∈ G.rest, 4 ≤ j.stage := by
  obtain ⟨G₀, hG₀, hstage⟩ := hL.bumps g n h
  rwa [Option.some.inj (hG.symm.trans hG₀)]

theorem Ledger.landed_of_bumped (hg : g ∈ B n) (hG : s.groups g = some G) (hm : m ∈ G.parts) : .part g ∈ s.log m := by
  obtain ⟨hok, hstage⟩ := hL.of_bump hG hg
  refine ((hL.groups g G hG).landed hok m hm).resolve_left fun h => ?_
  exact absurd (hstage _ h) (by simp [Instr.stage])

/-- a group with a part landed that does not publish into `n` is through with `n` -/
theorem Ledger.bumped_of_quiet (hpart : .part g ∈ s.log m) (hG : s.groups g = some G)
    (hn : n ∈ G.parts) (hquiet : s.publishing n = 0) : g ∈ B n := by
  obtain ⟨hok, hstage⟩ := hL.of_part hG hpart
  have hgo := hL.groups g G hG
  have hempty : L n = [] := by
    have hlen := hL.publishing n
    rw [hquiet] at hlen
    exact length_eq_zero_iff.1 (by exact_mod_cast hlen.symm)
  rcases hgo.bumped hok n hn with h | h
  · -- its `finished` is still to come, so the counter is not 0
    have hfin := hgo.ordered.later hgo.suffix h (mem_commitGroup hn).2.2.2.2.1 (.inr ⟨n, rfl, rfl⟩)
    rcases hgo.opened n hn hfin with h | h
    · exact absurd (hstage _ h) (by simp [Instr.stage])
    · rw [hempty] at h
      cases h
  · exact h

/-- a group with a part landed in a namespace whose gate a snapshot has, has landed everywhere -/
theorem Ledger.landed_of_gate (hpart : .part g ∈ s.log m) (hG : s.groups g = some G)
    (hm : m ∈ G.parts) (hgate : s.gate m = some (.snapshot i)) (hn : n ∈ G.parts) : .part g ∈ s.log n := by
  obtain ⟨hok, hstage⟩ := hL.of_part hG hpart
  have hgo := hL.groups g G hG
  rcases hgo.landed hok n hn with h | h
  · have hunlock := hgo.ordered.later hgo.suffix h (mem_commitGroup hm).2.2.2.2.2 (.inl (by simp [Instr.stage]))
    rcases hgo.held m hm hunlock with h | h
    · exact absurd (hstage _ h) (by simp [Instr.stage])
    · rw [hgate] at h
      cases h
  · exact h

end

/-! ## What a step leaves alone -/

/-- a step of `me` leaves what others rely on -/
structure Keeps (me : Option Holder) (L B : Ns → List ℕ) (s : Host) (L' B' : Ns → List ℕ) (s' : Host) : Prop where
  log : ∀ n, s.log n ⊆ s'.log n
  still : ∀ n i, s.gate n = some (.snapshot i) → s'.log n = s.log n
  bumps : ∀ n, B n <+: B' n
  opened : ∀ n g, some (.group g) ≠ me → g ∈ L n → g ∈ L' n
  gate : ∀ n who, some who ≠ me → s.gate n = some who → s'.gate n = some who
  groups : ∀ g G', s'.groups g = some G' → s.groups g = none ∨ ∃ G, s.groups g = some G ∧ G.parts = G'.parts

theorem GroupOk.keep (hG : GroupOk L B s g G) (hk : Keeps me L B s L' B' s') (hme : some (.group g) ≠ me) :
    GroupOk L' B' s' g G where
  nodup := hG.nodup
  suffix := hG.suffix
  held n hn h := (hG.held n hn h).imp_right (hk.gate n _ hme)
  opened n hn h := (hG.opened n hn h).imp_right (hk.opened n g hme)
  bumped hok n hn := (hG.bumped hok n hn).imp_right fun h => (hk.bumps n).subset h
  landed hok n hn := (hG.landed hok n hn).imp_right fun h => hk.log n h
  refused := hG.refused

section

variable (hk : Keeps me L B s L' B' s')
include hk

/-- a group the heads have a part of was there before the step -/
theorem Keeps.group_of_part (hL : Ledger L B s) (hpart : .part g ∈ s.log n)
    (hG' : s'.groups g = some G') : ∃ G, s.groups g = some G ∧ G.parts = G'.parts := by
  obtain ⟨G, hG, -⟩ := hL.parts g n hpart
  rcases hk.groups g G' hG' with h | h
  · rw [hG] at h
    cases h
  · exact h

theorem Agree.keep (hL : Ledger L B s) (hknown : ∀ e ∈ heads, e.2 ⊆ s.log e.1) (h : Agree s n heads) : Agree s' n heads := by
  intro g G' hG' hn e he e' he' h1 h2 hpart
  obtain ⟨G, hG, hparts⟩ := hk.group_of_part hL (hknown e he hpart) hG'
  rw [← hparts] at hn h1 h2
  exact h g G hG hn e he e' he' h1 h2 hpart

theorem Quiet.keep (hL : Ledger L B s) (hknown : ∀ e ∈ heads, e.2 ⊆ s.log e.1)
    (h : Quiet B s n heads) : Quiet B' s' n heads := by
  intro g G' hG' hn e he hpart
  obtain ⟨G, hG, hparts⟩ := hk.group_of_part hL (hknown e he hpart) hG'
  exact (hk.bumps n).subset (h g G hG (hparts ▸ hn) e he hpart)

end

/-- the instructions of an attempt -/
def Snap.script (S : Snap) : List Probe := if S.gates then gated S.names else spin S.names

theorem mem_script : .head n ∈ S.script ↔ n ∈ S.names := by
  unfold Snap.script
  split <;> simp [gated, spin]

section

variable (hS : SnapOk B s i S)
include hS

theorem SnapOk.suffix : S.rest <:+ S.script := by
  unfold Snap.script
  split
  · exact (hS.gated ‹_›).suffix
  · exact (hS.spinning (Bool.eq_false_of_not_eq_true ‹_›)).suffix

theorem SnapOk.ordered : Ordered Probe.Before S.script := by
  unfold Snap.script
  split
  · exact gated_ordered hS.nodup
  · exact spin_ordered hS.nodup

theorem SnapOk.heads_nil {j : Probe} (hj : j ∈ S.rest) (hstage : j.stage = 0) : S.heads = [] := by
  apply eq_nil_iff_forall_not_mem.2
  intro e he
  obtain ⟨hname, hread, -⟩ := hS.known e he
  exact hread (hS.ordered.later hS.suffix hj (mem_script.2 hname) (.inl (hstage.trans_lt Nat.one_pos)))

theorem SnapOk.keep (hk : Keeps me L B s L' B' s') (hL : Ledger L B s) (hme : some (.snapshot i) ≠ me) :
    SnapOk B' s' i S := by
  have hknown : ∀ e ∈ S.heads, e.2 ⊆ s.log e.1 := fun e he => (hS.known e he).2.2
  refine ⟨hS.nodup, fun e he => ?_, hS.read, fun hg => ?_, fun hg => ?_⟩
  · obtain ⟨hname, hread, hlog⟩ := hS.known e he
    exact ⟨hname, hread, Subset.trans hlog (hk.log e.1)⟩
  · have hsp := hS.spinning hg
    refine ⟨hsp.suffix, fun n hn => ?_, fun e he n hn g hg G' hG' h1 => ?_, fun n hn => ?_, fun n hn => ?_⟩
    · exact (hsp.versions n hn).imp_right fun h => h.trans (hk.bumps n).length_le
    · rcases hsp.versions n hn with h | h
      · rw [hS.heads_nil h rfl] at he
        cases he
      · -- the groups counted then are the same
        obtain ⟨more, hmore⟩ := hk.bumps n
        rw [← hmore, take_append_of_le_length h] at hg
        obtain ⟨G, hG, -⟩ := hL.bumps g n (mem_of_mem_take hg)
        rcases hk.groups g G' hG' with h | ⟨G₀, hG₀, hparts⟩
        · rw [hG] at h
          cases h
        · exact hsp.after e he n hn g hg G₀ hG₀ (hparts ▸ h1)
    · exact (hsp.quiet n hn).imp_right (Quiet.keep hk hL hknown)
    · exact (hsp.stable n hn).imp_right (Agree.keep hk hL hknown)
  · have hga := hS.gated hg
    refine ⟨hga.suffix, fun n hn h => ?_, fun e he h => ?_, fun h n hn => ?_⟩
    · exact (hga.held n hn h).imp_right (hk.gate n _ hme)
    · obtain ⟨hname, -, -⟩ := hS.known e he
      rcases hga.held e.1 hname h with ha | ha
      · rw [hS.heads_nil ha rfl] at he
        cases he
      · rw [hk.still e.1 i ha]
        exact hga.current e he h
    · exact (hga.agree h n hn).keep hk hL hknown

end

/-- the ledger after a step of `me`, from what the step did to `me` -/
theorem Ledger.next (hL : Ledger L B s) (hk : Keeps me L B s L' B' s') (hpub : ∀ n, s'.publishing n = (L' n).length)
    (hver : ∀ n, s'.version n = (B' n).length)
    (hgroups : ∀ g G, s'.groups g = some G → (s.groups g = some G ∧ some (.group g) ≠ me) ∨ GroupOk L' B' s' g G)
    (hparts : ∀ g n, .part g ∈ s'.log n → ∃ G, s'.groups g = some G ∧ G.ok ∧ ∀ j ∈ G.rest, 3 ≤ j.stage)
    (hbumps : ∀ g n, g ∈ B' n → ∃ G, s'.groups g = some G ∧ G.ok ∧ ∀ j ∈ G.rest, 4 ≤ j.stage)
    (hsnaps : ∀ i S, s'.snaps i = some S → (s.snaps i = some S ∧ some (.snapshot i) ≠ me) ∨ SnapOk B' s' i S) :
    Ledger L' B' s' where
  publishing := hpub
  version := hver
  groups g G hG := by
    rcases hgroups g G hG with ⟨h, hme⟩ | h
    · exact (hL.groups g G h).keep hk hme
    · exact h
  parts := hparts
  bumps := hbumps
  snaps i S hS := by
    rcases hsnaps i S hS with ⟨h, hme⟩ | h
    · exact (hL.snaps i S h).keep hk hL hme
    · exact h

/-- a step of a group -/
theorem Ledger.moveGroup (hL : Ledger L B s) (hk : Keeps (some (.group g)) L B s L' B' s')
    (hpub : ∀ n, s'.publishing n = (L' n).length) (hver : ∀ n, s'.version n = (B' n).length)
    (hgroups : s'.groups = update s.groups g (some G')) (hsnaps : s'.snaps = s.snaps)
    (hok : GroupOk L' B' s' g G') (hlog : ∀ a n, a ≠ g → .part a ∈ s'.log n → .part a ∈ s.log n)
    (hB : ∀ a n, a ≠ g → a ∈ B' n → a ∈ B n) (hpart : ∀ n, .part g ∈ s'.log n → G'.ok ∧ ∀ j ∈ G'.rest, 3 ≤ j.stage)
    (hbump : ∀ n, g ∈ B' n → G'.ok ∧ ∀ j ∈ G'.rest, 4 ≤ j.stage) : Ledger L' B' s' := by
  have hself : s'.groups g = some G' := by rw [hgroups, update_self]
  have hother : ∀ a, a ≠ g → s'.groups a = s.groups a := fun a ha => by rw [hgroups, update_of_ne ha]
  refine hL.next hk hpub hver (fun a A hA => ?_) (fun a n ha => ?_) (fun a n ha => ?_) (fun i S hS => ?_)
  · by_cases hag : a = g
    · subst hag
      cases hself.symm.trans hA
      exact .inr hok
    · rw [hother a hag] at hA
      exact .inl ⟨hA, fun h => hag (Holder.group.inj (Option.some.inj h))⟩
  · by_cases hag : a = g
    · subst hag
      exact ⟨G', hself, hpart n ha⟩
    · rw [hother a hag]
      exact hL.parts a n (hlog a n hag ha)
  · by_cases hag : a = g
    · subst hag
      exact ⟨G', hself, hbump n ha⟩
    · rw [hother a hag]
      exact hL.bumps a n (hB a n hag ha)
  · rw [hsnaps] at hS
    exact .inl ⟨hS, by simp⟩

theorem keeps_groups (hgroups : s'.groups = update s.groups g (some G'))
    (hold : s.groups g = none ∨ ∃ G, s.groups g = some G ∧ G.parts = G'.parts) :
    ∀ a A', s'.groups a = some A' → s.groups a = none ∨ ∃ A, s.groups a = some A ∧ A.parts = A'.parts := by
  rw [hgroups, Function.forall_update_iff s.groups fun a A => ∀ A', A = some A' →
    s.groups a = none ∨ ∃ A, s.groups a = some A ∧ A.parts = A'.parts]
  refine ⟨fun A' hA' => ?_, fun a _ A' hA' => .inr ⟨A', hA', rfl⟩⟩
  cases hA'
  exact hold

/-- a step of a group after which nothing new has landed or is counted -/
theorem Ledger.quiet (hL : Ledger L B s) (hlog : s'.log = s.log) (hversion : s'.version = s.version)
    (hgroups : s'.groups = update s.groups g (some G')) (hsnaps : s'.snaps = s.snaps)
    (hold : s.groups g = none ∨ ∃ G, s.groups g = some G ∧ G.parts = G'.parts)
    (hpub : ∀ n, s'.publishing n = (L' n).length) (hopen : ∀ n a, a ≠ g → a ∈ L n → a ∈ L' n)
    (hgate : ∀ n who, who ≠ .group g → s.gate n = some who → s'.gate n = some who) (hok : GroupOk L' B s' g G')
    (hpart : ∀ n, .part g ∈ s.log n → G'.ok ∧ ∀ j ∈ G'.rest, 3 ≤ j.stage)
    (hbump : ∀ n, g ∈ B n → G'.ok ∧ ∀ j ∈ G'.rest, 4 ≤ j.stage) : Ledger L' B s' := by
  have hkeeps : Keeps (some (.group g)) L B s L' B s' :=
    ⟨fun n => by rw [hlog]; exact Subset.refl _, fun n i _ => by rw [hlog], fun n => prefix_rfl,
      fun n a ha => hopen n a fun h => ha (by rw [h]), fun n who hwho => hgate n who fun h => hwho (by rw [h]),
      keeps_groups hgroups hold⟩
  exact hL.moveGroup hkeeps hpub (fun n => by rw [hversion]; exact hL.version n) hgroups hsnaps hok
    (fun a n _ h => by rwa [hlog] at h) (fun a n _ h => h) (fun n h => hpart n (by rwa [hlog] at h)) hbump

/-! ## Gates and logs -/

variable {who who' : Holder}

theorem setGate_other (hn : s.gate n ≠ some who) (hm : s.gate m = some who) (new : Option Holder) :
    (s.setGate n new).gate m = some who := by
  have hne : m ≠ n := by
    rintro rfl
    exact hn hm
  exact (update_of_ne hne _ _).trans hm

theorem setGate_self (h : m = n ∨ s.gate m = some who) : (s.setGate n (some who)).gate m = some who := by
  by_cases hm : m = n
  · subst hm
    exact update_self _ _ _
  · exact (update_of_ne hm _ _).trans (h.resolve_left hm)

theorem releaseAll_other (hwho : who ≠ who') (h : s.gate n = some who) : (s.releaseAll who').gate n = some who := by
  have hne : s.gate n ≠ some who' := fun h' => hwho (Option.some.inj (h.symm.trans h'))
  exact (if_neg hne).trans h

theorem land_log (s : Host) (n m : Ns) (e x : Entry) : x ∈ (s.land n e).log m ↔ x ∈ s.log m ∨ (m = n ∧ x = e) := by
  by_cases hm : m = n
  · subst hm
    simp [Host.land]
  · simp [Host.land, hm]

/-! ## Steps of a group -/

section

variable (hL : Ledger L B s) (hG : s.groups g = some G)
include hL hG

/-- an instruction after which nothing new has landed or is counted -/
theorem Ledger.advance (hrest : G.rest = j :: rest)
    (hj : ∀ n, .apply n ≠ j ∧ .bump n ≠ j) (hlog : s'.log = s.log) (hversion : s'.version = s.version)
    (hgroups : s'.groups = update s.groups g (some { G with rest := rest })) (hsnaps : s'.snaps = s.snaps)
    (hpub : ∀ n, s'.publishing n = (L' n).length) (hopen : ∀ n a, a ≠ g → a ∈ L n → a ∈ L' n)
    (hgate : ∀ n who, who ≠ .group g → s.gate n = some who → s'.gate n = some who)
    (hheld : ∀ n, .lock n = j ∨ s.gate n = some (.group g) → .unlock n ∈ rest → s'.gate n = some (.group g))
    (hopened : ∀ n, .started n = j ∨ g ∈ L n → .finished n ∈ rest → g ∈ L' n) : Ledger L' B s' := by
  refine hL.quiet hlog hversion hgroups hsnaps (.inr ⟨G, hG, rfl⟩) hpub hopen hgate ?_ (fun n h => ?_) (fun n h => ?_)
  · refine (hL.groups g G hG).tail hrest hheld hopened (fun n h => h.resolve_left (hj n).2) fun n h => ?_
    rw [hlog]
    exact h.resolve_left (hj n).1
  · exact (hL.of_part hG h).imp_right fun hstage k hk => hstage k (mem_of_tail hrest hk)
  · exact (hL.of_bump hG h).imp_right fun hstage k hk => hstage k (mem_of_tail hrest hk)

theorem Ledger.refuse (hj : j ∈ G.rest) (hstage : j.stage < 3) : Ledger L B (s.refuse g G) := by
  refine hL.quiet rfl rfl rfl rfl (.inr ⟨G, hG, rfl⟩) hL.publishing (fun _ _ _ h => h)
    (fun n who hwho h => releaseAll_other hwho h) ?_ (fun n h => ?_) (fun n h => ?_)
  · exact ⟨(hL.groups g G hG).nodup, nil_suffix, fun n _ h => absurd h not_mem_nil,
      fun n _ h => absurd h not_mem_nil, fun h => absurd h Bool.false_ne_true, fun h => absurd h Bool.false_ne_true,
      fun _ => rfl⟩
  · exact absurd hstage (not_lt.2 ((hL.of_part hG h).2 j hj))
  · exact absurd hstage (not_lt.2 (Nat.le_of_succ_le ((hL.of_bump hG h).2 j hj)))

theorem Ledger.apply (hrest : G.rest = .apply n :: rest) :
    Ledger L B ((s.land n (.part g)).putGroup g { G with rest := rest }) := by
  have hgo := hL.groups g G hG
  have hn : n ∈ G.parts := hgo.mem_parts hrest (by simp)
  have hstage : ∀ k ∈ G.rest, 3 ≤ k.stage := hgo.stage_le hrest
  have hunlock : .unlock n ∈ G.rest :=
    hgo.ordered.later hgo.suffix (hrest ▸ mem_cons_self) (mem_commitGroup hn).2.2.2.2.2 (.inl (by simp [Instr.stage]))
  have hgate : s.gate n = some (.group g) :=
    (hgo.held n hn hunlock).resolve_left fun h => absurd (hstage _ h) (by simp [Instr.stage])
  have hlog : ∀ m e, e ∈ (s.land n (.part g)).log m ↔ e ∈ s.log m ∨ (m = n ∧ e = .part g) :=
    fun m e => land_log s n m (.part g) e
  have hkeeps : Keeps (some (.group g)) L B s L B ((s.land n (.part g)).putGroup g { G with rest := rest }) := by
    refine ⟨fun m e h => (hlog m e).2 (.inl h), fun m i h => ?_, fun _ => prefix_rfl, fun _ _ _ h => h,
      fun _ _ _ h => h, keeps_groups rfl (.inr ⟨G, hG, rfl⟩)⟩
    have hm : m ≠ n := by
      rintro rfl
      rw [hgate] at h
      cases h
    exact update_of_ne hm _ _
  refine hL.moveGroup hkeeps hL.publishing hL.version rfl rfl ?_ (fun a m hag h => ?_) (fun _ _ _ h => h)
    (fun m _ => ⟨hgo.ok_of_rest hrest, fun k hk => hstage k (mem_of_tail hrest hk)⟩) (fun m h => ?_)
  · refine hgo.tail hrest (fun m h _ => h.resolve_left (by simp)) (fun m h _ => h.resolve_left (by simp))
      (fun m h => h.resolve_left (by simp)) fun m h => (hlog m _).2 ?_
    exact h.symm.imp_right fun h => ⟨Instr.apply.inj h, rfl⟩
  · rcases (hlog m _).1 h with h | ⟨-, h⟩
    · exact h
    · exact absurd (Entry.part.inj h) hag
  · -- nothing is counted yet
    exact absurd ((hL.of_bump hG h).2 (.apply n) (hrest ▸ .head _)) (by simp [Instr.stage])

theorem Ledger.bump (hrest : G.rest = .bump n :: rest) : Ledger L (update B n (B n ++ [g]))
      ({ s with version := update s.version n (s.version n + 1) }.putGroup g { G with rest := rest }) := by
  have hgo := hL.groups g G hG
  have hstage : ∀ k ∈ rest, 4 ≤ k.stage := fun k hk => hgo.stage_le hrest k (mem_of_tail hrest hk)
  have hB : ∀ m, B m <+: update B n (B n ++ [g]) m :=
    (Function.forall_update_iff B fun m b => B m <+: b).2 ⟨prefix_append _ _, fun _ _ => prefix_rfl⟩
  have hkeeps : Keeps (some (.group g)) L B s L (update B n (B n ++ [g]))
      ({ s with version := update s.version n (s.version n + 1) }.putGroup g { G with rest := rest }) :=
    ⟨fun _ => Subset.refl _, fun _ _ _ => rfl, hB, fun _ _ _ h => h, fun _ _ _ h => h,
      keeps_groups rfl (.inr ⟨G, hG, rfl⟩)⟩
  refine hL.moveGroup hkeeps hL.publishing (fun m => ?_) rfl rfl ?_ (fun _ _ _ h => h) (fun a m hag h => ?_)
    (fun m h => ⟨hgo.ok_of_rest hrest, fun j hj => Nat.le_of_succ_le (hstage j hj)⟩)
    (fun m _ => ⟨hgo.ok_of_rest hrest, hstage⟩)
  · by_cases hm : m = n
    · subst hm
      simp [Host.putGroup, hL.version m]
    · simp [Host.putGroup, hm, hL.version m]
  · refine hgo.tail hrest (fun m h _ => h.resolve_left (by simp)) (fun m h _ => h.resolve_left (by simp)) (fun m h => ?_)
      (fun m h => h.resolve_left (by simp))
    rcases h with h | h
    · obtain rfl := Instr.bump.inj h
      rw [update_self]
      exact mem_append_right _ (.head _)
    · exact (hB m).subset h
  · by_cases hm : m = n
    · subst hm
      rw [update_self] at h
      exact (mem_append.1 h).resolve_right fun h => hag (mem_singleton.1 h)
    · rwa [update_of_ne hm] at h

/-- **One instruction of a group.** -/
theorem Ledger.groupStep {o : Outcome} (hsound : ∀ n ∈ G.parts, G.rest.head? = some (.apply n) → o = .ok) :
    ∃ L' B', Ledger L' B' (groupStep s g G o) := by
  have hgo := hL.groups g G hG
  cases hrest : G.rest with
  | nil =>
    rw [NamespaceSnapshot.groupStep, hrest]
    exact ⟨L, B, hL⟩
  | cons j rest =>
    have hj : j ∈ G.rest := hrest ▸ (.head _)
    have honce : j ∉ rest := hgo.ordered.notMem_tail (hrest ▸ hgo.suffix)
    rw [NamespaceSnapshot.groupStep, hrest]
    cases j with
    | lock n =>
      dsimp only
      split
      · exact ⟨L, B, hL.refuse hG hj (by simp [Instr.stage])⟩
      · split_ifs with hfree
        · refine ⟨L, B, hL.advance hG hrest (by simp) rfl rfl rfl rfl hL.publishing (fun _ _ _ h => h) ?_ ?_ ?_⟩
          · exact fun m who _ h => setGate_other (by simp [hfree]) h _
          · exact fun m h _ => setGate_self (h.imp_left Instr.lock.inj)
          · exact fun m h _ => h.resolve_left (by simp)
        · exact ⟨L, B, hL⟩
    | prepare =>
      dsimp only
      split
      · exact ⟨L, B, hL.refuse hG hj (by simp [Instr.stage])⟩
      · exact ⟨L, B, hL.advance hG hrest (by simp) rfl rfl rfl rfl hL.publishing (fun _ _ _ h => h) (fun _ _ _ h => h)
          (fun m h _ => h.resolve_left (by simp)) (fun m h _ => h.resolve_left (by simp))⟩
    | started n =>
      refine ⟨update L n (g :: L n), B, hL.advance hG hrest (by simp) rfl rfl rfl rfl (fun m => ?_)
        ?_ (fun _ _ _ h => h) (fun m h _ => h.resolve_left (by simp)) ?_⟩
      · by_cases hm : m = n
        · subst hm
          simp [Host.putGroup, hL.publishing m]
        · simp [Host.putGroup, hm, hL.publishing m]
      · refine (Function.forall_update_iff L fun m l => ∀ a, a ≠ g → a ∈ L m → a ∈ l).2 ⟨?_, fun _ _ _ _ h => h⟩
        exact fun _ _ h => mem_cons_of_mem g h
      · refine (Function.forall_update_iff L fun m l => .started m = Instr.started n ∨ g ∈ L m → .finished m ∈ rest → g ∈ l).2
          ⟨fun _ _ => .head _, fun m hm h _ => h.resolve_left fun h => hm (Instr.started.inj h)⟩
    | apply n =>
      obtain rfl := hsound n (hgo.mem_parts hrest (by simp)) (by rw [hrest]; rfl)
      exact ⟨L, B, hL.apply hG hrest⟩
    | bump n => exact ⟨L, _, hL.bump hG hrest⟩
    | finished n =>
      have hmem : g ∈ L n := (hgo.opened n (hgo.mem_parts hrest (by simp)) hj).resolve_left fun h =>
        absurd (hgo.stage_le hrest _ h) (by simp [Instr.stage])
      refine ⟨update L n ((L n).erase g), B, hL.advance hG hrest (by simp) rfl rfl rfl rfl (fun m => ?_)
        ?_ (fun _ _ _ h => h) (fun m h _ => h.resolve_left (by simp)) (fun m h hlater => ?_)⟩
      · by_cases hm : m = n
        · subst hm
          have hpos : 0 < (L m).length := length_pos_of_mem hmem
          simp only [Host.putGroup, update_self, hL.publishing m, length_erase_of_mem hmem]
          omega
        · simp [Host.putGroup, hm, hL.publishing m]
      · refine (Function.forall_update_iff L fun m l => ∀ a, a ≠ g → a ∈ L m → a ∈ l).2 ⟨?_, fun _ _ _ _ h => h⟩
        exact fun _ ha h => (mem_erase_of_ne ha).2 h
      · have hmn : m ≠ n := by
          rintro rfl
          exact honce hlater
        rw [update_of_ne hmn]
        exact h.resolve_left (by simp)
    | unlock n =>
      have hgate : s.gate n = some (.group g) := (hgo.held n (hgo.mem_parts hrest (by simp)) hj).resolve_left fun h =>
        absurd (hgo.stage_le hrest _ h) (by simp [Instr.stage])
      refine ⟨L, B, hL.advance hG hrest (by simp) rfl rfl rfl rfl hL.publishing (fun _ _ _ h => h) (fun m who hwho h => ?_)
        (fun m h hlater => ?_) (fun m h _ => h.resolve_left (by simp))⟩
      · exact setGate_other (fun h' => hwho (Option.some.inj (h'.symm.trans hgate))) h none
      · have hmn : m ≠ n := by
          rintro rfl
          exact honce hlater
        exact (update_of_ne hmn _ _).trans (h.resolve_left (by simp))

end

end Kdb.NamespaceSnapshot
