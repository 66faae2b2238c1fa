/-
Snapshots over several namespaces (`server/namespace_set.go`: `Snapshot`, `readHeads`, `PublishStarted`, `PublishFinished`;
`embed/group_commit.go`: `CommitGroup`, `applyGroup`).

Any number of groups and snapshots run side by side, each working through its script one atomic instruction at a time, in
any interleaving with single-namespace commits. A head is taken with its history: `log n` is what is at or behind the head
of `n`, and a commit or a part lands by being added to it.
- `commitGroup`: gates in order, prepare, `PublishStarted` on each participant, the parts, `PublishFinished`, gates off.
- `spin`, `gated`: an attempt of `Snapshot` that reads the counters on both sides of the heads, and the last one, which
  takes the gates.
- `commitGroup_ordered`, `spin_ordered`, `gated_ordered`: what comes before what.
A single-namespace commit takes the gate, lands and releases the gate in one step; it is acknowledged later, or never.
What follows publication (durability, the decision, fences) moves no head, and is left out, as are runtimes that are closed
or reopened under a snapshot. The counters do not wrap.
-/
import Kdb.Lib.Machine
import Kdb.Lib.Script

namespace Kdb.NamespaceSnapshot

open Machine Script List

abbrev Ns := ℕ

/-- what lands in a namespace: an ordinary commit, or the part of a group -/
inductive Entry where
  | commit (id : ℕ)
  | part (g : ℕ)
  deriving DecidableEq

/-- who holds a write gate -/
inductive Holder where
  | group (g : ℕ)
  | snapshot (i : ℕ)
  deriving DecidableEq

/-! ## Groups -/

/-- the atomic steps of `CommitGroup`. `bump` and `finished` are the two counters of `PublishFinished`. -/
inductive Instr where
  | lock (n : Ns)
  | prepare
  | started (n : Ns)
  | apply (n : Ns)
  | bump (n : Ns)
  | finished (n : Ns)
  | unlock (n : Ns)
  deriving DecidableEq

/-- from the end of `applyGroup` on -/
def closing (parts : List Ns) : List Instr :=
  parts.flatMap (fun n => [.bump n, .finished n]) ++ parts.reverse.map .unlock

def commitGroup (parts : List Ns) : List Instr :=
  parts.map .lock ++ .prepare :: (parts.map .started ++ (parts.map .apply ++ closing parts))

/-- a group, and what is left to do. `ok` is false once it is refused or has failed. -/
structure Group where
  parts : List Ns
  rest : List Instr
  ok : Bool

/-- how a step of a group goes. A failed `Apply` or `AddPart` may have appended the commit. -/
inductive Outcome where
  | ok
  | fails
  | failsAppended
  deriving DecidableEq

/-! ## Snapshots -/

/-- the atomic steps of `Snapshot` -/
inductive Probe where
  | check (n : Ns)
  | version (n : Ns)
  | head (n : Ns)
  | recheck (n : Ns)
  | reversion (n : Ns)
  | acquire (n : Ns)
  | release (n : Ns)
  deriving DecidableEq

/-- one attempt without the gates -/
def spin (names : List Ns) : List Probe :=
  names.flatMap (fun n => [.check n, .version n]) ++
    (names.map .head ++ names.flatMap (fun n => [.recheck n, .reversion n]))

/-- the attempt with the gates -/
def gated (names : List Ns) : List Probe :=
  names.map .acquire ++ (names.map .head ++ names.reverse.map .release)

def snapshotSpinLimit : ℕ := 64

/-- a call of `Snapshot` -/
structure Snap where
  names : List Ns
  attempt : ℕ
  gates : Bool
  rest : List Probe
  versions : Ns → ℕ
  heads : List (Ns × List Entry)
  failed : Bool

/-- it returned heads -/
def Snap.done (S : Snap) : Prop := S.rest = [] ∧ S.failed = false
  deriving Decidable

/-- it waits for a gate -/
def Snap.waits (S : Snap) : Prop := ∃ n ∈ S.names, S.rest.head? = some (.acquire n)
  deriving Decidable

/-- the next attempt -/
def Snap.retry (S : Snap) : Snap :=
  if S.attempt + 1 < snapshotSpinLimit then { S with attempt := S.attempt + 1, rest := spin S.names, heads := [] }
  else { S with attempt := S.attempt + 1, gates := true, rest := gated S.names, heads := [] }

/-! ## The host -/

/-- the namespaces, with every group and snapshot ever begun and what callers were told -/
structure Host where
  log : Ns → List Entry
  gate : Ns → Option Holder
  publishing : Ns → ℤ
  version : Ns → ℕ
  groups : ℕ → Option Group
  snaps : ℕ → Option Snap
  acked : List (Ns × Entry)

def Host.init : Host := ⟨fun _ => [], fun _ => none, fun _ => 0, fun _ => 0, fun _ => none, fun _ => none, []⟩

variable (s : Host)

def Host.putGroup (g : ℕ) (G : Group) : Host := { s with groups := Function.update s.groups g (some G) }

def Host.putSnap (i : ℕ) (S : Snap) : Host := { s with snaps := Function.update s.snaps i (some S) }

def Host.setGate (n : Ns) (who : Option Holder) : Host := { s with gate := Function.update s.gate n who }

def Host.land (n : Ns) (e : Entry) : Host := { s with log := Function.update s.log n (s.log n ++ [e]) }

/-- every gate the holder has -/
def Host.releaseAll (who : Holder) : Host :=
  { s with gate := fun n => if s.gate n = some who then none else s.gate n }

/-- a group refused before anything landed -/
def Host.refuse (g : ℕ) (G : Group) : Host :=
  (s.releaseAll (.group g)).putGroup g { G with rest := [], ok := false }

/-- the next instruction of a group. A gate that is taken is waited for. -/
def groupStep (g : ℕ) (G : Group) (o : Outcome) : Host :=
  match G.rest with
  | [] => s
  | .lock n :: rest =>
    if o ≠ .ok then s.refuse g G
    else if s.gate n = none then (s.setGate n (some (.group g))).putGroup g { G with rest := rest }
    else s
  | .prepare :: rest => if o ≠ .ok then s.refuse g G else s.putGroup g { G with rest := rest }
  | .started n :: rest =>
    { s with publishing := Function.update s.publishing n (s.publishing n + 1) }.putGroup g { G with rest := rest }
  | .apply n :: rest =>
    match o with
    | .ok => (s.land n (.part g)).putGroup g { G with rest := rest }
    | .fails => s.putGroup g { G with rest := closing G.parts, ok := false }
    | .failsAppended => (s.land n (.part g)).putGroup g { G with rest := closing G.parts, ok := false }
  | .bump n :: rest =>
    { s with version := Function.update s.version n (s.version n + 1) }.putGroup g { G with rest := rest }
  | .finished n :: rest =>
    { s with publishing := Function.update s.publishing n (s.publishing n - 1) }.putGroup g { G with rest := rest }
  | .unlock n :: rest => (s.setGate n none).putGroup g { G with rest := rest }

/-- the next instruction of a snapshot -/
def snapStep (i : ℕ) (S : Snap) : Host :=
  match S.rest with
  | [] => s
  | .check n :: rest => s.putSnap i (if s.publishing n ≠ 0 then S.retry else { S with rest := rest })
  | .version n :: rest =>
    s.putSnap i { S with rest := rest, versions := Function.update S.versions n (s.version n) }
  | .head n :: rest => s.putSnap i { S with rest := rest, heads := S.heads ++ [(n, s.log n)] }
  | .recheck n :: rest => s.putSnap i (if s.publishing n ≠ 0 then S.retry else { S with rest := rest })
  | .reversion n :: rest => s.putSnap i (if s.version n ≠ S.versions n then S.retry else { S with rest := rest })
  | .acquire n :: rest =>
    if s.gate n = none then (s.setGate n (some (.snapshot i))).putSnap i { S with rest := rest } else s
  | .release n :: rest => (s.setGate n none).putSnap i { S with rest := rest }

inductive Label where
  | begin (g : ℕ) (parts : List Ns)
  | group (g : ℕ) (o : Outcome)
  | ackGroup (g : ℕ)
  | commit (n : Ns) (id : ℕ)
  | ackCommit (n : Ns) (id : ℕ)
  | call (i : ℕ) (names : List Ns)
  | snap (i : ℕ)
  | giveUp (i : ℕ)

/-- one step of anyone. A step that is not possible changes nothing. -/
def step : Label → Host
  | .begin g parts =>
    -- participants are sorted, and a namespace that appears twice is refused
    if s.groups g = none ∧ parts ≠ [] ∧ parts.Nodup then
      s.putGroup g ⟨parts.insertionSort (· ≤ ·), commitGroup (parts.insertionSort (· ≤ ·)), true⟩
    else s
  | .group g o =>
    match s.groups g with
    | none => s
    | some G => groupStep s g G o
  | .ackGroup g =>
    match s.groups g with
    | none => s
    | some G => if G.rest = [] ∧ G.ok then { s with acked := s.acked ++ G.parts.map (·, .part g) } else s
  | .commit n id => if s.gate n = none then s.land n (.commit id) else s
  | .ackCommit n id => if .commit id ∈ s.log n then { s with acked := s.acked ++ [(n, .commit id)] } else s
  | .call i names =>
    if s.snaps i = none then
      let names := (names.insertionSort (· ≤ ·)).dedup
      s.putSnap i ⟨names, 0, false, spin names, fun _ => 0, [], false⟩
    else s
  | .snap i =>
    match s.snaps i with
    | none => s
    | some S => snapStep s i S
  | .giveUp i =>
    -- a gate was not to be had in time
    match s.snaps i with
    | none => s
    | some S =>
      if S.waits then
        (s.releaseAll (.snapshot i)).putSnap i { S with rest := [], heads := [], failed := true }
      else s

/-- no `Apply` or `AddPart` of a group fails -/
def Sound : Label → Prop
  | .group g o => ∀ G ∈ s.groups g, ∀ n ∈ G.parts, G.rest.head? = some (.apply n) → o = .ok
  | _ => True

instance (s : Host) : (l : Label) → Decidable (Sound s l)
  | .group g _ => inferInstanceAs (Decidable (∀ G ∈ s.groups g, ∀ n ∈ G.parts, _))
  | .begin _ _ | .ackGroup _ | .commit _ _ | .ackCommit _ _ | .call _ _ | .snap _ | .giveUp _ => isTrue trivial

/-! ## The order of the scripts -/

def Instr.stage : Instr → ℕ
  | .lock _ => 0
  | .prepare => 1
  | .started _ => 2
  | .apply _ => 3
  | .bump _ | .finished _ => 4
  | .unlock _ => 5

/-- which instructions of a group come first -/
def Instr.Before (i j : Instr) : Prop := i.stage < j.stage ∨ ∃ n, i = .bump n ∧ j = .finished n

def Probe.stage : Probe → ℕ
  | .check _ | .version _ | .acquire _ => 0
  | .head _ => 1
  | .recheck _ | .reversion _ | .release _ => 2

/-- which instructions of a snapshot come first -/
def Probe.Before (i j : Probe) : Prop := i.stage < j.stage ∨ ∃ n, i = .recheck n ∧ j = .reversion n

theorem Instr.Before.stage_le (i j : Instr) (h : i.Before j) : i.stage ≤ j.stage := by
  rcases h with h | ⟨n, rfl, rfl⟩
  · exact h.le
  · exact le_refl _

theorem Probe.Before.stage_le (i j : Probe) (h : i.Before j) : i.stage ≤ j.stage := by
  rcases h with h | ⟨n, rfl, rfl⟩
  · exact h.le
  · exact le_refl _

theorem commitGroup_ordered {parts : List Ns} (h : parts.Nodup) : Ordered Instr.Before (commitGroup parts) := by
  have hlock : Ordered Instr.Before (parts.map .lock) :=
    Ordered.map (fun _ _ h => Instr.lock.inj h) (by simp [Instr.Before, Instr.stage]) h
  have hprepare : Ordered Instr.Before [.prepare] := pairwise_singleton _ _
  have hstarted : Ordered Instr.Before (parts.map .started) :=
    Ordered.map (fun _ _ h => Instr.started.inj h) (by simp [Instr.Before, Instr.stage]) h
  have happly : Ordered Instr.Before (parts.map .apply) :=
    Ordered.map (fun _ _ h => Instr.apply.inj h) (by simp [Instr.Before, Instr.stage]) h
  have hpairs : Ordered Instr.Before (parts.flatMap fun n => [.bump n, .finished n]) :=
    Ordered.pairs (fun _ _ h => Instr.bump.inj h) (fun _ _ h => Instr.finished.inj h) (by simp) (by simp [Instr.Before, Instr.stage]) h
  have hunlock : Ordered Instr.Before (parts.reverse.map .unlock) :=
    Ordered.map (fun _ _ h => Instr.unlock.inj h) (by simp [Instr.Before, Instr.stage]) (nodup_reverse.2 h)
  have hblocks : commitGroup parts = [parts.map .lock, [.prepare], parts.map .started, parts.map .apply,
      parts.flatMap fun n => [.bump n, .finished n], parts.reverse.map .unlock].flatten := by simp [commitGroup, closing]
  rw [hblocks]
  refine Ordered.flatten Instr.Before.stage_le ?_ ?_
  · simp only [forall_mem_cons]
    exact ⟨hlock, hprepare, hstarted, happly, hpairs, hunlock, nofun⟩
  · simp only [pairwise_cons, forall_mem_cons, forall_mem_pairs]
    simp [Instr.stage]

variable {names : List Ns}

/-- the heads are read between what comes before and what comes after -/
theorem heads_ordered {a b : List Probe} (h : names.Nodup) (ha : Ordered Probe.Before a)
    (hb : Ordered Probe.Before b) (ha0 : ∀ i ∈ a, i.stage = 0) (hb2 : ∀ i ∈ b, i.stage = 2) :
    Ordered Probe.Before (a ++ (names.map .head ++ b)) := by
  have hhead : Ordered Probe.Before (names.map .head) :=
    Ordered.map (fun _ _ h => Probe.head.inj h) (by simp [Probe.Before, Probe.stage]) h
  have hblocks : a ++ (names.map .head ++ b) = [a, names.map .head, b].flatten := by simp
  rw [hblocks]
  refine Ordered.flatten Probe.Before.stage_le ?_ ?_
  · simp only [forall_mem_cons]
    exact ⟨ha, hhead, hb, nofun⟩
  · simp +contextual [show ∀ n, (Probe.head n).stage = 1 from fun _ => rfl, ha0, hb2]

theorem spin_ordered (h : names.Nodup) : Ordered Probe.Before (spin names) := by
  have hcheck : Ordered Probe.Before (names.flatMap fun n => [.check n, .version n]) :=
    Ordered.pairs (fun _ _ h => Probe.check.inj h) (fun _ _ h => Probe.version.inj h) (by simp) (by simp [Probe.Before, Probe.stage]) h
  have hrecheck : Ordered Probe.Before (names.flatMap fun n => [.recheck n, .reversion n]) :=
    Ordered.pairs (fun _ _ h => Probe.recheck.inj h) (fun _ _ h => Probe.reversion.inj h) (by simp) (by simp [Probe.Before, Probe.stage]) h
  exact heads_ordered h hcheck hrecheck (forall_mem_pairs.2 fun _ _ => ⟨rfl, rfl⟩) (forall_mem_pairs.2 fun _ _ => ⟨rfl, rfl⟩)

theorem gated_ordered (h : names.Nodup) : Ordered Probe.Before (gated names) := by
  have hacquire : Ordered Probe.Before (names.map .acquire) :=
    Ordered.map (fun _ _ h => Probe.acquire.inj h) (by simp [Probe.Before, Probe.stage]) h
  have hrelease : Ordered Probe.Before (names.reverse.map .release) :=
    Ordered.map (fun _ _ h => Probe.release.inj h) (by simp [Probe.Before, Probe.stage]) (nodup_reverse.2 h)
  exact heads_ordered h hacquire hrelease (by simp [Probe.stage]) (by simp [Probe.stage])

end Kdb.NamespaceSnapshot
