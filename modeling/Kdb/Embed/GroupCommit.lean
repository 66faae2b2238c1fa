/-
Cross-namespace groups (`embed/txn_coordinator.go`, `txn_group.go`, `group_commit.go`, `txn_decision_log.go`,
`persisting_dag.go`, `delta_replay.go`): a commit in each of several namespaces, committed together by one record in the
host's decision log.

The state is one host: each namespace's log on disk and in the writer's queue, its commit graph and its barrier; the
decision files by epoch; and the coordinator, which a crash forgets. What runs between two synchronisation points is one
step, and steps of different groups and namespaces interleave freely. Namespace locks are not modelled: they only
exclude interleavings. A step whose guard fails changes nothing.
- `begin`: a group begins, starting an epoch when none is open. `addPart`: a part is applied, queued and made the barrier.
- `decide`, `finish`, `fail`: the group's parts are durable and its record is queued; its record is durable and its
  caller is told; it fails before its record is queued (`Fail`, `Abandon`).
- `commit`, `ack`: an ordinary commit is queued, and acknowledged once it is durable and its barrier is decided.
- `flush`, `flushDecisions`: queued entries reach the disk, in order.
- `crash`: some of what is queued reached the disk, the rest is lost. `recover`: the next writer marks every epoch dead
  and replays every namespace (`resolvePart`, `groupGate.skip`).

Commits are content addressed: a hash fixes the commit's parents and its group marker (`Commits`). A marker of another
host, and a commit read without one, count as ordinary. Every parent of a commit precedes it in its log, so the deferral
of commits whose parents come later is in `Kdb.Embed.DeltaReplay`. Left out are checkpoints, read-only followers and the
durability modes that promise nothing. Writes that report an error are left out too: a group whose decision write fails
is told so although its record may be on disk.
-/
import Kdb.Document.Commit
import Kdb.Lib.Machine
import Kdb.Lib.RankedGraph

namespace Kdb.GroupCommit

/-- namespaces -/
abbrev Ns := ℕ

/-- group ids -/
abbrev GroupId := ℕ

/-- epochs of the decision log -/
abbrev Epoch := ℕ

/-- `GroupMarker`, of this host -/
structure Marker where
  epoch : Epoch
  group : GroupId
  deriving DecidableEq

/-- what hashes name: a commit's parents and its group marker, if it is a part -/
structure Commits where
  graph : RankedGraph Hash
  marker : Hash → Option Marker

/-- how far a group got: still adding parts or waiting for them, its decision queued, its caller told, or failed -/
inductive Phase where
  | running
  | queued
  | committed
  | failed
  deriving DecidableEq

/-- `TxnGroup`; `added` are the namespaces that have its part -/
structure TxnGroup where
  epoch : Epoch
  parts : List Ns
  added : List Ns
  preds : List GroupId
  phase : Phase

/-- one namespace: its commit log on disk and queued, its commit graph, its barrier, whether it is fenced, the ordinary
commits not yet acknowledged with the group each waits for, and those acknowledged -/
structure Namespace where
  disk : List Hash
  queue : List Hash
  graph : List Hash
  barrier : Option GroupId
  fenced : Bool
  waiting : List (Hash × Option GroupId)
  acked : List Hash

/-- a decision file: its durable records and whether it is renamed `.dead` -/
structure DecisionFile where
  records : List GroupId
  dead : Bool

def DecisionFile.renamed (f : DecisionFile) : DecisionFile := { f with dead := true }

/-- `TxnCoordinator`; `log` holds the records queued on the open decision log -/
structure TxnCoordinator where
  epoch : Epoch
  log : Option (List GroupId)
  committed : List GroupId
  inflight : List GroupId
  failed : Bool
  closed : Bool

/-- a coordinator that has started no epoch (`openTxnCoordinator`) -/
def TxnCoordinator.opened : TxnCoordinator := ⟨0, none, [], [], false, false⟩

/-- the host, and every group it ever began -/
structure Host where
  ns : Ns → Namespace
  group : GroupId → Option TxnGroup
  files : Std.ExtTreeMap Epoch DecisionFile compare
  epochFile : Epoch
  coord : TxnCoordinator
  up : Bool

/-- nothing written, nothing running -/
def Host.init : Host where
  ns _ := ⟨[], [], [], none, false, [], []⟩
  group _ := none
  files := ∅
  epochFile := 0
  coord := .opened
  up := false

/-! ## Replay -/

inductive PartDecision where
  | committed
  | aborted
  | held
  deriving DecidableEq

variable (s : Host)

/-- `resolvePart` of a writer: the open epoch is known, every other one is read from its file, and an epoch without a
file is sealed -/
def resolvePart (m : Marker) : PartDecision :=
  if s.coord.log.isSome && m.epoch = s.coord.epoch then
    if m.group ∈ s.coord.committed then .committed
    else if m.group ∈ s.coord.inflight then .held
    else .aborted
  else match s.files[m.epoch]? with
    | some f => if m.group ∈ f.records then .committed else .aborted
    | none => .committed

/-- what replay has made of the log so far -/
structure GroupGate where
  kept : List Hash
  dropped : List Hash
  held : List Hash

/-- what `skip` says of a commit by its parents: the first dropped or held one decides -/
def parentsVerdict (gate : GroupGate) (parents : List Hash) : Option PartDecision :=
  parents.findSome? fun p =>
    if p ∈ gate.dropped then some .aborted else if p ∈ gate.held then some .held else none

variable (C : Commits)

/-- `groupGate.skip`, and the commit applied when it is not skipped -/
def GroupGate.replay (s : Host) (gate : GroupGate) (h : Hash) : GroupGate :=
  if h ∈ gate.kept then gate
  else match (parentsVerdict gate (C.graph.parents h)).or ((C.marker h).map (resolvePart s)) with
    | some .aborted => { gate with dropped := gate.dropped ++ [h] }
    | some .held => { gate with held := gate.held ++ [h] }
    | _ => { gate with kept := gate.kept ++ [h] }

/-- the commit graph a namespace's log gives (`replayDeltaNamespaceFrom`) -/
def replayNamespace (s : Host) (disk : List Hash) : List Hash :=
  (disk.foldl (GroupGate.replay C s) ⟨[], [], []⟩).kept

/-! ## The coordinator -/

/-- one past the recorded epoch and every epoch with a file -/
def nextEpoch : Epoch := max (s.files.keys.foldl max s.epochFile) s.coord.epoch + 1

def startEpoch : Host :=
  let next := nextEpoch s
  { s with
    epochFile := next
    files := s.files.insert next ⟨[], false⟩
    coord := { s.coord with epoch := next, log := some [], committed := [], failed := false } }

/-- `sealLocked`: the open epoch's file is deleted -/
def sealEpoch : Host :=
  { s with files := s.files.erase s.coord.epoch, coord := { s.coord with log := none } }

/-- records appended to the open epoch's file -/
def writeRecords (records : List GroupId) : Host :=
  { s with files := s.files.modify s.coord.epoch fun f => { f with records := f.records ++ records } }

/-- an epoch with nothing in flight and nothing failed is sealed once its file is large enough -/
def rollEpoch (roll : Bool) : Host :=
  if roll && s.coord.inflight = [] && !s.coord.failed && s.coord.log.isSome then sealEpoch s else s

variable (g : GroupId)

def leave (epoch : Epoch) (committed published : Bool) : Host :=
  { s with coord := { s.coord with
      inflight := s.coord.inflight.filter (· ≠ g)
      committed := if committed && epoch = s.coord.epoch then g :: s.coord.committed else s.coord.committed
      failed := s.coord.failed || (!committed && published) } }

def finished (epoch : Epoch) (committed published roll : Bool) : Host :=
  rollEpoch (leave s g epoch committed published) roll

/-- what a group becomes -/
def setGroup (G : TxnGroup) : Host := { s with group := Function.update s.group g (some G) }

/-- what a namespace becomes -/
def setNs (n : Ns) (N : Namespace) : Host := { s with ns := Function.update s.ns n N }

/-- the group is decided without an error -/
def Host.settled : Bool := (s.group g).any fun G => G.phase = .committed

/-- the decision is queued, and no failure stopped it -/
def Host.enqueued : Bool := (s.group g).any fun G => G.phase = .queued || G.phase = .committed

/-- the barrier a commit waits for (`chainOnBarrier`, `persistPart`): none once it is decided -/
def Host.barrier (n : Ns) : Option GroupId := (s.ns n).barrier.filter fun g => !s.settled g

def Host.partDurable (s : Host) (G : TxnGroup) (g : GroupId) (n : Ns) : Bool :=
  (s.ns n).disk.any fun h => C.marker h = some ⟨G.epoch, g⟩

/-- the hash is new to the namespace and stands on its commit graph -/
def Host.appendable (s : Host) (n : Ns) (h : Hash) : Bool :=
  s.up && !(s.ns n).fenced && h ∉ (s.ns n).disk ++ (s.ns n).queue && (C.graph.parents h).all (· ∈ (s.ns n).graph)

/-- the group is running in this process -/
def Host.runs : Bool := s.up && g ∈ s.coord.inflight

/-! ## Steps -/

/-- what can happen; `k` says how much of a queue reached the disk, `roll` whether the decision file is large enough -/
inductive Step where
  | begin (g : GroupId) (parts : List Ns)
  | writeEpoch
  | addPart (g : GroupId) (n : Ns) (h : Hash)
  | commit (n : Ns) (h : Hash)
  | flush (n : Ns) (k : ℕ)
  | ack (n : Ns) (h : Hash) (b : Option GroupId)
  | decide (g : GroupId)
  | flushDecisions (k : ℕ)
  | finish (g : GroupId) (roll : Bool)
  | fail (g : GroupId) (roll : Bool)
  | close
  | crash (k : Ns → ℕ) (kd : ℕ)
  | markDead (e : Epoch)
  | recover

/-- a group joins the open epoch -/
def register (parts : List Ns) : Host :=
  let s := setGroup s g ⟨s.coord.epoch, parts, [], [], .running⟩
  { s with coord := { s.coord with inflight := g :: s.coord.inflight } }

def begin (parts : List Ns) : Host :=
  if s.up && !s.coord.closed && (s.group g).isNone then
    register (if s.coord.log.isNone then startEpoch s else s) g parts
  else s

/-- `Apply` and `AddPart` -/
def addPart (s : Host) (g : GroupId) (n : Ns) (h : Hash) : Host :=
  match s.group g with
  | none => s
  | some G =>
    if s.runs g && G.phase = .running && n ∈ G.parts && n ∉ G.added && s.appendable C n h
        && C.marker h = some ⟨G.epoch, g⟩ then
      let N := s.ns n
      let pred := (s.barrier n).filter (· ≠ g)
      setGroup (setNs s n { N with graph := N.graph ++ [h], queue := N.queue ++ [h], barrier := some g }) g
        { G with added := n :: G.added, preds := pred.toList ++ G.preds }
    else s

/-- an ordinary commit is appended and queued (`PersistAsync`) -/
def commit (s : Host) (n : Ns) (h : Hash) : Host :=
  if s.appendable C n h && C.marker h = none then
    let N := s.ns n
    setNs s n { N with
      graph := N.graph ++ [h]
      queue := N.queue ++ [h]
      waiting := N.waiting ++ [(h, s.barrier n)] }
  else s

/-- the wait of an ordinary commit returns without an error: it is durable, and so is its barrier's decision -/
def ack (n : Ns) (h : Hash) (b : Option GroupId) : Host :=
  let N := s.ns n
  if (h, b) ∈ N.waiting ∧ h ∈ N.disk ∧ b.all s.settled then setNs s n { N with acked := N.acked ++ [h] } else s

/-- `Finish` up to `decide`: every part durable, every predecessor's decision queued -/
def decide (s : Host) (g : GroupId) : Host :=
  match s.group g, s.coord.log with
  | some G, some q =>
    if s.runs g && !s.coord.closed && G.phase = .running && G.epoch = s.coord.epoch
        && G.parts.all (· ∈ G.added) && G.added.all (s.partDurable C G g) && G.preds.all s.enqueued then
      let s := setGroup s g { G with phase := .queued }
      { s with coord := { s.coord with log := some (q ++ [g]) } }
    else s
  | _, _ => s

/-- the decision log writes its first records -/
def flushDecisions (k : ℕ) : Host :=
  match s.coord.log with
  | some q =>
    let s := writeRecords s (q.take k)
    { s with coord := { s.coord with log := some (q.drop k) } }
  | none => s

/-- a decided group: its barriers drop -/
def settle (G : TxnGroup) : Host :=
  let s := setGroup s g { G with phase := .committed }
  { s with ns := fun n =>
      if n ∈ G.added ∧ (s.ns n).barrier = some g then { s.ns n with barrier := none } else s.ns n }

/-- the end of `Finish`: the record is durable and the caller is told -/
def finish (roll : Bool) : Host :=
  match s.group g with
  | some G =>
    if s.runs g && G.phase = .queued && s.files[G.epoch]?.any (g ∈ ·.records) then
      finished (settle s g G) g G.epoch true (G.added ≠ []) roll
    else s
  | none => s

/-- a failed group: the namespaces with its parts are fenced -/
def fence (G : TxnGroup) : Host :=
  let s := setGroup s g { G with phase := .failed }
  { s with ns := fun n => if n ∈ G.added then { s.ns n with fenced := true } else s.ns n }

/-- `Fail`, `Abandon`, and `Finish` before the decision is queued -/
def fail (roll : Bool) : Host :=
  match s.group g with
  | some G =>
    if s.runs g && G.phase = .running then finished (fence s g G) g G.epoch false (G.added ≠ []) roll
    else s
  | none => s

/-- the decision log is drained and its file left -/
def drain (q : List GroupId) : Host :=
  let s := writeRecords s q
  { s with coord := { s.coord with log := none } }

/-- `TxnCoordinator.close`: sealed when that is safe -/
def close : Host :=
  if s.up && !s.coord.closed then
    let s := { s with coord := { s.coord with closed := true } }
    match s.coord.log with
    | none => s
    | some q => if s.coord.inflight = [] && !s.coord.failed then sealEpoch s else drain s q
  else s

/-- the process dies: the first `k n` queued entries of each log and `kd` queued decisions reached the disk -/
def crash (k : Ns → ℕ) (kd : ℕ) : Host :=
  let s := flushDecisions s kd
  { s with
    ns := fun n =>
      let N := s.ns n
      { N with disk := N.disk ++ N.queue.take (k n), queue := [], graph := [], barrier := none, fenced := false,
               waiting := [] }
    coord := .opened
    up := false }

/-- every decision file is renamed and every namespace replayed -/
def recover (s : Host) : Host :=
  if s.up then s
  else
    let s := { s with files := s.files.map fun _ => DecisionFile.renamed, coord := .opened, up := true }
    { s with ns := fun n =>
      { s.ns n with queue := [], graph := replayNamespace C s (s.ns n).disk, barrier := none, fenced := false,
                    waiting := [] } }

def step (s : Host) : Step → Host
  | .begin g parts => begin s g parts
  | .writeEpoch => if s.up && s.coord.log.isNone then { s with epochFile := nextEpoch s } else s
  | .addPart g n h => addPart C s g n h
  | .commit n h => commit C s n h
  | .flush n k =>
    let N := s.ns n
    setNs s n { N with disk := N.disk ++ N.queue.take k, queue := N.queue.drop k }
  | .ack n h b => ack s n h b
  | .decide g => decide C s g
  | .flushDecisions k => flushDecisions s k
  | .finish g roll => finish s g roll
  | .fail g roll => fail s g roll
  | .close => close s
  | .crash k kd => crash s k kd
  | .markDead e => if s.up then s else { s with files := s.files.modify e DecisionFile.renamed }
  | .recover => recover C s

end Kdb.GroupCommit
