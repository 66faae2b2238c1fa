/-
Taking a checkpoint while the namespace is written (`embed/checkpoint_open.go`: `saveCheckpointThrough`;
`dag/provisional.go`; `transaction/prepare.go`: `Apply`; `peersync/ingest.go`: `fastForward`, `undoAdoption`).

The state is one namespace: its commits, main's head, the live tree of its storage, the provisional commits with their
generation, and the writer at the write gate. A write commits its tree to storage first and moves the head afterwards, so
the two are not the same at every moment. The capture takes no gate; it reads the generation, the provisional set, the
graph, the live tree, the provisional set and the generation again, with any steps of writers between them.
- `capture_real`: a capture has no undecided part; its live tree is that of its head when nobody is at the write gate
  meanwhile.
- `capture_ahead_of_graph`: otherwise the live tree may be ahead of the graph.
Commits are named by their hashes, which fix their parents and their tree (`Commits`). A refused adoption moves the head
back and then the tree. What a checkpoint holds besides (segments, head payloads, attachment tables, graph references) is
left out; `keep` is the retention filter with the commits the log does not hold.
-/
import Kdb.Lib.Machine

namespace Kdb.Checkpoint

open Machine List

abbrev Hash := ℕ

variable (T : Type)

/-- what hashes name -/
structure Commits where
  parents : Hash → List Hash
  tree : Hash → T

def Stands {T : Type} (C : Commits T) : Hash → Hash → Prop := Relation.ReflTransGen fun c p => p ∈ C.parents c

/-! ## Writers -/

/-- the atomic steps of a write: `CommitTree`, `AppendCommitWith` (or another append to main), `SetHead` -/
inductive Op where
  | commitTree (t : T)
  | append (h : Hash) (part : Bool)
  | setHead (h : Hash)

/-- the writes of a namespace -/
inductive Write where
  /-- a commit, or the part of a group -/
  | commit (h : Hash) (part : Bool)
  /-- a merge with a peer's side; `refused`: the log refuses it -/
  | merge (h : Hash) (refused : Bool)
  /-- a join of heads with the same documents -/
  | join (h : Hash) (refused : Bool)
  /-- main moves to a peer's commit, whose documents come in batches -/
  | adopt (h : Hash) (batches : List T) (refused : Bool)
  /-- a peer's documents that do not build the tree it declares -/
  | mismatch (built : List T)

/-- the writer at the gate: what is left to do, and whether anything is done -/
structure Writer where
  rest : List (Op T)
  touched : Bool

/-- what a capture has of the graph, and the parts that were undecided when it was read -/
structure Graph where
  commits : List Hash
  head : Hash
  undecided : List Hash

/-- how far a capture is -/
inductive Capture where
  | counted (gen : ℕ)
  | clear (gen : ℕ)
  | graph (gen : ℕ) (g : Graph)
  | tree (gen : ℕ) (g : Graph) (live : T)
  | rechecked (gen : ℕ) (g : Graph) (live : T)
  | done (g : Graph) (live : T)
  | deferred

/-- a namespace. `undecided` are the parts of groups without a durable decision. -/
structure Namespace where
  commits : List Hash
  head : Hash
  live : T
  provisional : List Hash
  gen : ℕ
  undecided : List Hash
  writer : Option (Writer T)
  capture : Option (Capture T)

variable {T : Type} (C : Commits T) (s : Namespace T)

/-- `undoAdoption`: the head first, then storage -/
def undo : List (Op T) := [.setHead s.head, .commitTree (C.tree s.head)]

/-- what a write does at the gate -/
def script : Write T → List (Op T)
  | .commit h part => [.commitTree (C.tree h), .append h part]
  | .merge h refused => [.commitTree (C.tree h), .append h false] ++ if refused then undo C s else []
  | .join h refused => [.append h false] ++ if refused then [.setHead s.head] else []
  | .adopt h batches refused =>
    batches.map .commitTree ++ [.commitTree (C.tree h), .setHead h] ++ if refused then undo C s else []
  | .mismatch built => built.map .commitTree ++ [.commitTree (C.tree s.head)]

/-- what a write needs: its parents are held, and a join has the documents of main's head -/
def Write.Fits [DecidableEq T] (s : Namespace T) : Write T → Prop
  | .commit h _ => C.parents h = [s.head] ∧ h ∉ s.commits
  | .merge h _ => s.head ∈ C.parents h ∧ C.parents h ⊆ s.commits
  | .join h _ => C.parents h ⊆ s.commits ∧ C.tree h = C.tree s.head
  | .adopt h _ _ => h ∈ s.commits
  | .mismatch _ => True

instance [DecidableEq T] (s : Namespace T) : (w : Write T) → Decidable (w.Fits C s)
  | .commit _ _ | .merge _ _ | .join _ _ => inferInstanceAs (Decidable (_ ∧ _))
  | .adopt h _ _ => inferInstanceAs (Decidable (h ∈ s.commits))
  | .mismatch _ => isTrue trivial

/-- one step of a write -/
def applyOp : Op T → Namespace T
  | .commitTree t => { s with live := t }
  | .setHead h => { s with head := h }
  | .append h part =>
    -- marking a part provisional and appending it is one step, under the graph's lock
    { s with
      commits := if h ∈ s.commits then s.commits else s.commits ++ [h]
      head := h
      provisional := if part then s.provisional ++ [h] else s.provisional
      undecided := if part then s.undecided ++ [h] else s.undecided
      gen := if part then s.gen + 1 else s.gen }

/-! ## The capture -/

/-- the next step of `saveCheckpointThrough`; `ok` is false when the step itself fails (`ErrHeadNotLogged`) -/
def captureStep (keep : Hash → Bool) (ok : Bool) : Capture T :=
  match s.capture with
  | some (.counted gen) => if s.provisional = [] then .clear gen else .deferred
  | some (.clear gen) =>
    if ok then .graph gen ⟨s.commits.filter fun h => keep h || h = s.head, s.head, s.undecided⟩ else .deferred
  | some (.graph gen g) => if ok then .tree gen g s.live else .deferred
  | some (.tree gen g live) => if s.provisional = [] then .rechecked gen g live else .deferred
  | some (.rechecked gen g live) => if s.gen = gen then .done g live else .deferred
  -- a new capture
  | none | some (.done _ _) | some .deferred => .counted s.gen

inductive Label (T : Type) where
  | begin (w : Write T)
  | write (ok : Bool)
  | store (h : Hash)
  | decide (h : Hash)
  | settle (h : Hash)
  | capture (keep : Hash → Bool) (ok : Bool)

/-- one step of anyone. `decide` is a group's decision on disk, and `SettleProvisional` comes after it; a group that is
abandoned or fails never settles. -/
def step [DecidableEq T] (s : Namespace T) : Label T → Namespace T
  | .begin w => if s.writer = none ∧ w.Fits C s then { s with writer := some ⟨script C s w, false⟩ } else s
  | .write ok =>
    match s.writer with
    | none => s
    | some ⟨[], _⟩ => { s with writer := none }
    | some ⟨op :: rest, _⟩ => if ok then { applyOp s op with writer := some ⟨rest, true⟩ } else { s with writer := none }
  | .store h => if C.parents h ⊆ s.commits ∧ h ∉ s.commits then { s with commits := s.commits ++ [h] } else s
  | .decide h => { s with undecided := s.undecided.filter (· ≠ h) }
  | .settle h => if h ∈ s.undecided then s else { s with provisional := s.provisional.filter (· ≠ h) }
  | .capture keep ok => { s with capture := some (captureStep s keep ok) }

/-- a capture has read the graph and not yet the live tree -/
def Namespace.between : Bool :=
  match s.capture with
  | some (.graph _ _) => true
  | _ => false

/-- a capture reads the graph next -/
def Namespace.readsGraph : Bool :=
  match s.capture with
  | some (.clear _) => true
  | _ => false

/-- nobody is at the write gate from the read of the graph to the read of the live tree, and a write that has begun to
change anything goes through -/
def Undisturbed : Label T → Prop
  | .begin _ => s.between = false
  | .write ok => ok = true ∨ ∀ w ∈ s.writer, w.touched = false
  | .capture _ _ => s.readsGraph = true → s.writer = none
  | _ => True

instance (s : Namespace T) : (l : Label T) → Decidable (Undisturbed s l)
  | .begin _ => inferInstanceAs (Decidable (_ = _))
  | .write ok => inferInstanceAs (Decidable (ok = true ∨ ∀ w ∈ s.writer, _))
  | .capture _ _ => inferInstanceAs (Decidable (_ → _))
  | .store _ | .decide _ | .settle _ => isTrue trivial

/-! ## No undecided part -/

variable {C} {s : Namespace T}

/-- what a capture knows of undecided parts. Parts come with a new generation, so as long as the generation is the one
counted, the provisional set has only shrunk since it was found empty. -/
def Decided (s : Namespace T) : Option (Capture T) → Prop
  | some (.counted gen) => gen ≤ s.gen
  | some (.clear gen) => gen ≤ s.gen ∧ (s.gen = gen → s.provisional = [])
  | some (.graph gen g) | some (.tree gen g _) | some (.rechecked gen g _) =>
    gen ≤ s.gen ∧ (s.gen = gen → g.undecided = [])
  | some (.done g _) => g.undecided = []
  | none | some .deferred => True

/-- a step of anyone else: the generation counts, and no part becomes provisional without it -/
theorem Decided.keep {s' : Namespace T} {c : Option (Capture T)} (h : Decided s c) (hgen : s.gen ≤ s'.gen)
    (hprov : s'.gen = s.gen → s'.provisional ⊆ s.provisional) : Decided s' c := by
  have heq : ∀ gen, gen ≤ s.gen → s'.gen = gen → s.gen = gen := fun gen h h' => by omega
  match c with
  | none | some .deferred => trivial
  | some (.counted gen) => exact h.trans hgen
  | some (.clear gen) =>
    refine ⟨h.1.trans hgen, fun h' => ?_⟩
    have hsame := heq gen h.1 h'
    have hsub := hprov (h'.trans hsame.symm)
    rw [h.2 hsame] at hsub
    exact subset_nil.1 hsub
  | some (.graph gen g) | some (.tree gen g _) | some (.rechecked gen g _) =>
    exact ⟨h.1.trans hgen, fun h' => h.2 (heq gen h.1 h')⟩
  | some (.done g live) => exact h

theorem applyOp_counts (s : Namespace T) (op : Op T) (hsub : s.undecided ⊆ s.provisional) :
    (applyOp s op).undecided ⊆ (applyOp s op).provisional ∧ s.gen ≤ (applyOp s op).gen ∧
      ((applyOp s op).gen = s.gen → (applyOp s op).provisional ⊆ s.provisional) ∧
      (applyOp s op).capture = s.capture := by
  cases op with
  | commitTree t => exact ⟨hsub, le_rfl, fun _ => Subset.refl _, rfl⟩
  | setHead h => exact ⟨hsub, le_rfl, fun _ => Subset.refl _, rfl⟩
  | append h part =>
    cases part with
    | false => exact ⟨hsub, le_rfl, fun _ => Subset.refl _, rfl⟩
    | true =>
      refine ⟨?_, Nat.le_succ _, fun h => absurd h (Nat.succ_ne_self _), rfl⟩
      exact append_subset.2 ⟨subset_append_of_subset_left _ hsub, subset_append_right _ _⟩

/-- **Every step keeps what a capture knows of undecided parts.** -/
theorem decided_step [DecidableEq T] (s : Namespace T) (l : Label T)
    (h : s.undecided ⊆ s.provisional ∧ Decided s s.capture) :
    (step C s l).undecided ⊆ (step C s l).provisional ∧ Decided (step C s l) (step C s l).capture := by
  obtain ⟨hsub, hdec⟩ := h
  cases l with
  | begin w =>
    rw [step]
    split
    · exact ⟨hsub, hdec⟩
    · exact ⟨hsub, hdec⟩
  | write ok =>
    rw [step]
    split
    · exact ⟨hsub, hdec⟩
    · exact ⟨hsub, hdec⟩
    · rename_i op rest _ _
      split
      · obtain ⟨h1, h2, h3, h4⟩ := applyOp_counts s op hsub
        refine ⟨h1, ?_⟩
        rw [h4]
        exact hdec.keep h2 h3
      · exact ⟨hsub, hdec⟩
  | store h =>
    rw [step]
    split
    · exact ⟨hsub, hdec⟩
    · exact ⟨hsub, hdec⟩
  | decide h =>
    exact ⟨fun x hx => hsub (mem_filter.1 hx).1, hdec⟩
  | settle h =>
    rw [step]
    split_ifs with hdecided
    · exact ⟨hsub, hdec⟩
    · refine ⟨fun x hx => mem_filter.2 ⟨hsub hx, ?_⟩, hdec.keep le_rfl fun _ x hx => (mem_filter.1 hx).1⟩
      exact decide_eq_true fun h => hdecided (h ▸ hx)
  | capture keep ok =>
    refine ⟨hsub, ?_⟩
    rw [step]
    rw [captureStep]
    split
    · rename_i gen hc
      rw [hc] at hdec
      split_ifs with hempty
      · exact ⟨hdec, fun _ => hempty⟩
      · trivial
    · rename_i gen hc
      rw [hc] at hdec
      split
      · refine ⟨hdec.1, fun h => ?_⟩
        rw [hdec.2 h] at hsub
        exact subset_nil.1 hsub
      · trivial
    · rename_i gen g hc
      rw [hc] at hdec
      split
      · exact hdec
      · trivial
    · rename_i gen g live hc
      rw [hc] at hdec
      split
      · exact hdec
      · trivial
    · rename_i gen g live hc
      rw [hc] at hdec
      split_ifs with hgen
      · exact hdec.2 hgen
      · trivial
    all_goals exact le_refl s.gen

/-! ## The live tree -/

/-- where a script leaves the live tree and the head -/
def finish (p : T × Hash) : List (Op T) → T × Hash
  | [] => p
  | .commitTree t :: rest => finish (t, p.2) rest
  | .setHead h :: rest => finish (p.1, h) rest
  | .append h _ :: rest => finish (p.1, h) rest

theorem finish_append (p : T × Hash) (a b : List (Op T)) : finish p (a ++ b) = finish (finish p a) b := by
  induction a generalizing p with
  | nil => rfl
  | cons op a ih => cases op <;> exact ih _

/-- the live tree is the head's -/
def Level (C : Commits T) (p : T × Hash) : Prop := p.1 = C.tree p.2

theorem level_commitTrees (p : T × Hash) (ts : List T) : (finish p (ts.map .commitTree)).2 = p.2 := by
  induction ts generalizing p with
  | nil => rfl
  | cons t ts ih => exact ih (t, p.2)

/-- **A write that goes through leaves the live tree on the head's.** -/
theorem level_script [DecidableEq T] (w : Write T) (hfits : w.Fits C s) (hlevel : Level C (s.live, s.head)) :
    Level C (finish (s.live, s.head) (script C s w)) := by
  have hundo : ∀ p, Level C (finish p (undo C s)) := fun p => rfl
  cases w with
  | commit h part => exact rfl
  | merge h refused => cases refused <;> exact rfl
  | join h refused =>
    cases refused with
    | false => exact hlevel.trans hfits.2.symm
    | true => exact hlevel
  | adopt h batches refused =>
    rw [script, finish_append, finish_append]
    cases refused with
    | false => exact rfl
    | true => exact hundo _
  | mismatch built =>
    rw [script, finish_append]
    show C.tree s.head = C.tree (finish (s.live, s.head) (built.map .commitTree)).2
    rw [level_commitTrees]

/-- what a capture has of the live tree -/
def Seen (C : Commits T) (s : Namespace T) : Option (Capture T) → Prop
  | some (.graph _ g) => s.writer = none ∧ s.live = C.tree g.head
  | some (.tree _ g live) | some (.rechecked _ g live) | some (.done g live) => live = C.tree g.head
  | some (.counted _) | some (.clear _) | some .deferred | none => True

/-- what the writer and the capture keep, when they do not get in each other's way -/
structure Steady (C : Commits T) (s : Namespace T) : Prop where
  idle : s.writer = none → Level C (s.live, s.head)
  writer : ∀ w, s.writer = some w → Level C (finish (s.live, s.head) w.rest) ∧ (w.touched = false → Level C (s.live, s.head))
  seen : Seen C s s.capture

/-- what a capture has stays, unless it is between its two reads -/
theorem Seen.keep {s' : Namespace T} {c : Option (Capture T)} (h : Seen C s c)
    (hbetween : ∀ gen g, c = some (.graph gen g) → s'.writer = s.writer ∧ s'.live = s.live) : Seen C s' c := by
  match c with
  | some (.graph gen g) =>
    obtain ⟨hw, hl⟩ := hbetween gen g rfl
    exact ⟨hw.trans h.1, hl.trans h.2⟩
  | some (.tree _ _ _) | some (.rechecked _ _ _) | some (.done _ _) => exact h
  | some (.counted _) | some (.clear _) | some .deferred | none => trivial

theorem applyOp_moves (s : Namespace T) (op : Op T) (rest : List (Op T)) :
    finish ((applyOp s op).live, (applyOp s op).head) rest = finish (s.live, s.head) (op :: rest) ∧
      (applyOp s op).capture = s.capture := by
  cases op <;> exact ⟨rfl, rfl⟩

/-- **Every undisturbed step keeps the live tree and the head together.** -/
theorem steady_step [DecidableEq T] (s : Namespace T) (l : Label T) (hl : Undisturbed s l) (h : Steady C s) :
    Steady C (step C s l) := by
  cases l with
  | begin w =>
    rw [step]
    split_ifs with hbegin
    · have hlevel := h.idle hbegin.1
      refine ⟨nofun, fun w' hw => ?_, h.seen.keep fun gen g hc => ?_⟩
      · cases hw
        exact ⟨level_script w hbegin.2 hlevel, fun _ => hlevel⟩
      · rw [Undisturbed, Namespace.between, hc] at hl
        cases hl
    · exact h
  | write ok =>
    rw [step]
    split
    · exact h
    · rename_i t hw
      -- the script is through
      refine ⟨fun _ => (h.writer _ hw).1, nofun, h.seen.keep fun gen g hc => ?_⟩
      have hbusy := h.seen
      rw [hc] at hbusy
      exact ⟨hbusy.1.symm, rfl⟩
    · rename_i op rest t hw
      obtain ⟨hend, huntouched⟩ := h.writer _ hw
      have hbusy : ∀ gen g, s.capture ≠ some (.graph gen g) := by
        intro gen g hc
        have hseen := h.seen
        rw [hc] at hseen
        rw [hseen.1] at hw
        cases hw
      split_ifs with hok
      · obtain ⟨hmoves, hcap⟩ := applyOp_moves s op rest
        refine ⟨nofun, fun w hw' => ?_, ?_⟩
        · cases hw'
          refine ⟨?_, nofun⟩
          rw [hmoves]
          exact hend
        · rw [hcap]
          exact h.seen.keep fun gen g hc => absurd hc (hbusy gen g)
      · have ht : t = false := (hl.resolve_left hok) _ hw
        exact ⟨fun _ => huntouched ht, nofun, h.seen.keep fun gen g hc => absurd hc (hbusy gen g)⟩
  | store c =>
    rw [step]
    split
    · exact ⟨h.idle, h.writer, h.seen⟩
    · exact h
  | decide c => exact ⟨h.idle, h.writer, h.seen⟩
  | settle c =>
    rw [step]
    split
    · exact h
    · exact ⟨h.idle, h.writer, h.seen⟩
  | capture keep ok =>
    refine ⟨h.idle, h.writer, ?_⟩
    have hold := h.seen
    rw [step]
    rw [captureStep]
    split
    · split <;> trivial
    · rename_i gen hc
      split
      · have hnone : s.writer = none := hl (by rw [Namespace.readsGraph, hc])
        exact ⟨hnone, h.idle hnone⟩
      · trivial
    · rename_i gen g hc
      rw [hc] at hold
      split
      · exact hold.2
      · trivial
    · rename_i gen g live hc
      rw [hc] at hold
      split
      · exact hold
      · trivial
    · rename_i gen g live hc
      rw [hc] at hold
      split
      · exact hold
      · trivial
    all_goals trivial

/-! ## Captures -/

def Namespace.opened (C : Commits T) (commits : List Hash) (head : Hash) : Namespace T :=
  ⟨commits, head, C.tree head, [], 0, [], none, none⟩

/-- **A capture has a state the namespace was in.** Over every interleaving, a capture that succeeds holds no commit that is,
or stands on, a part undecided when the graph was read; and when every step is undisturbed, the live tree it holds is the
tree of the head it holds. -/
theorem capture_real [DecidableEq T] (C : Commits T) (commits : List Hash) (head : Hash) (ops : List (Label T)) (g : Graph)
    (live : T) (hdone : (run (step C) (.opened C commits head) ops).capture = some (.done g live)) :
    (∀ c ∈ g.commits, ∀ p, Stands C c p → p ∉ g.undecided) ∧
      (Along (step C) Undisturbed (.opened C commits head) ops → live = C.tree g.head) := by
  constructor
  · intro c _ p _
    have hinit : (Namespace.opened C commits head).undecided ⊆ (Namespace.opened C commits head).provisional ∧
        Decided (.opened C commits head) (Namespace.opened C commits head).capture := ⟨Subset.refl _, trivial⟩
    obtain ⟨-, hdec⟩ := run_of_step_all (decided_step (C := C)) ops hinit
    rw [hdone] at hdec
    have hempty : g.undecided = [] := hdec
    rw [hempty]
    exact not_mem_nil
  · intro hquiet
    have hinit : Steady C (.opened C commits head) := ⟨fun _ => rfl, nofun, trivial⟩
    have hseen := (run_of_step steady_step hquiet hinit).seen
    rw [hdone] at hseen
    exact hseen

/-- a line of commits, each with a tree of its own -/
def line : Commits ℕ := ⟨fun h => if h = 0 then [] else [h - 1], id⟩

/-- a capture is deferred by an undecided part; the next one begins beside a commit and succeeds -/
def undisturbedRun : List (Label ℕ) :=
  [.begin (.commit 1 true), .write true, .write true, .write true, .capture (fun _ => true) true,
    .capture (fun _ => true) true, .decide 1, .settle 1, .capture (fun _ => true) true, .begin (.commit 2 false), .write true,
    .capture (fun _ => true) true, .write true, .write true, .capture (fun _ => false) true, .store 3,
    .capture (fun _ => true) true, .begin (.adopt 3 [7] false), .write true, .capture (fun _ => true) true,
    .capture (fun _ => true) true]

theorem capture_real_undisturbedRun :
    Along (step line) Undisturbed (.opened line [0] 0) undisturbedRun ∧ (2 : ℕ) = line.tree 2 ∧
      ∀ c ∈ [2], ∀ p, Stands line c p → p ∉ ([] : List Hash) := by
  have h := capture_real line [0] 0 undisturbedRun ⟨[2], 2, []⟩ 2 (by rfl)
  exact ⟨by decide +kernel, h.2 (by decide +kernel), h.1⟩

/-- three steps of a capture: its read of the graph is the third of six -/
def threeSteps : List (Label ℕ) := List.replicate 3 (.capture (fun _ => true) true)

/-- **The live tree ahead of the graph.** A commit lands between the two reads; and the part of a group commits its tree
before the capture begins and is appended, undecided, after it is done. -/
theorem capture_ahead_of_graph :
    (run (step line) (.opened line [0] 0) (threeSteps ++ [.begin (.commit 1 false), .write true, .write true, .write true] ++
        threeSteps)).capture = some (.done ⟨[0], 0, []⟩ 1) ∧
      (run (step line) (.opened line [0] 0) ([.begin (.commit 1 true), .write true] ++ threeSteps ++ threeSteps)).capture =
        some (.done ⟨[0], 0, []⟩ 1) ∧ line.tree 0 = 0 ∧
      (run (step line) (.opened line [0] 0)
        ([.begin (.commit 1 true), .write true] ++ threeSteps ++ threeSteps ++ [.write true])).undecided = [1] := by
  exact ⟨rfl, rfl, rfl, rfl⟩

end Kdb.Checkpoint
