/-
The commit DAG of one namespace (`dag/in_memory_commit_dag.go`, `ancestry.go`, `provisional.go`).

Commits are content addressed: the table lists the commits in the order they were stored, a hash is a place in it, and
storing a commit that is already there gives its old hash back (`putCommit`). `append` is `appendCommitLocked`: the
parents must be present, `expectedHead` is the compare-and-swap on main (`none`: append detached and re-point main),
the timestamp is raised past the parents', and main moves to the commit. Stubs, shallow roots, other branches,
attachment tables and the provisional marks are left out.
- `append_cases`: everything a successful append does.
- `Ancestor`: reachability through parents; `Ancestor.mono`: it only grows when commits are appended.
- `ancestorClosure`, `commonAncestor`, `commitsSince`, `topoSort`: the walks `Engine.Merge` makes.
-/
import Kdb.Document.Commit

namespace Kdb

/-- `InMemoryCommitDag`; `treeStore` tells whether trees live in an external store (`SetTreeStore`) -/
structure Dag where
  commits : List Commit
  main : Hash
  treeStore : Bool

/-- the errors of `appendCommitLocked` -/
inductive AppendError where
  | missingCommit (hash : Hash)
  | headConflict (expected actual : Hash)
  deriving DecidableEq

namespace Dag

/-- a new DAG: the genesis commit over the empty tree, main on it (`NewInMemoryCommitDag`) -/
def genesis (treeStore : Bool) : Dag where
  commits := [⟨[], 1, 0, 2, [], ∅, none, "genesis"⟩]
  main := 0
  treeStore := treeStore

variable (d : Dag)

/-- `GetCommit` -/
def get (h : Hash) : Option Commit := d.commits[h]?

/-- the parents a walk expands -/
def parents (h : Hash) : List Hash :=
  match d.get h with
  | some c => c.parents
  | none => []

def headIs (h : Hash) : Bool := d.main = h

/-- `GetCommitByTransactionID`: the first commit stored for a transaction id -/
def commitByTransactionId (id : TxId) : Option Hash :=
  d.commits.findIdx? fun c => c.transactionId = id

/-- `causalTimestampLocked`: raised one past the latest parent where needed -/
def causalTimestamp (ts : ℕ) (parents : List Hash) : ℕ :=
  parents.foldl (fun micros p =>
    match d.get p with
    | some c => if micros ≤ c.timestamp then c.timestamp + 1 else micros
    | none => micros) ts

/-- `putCommitLocked`: a commit already stored keeps its hash -/
def putCommit (c : Commit) : Dag × Hash :=
  match d.commits.findIdx? (· = c) with
  | some h => (d, h)
  | none => ({ d with commits := d.commits ++ [c] }, d.commits.length)

/-- the commit `appendCommitLocked` builds (`BuildCommitWithAttachments`) -/
def buildCommit (tx : Transaction) (parents : List Hash) (tree : Tree) (schemaHash : Option ℕ) (message : String) : Commit where
  parents := parents
  transactionId := tx.id
  timestamp := d.causalTimestamp tx.timestamp parents
  author := tx.author
  operations := tx.operations
  tree := tree
  schemaHash := schemaHash
  message := message

/-- `appendCommitLocked` on main -/
def append (tx : Transaction) (parents : List Hash) (tree : Tree) (schemaHash : Option ℕ)
    (message : String) (expectedHead : Option Hash) : Except AppendError (Dag × Hash) :=
  match parents.find? fun p => (d.get p).isNone with
  | some p => .error (.missingCommit p)
  | none =>
    match expectedHead with
    | some e =>
      if d.main ≠ e then .error (.headConflict e d.main)
      else
        let r := d.putCommit (d.buildCommit tx parents tree schemaHash message)
        .ok ({ r.1 with main := r.2 }, r.2)
    | none =>
      let r := d.putCommit (d.buildCommit tx parents tree schemaHash message)
      .ok ({ r.1 with main := r.2 }, r.2)

/-! ## Walks -/

/-- `ancestorClosureLocked`: breadth first over parents, each commit once -/
def closureFrom (d : Dag) : (fuel : ℕ) → (queue acc : List Hash) → List Hash
  | 0, _, acc => acc
  | _ + 1, [], acc => acc
  | fuel + 1, h :: queue, acc =>
    if h ∈ acc then closureFrom d fuel queue acc else closureFrom d fuel (queue ++ d.parents h) (acc ++ [h])

/-- one turn for the start and one for every parent edge -/
def walkFuel : ℕ := 2 + (d.commits.map fun c => c.parents.length).sum

def ancestorClosure (d : Dag) (start : Hash) : List Hash := d.closureFrom d.walkFuel [start] []

/-- the walk of `CommonAncestor` from the second commit -/
def commonAncestorFrom (d : Dag) (setA : List Hash) : (fuel : ℕ) → (queue seen : List Hash) → Option Hash
  | 0, _, _ => none
  | _ + 1, [], _ => none
  | fuel + 1, h :: queue, seen =>
    if h ∈ seen then commonAncestorFrom d setA fuel queue seen
    else if h ∈ setA then some h
    else commonAncestorFrom d setA fuel (queue ++ d.parents h) (h :: seen)

def commonAncestor (d : Dag) (a b : Hash) : Option Hash :=
  d.commonAncestorFrom (d.ancestorClosure a) d.walkFuel [b] []

variable (hexLe : Hash → Hash → Bool)

def sortHex (hs : List Hash) : List Hash := hs.insertionSort fun a b => hexLe a b = true

def commitsSince (d : Dag) (head ancestor : Hash) : List Hash :=
  sortHex hexLe ((d.ancestorClosure head).filter fun h => h ∉ d.ancestorClosure ancestor)

/-- the children edges of `h` inside `set` -/
def childrenIn (set : List Hash) (h : Hash) : List Hash :=
  set.flatMap fun c => (d.parents c).filterMap fun p => if p = h then some c else none

/-- one turn of the topological sort: the children that lose their last open parent join the queue -/
def release (kids : List Hash) (indegree : Hash → ℕ) (queue : List Hash) : (Hash → ℕ) × List Hash :=
  kids.foldl (fun (s : (Hash → ℕ) × List Hash) k =>
    let indegree := Function.update s.1 k (s.1 k - 1)
    (indegree, if indegree k = 0 then s.2 ++ [k] else s.2)) (indegree, queue)

/-- the loop of `topoSort` -/
def topoLoop (d : Dag) (set : List Hash) : (fuel : ℕ) → (queue : List Hash) → (indegree : Hash → ℕ) →
    (out : List Hash) → List Hash
  | 0, _, _, out => out
  | _ + 1, [], _, out => out
  | fuel + 1, h :: queue, indegree, out =>
    let r := release (sortHex hexLe (d.childrenIn set h)) indegree queue
    topoLoop d set fuel r.2 r.1 (out ++ [h])

/-- `topoSort`: parents first, ties by hex; the plain hex order when the set has a cycle -/
def topoSort (d : Dag) (hashes : List Hash) : List Hash :=
  let set := hashes.filter fun h => (d.get h).isSome
  let indegree : Hash → ℕ := fun h => ((d.parents h).filter (· ∈ set)).length
  let out := d.topoLoop hexLe set set.length (sortHex hexLe (set.filter fun h => indegree h = 0)) indegree []
  if out.length = set.length then out else sortHex hexLe set

/-! ## What appending does -/

/-- `t` extends `s`: every stored commit keeps its hash -/
def Extends (s t : Dag) : Prop := ∀ h c, s.get h = some c → t.get h = some c

theorem Extends.refl (s : Dag) : Extends s s := fun _ _ h => h

variable {s t d : Dag} {h a : Hash}

theorem Extends.trans {u : Dag} (h1 : Extends s t) (h2 : Extends t u) : Extends s u :=
  fun h c hc => h2 h c (h1 h c hc)

theorem commitByTransactionId_mono (he : Extends s t) {id : TxId} (hs : s.commitByTransactionId id = some h) :
    t.commitByTransactionId id = some h := by
  obtain ⟨hlt, hp, hmin⟩ := List.findIdx?_eq_some_iff_getElem.1 hs
  have hkeep : ∀ (i : ℕ) (hi : i < s.commits.length), t.commits[i]? = some s.commits[i] :=
    fun i hi => he i _ (List.getElem?_eq_getElem hi)
  obtain ⟨hlt', heq⟩ := List.getElem?_eq_some_iff.1 (hkeep h hlt)
  refine List.findIdx?_eq_some_iff_getElem.2 ⟨hlt', heq ▸ hp, ?_⟩
  intro j hj
  obtain ⟨_, hj'⟩ := List.getElem?_eq_some_iff.1 (hkeep j (hj.trans hlt))
  exact hj' ▸ hmin j hj

theorem putCommit_get (d : Dag) (c : Commit) : (d.putCommit c).1.get (d.putCommit c).2 = some c := by
  unfold putCommit
  split
  · rename_i h hf
    obtain ⟨hlt, hp, -⟩ := List.findIdx?_eq_some_iff_getElem.1 hf
    have hc : d.commits[h] = c := by simpa using hp
    simp [get, List.getElem?_eq_getElem hlt, hc]
  · simp [get]

theorem putCommit_extends (d : Dag) (c : Commit) : Extends d (d.putCommit c).1 := by
  intro h c' hc
  unfold putCommit
  split
  · exact hc
  · have hlt : h < d.commits.length := (List.getElem?_eq_some_iff.1 hc).1
    simpa [get, List.getElem?_append_left hlt] using hc

/-- a commit found after `putCommit` was there before or is the one put -/
theorem putCommit_inv {c c' : Commit} (hg : (d.putCommit c).1.get h = some c') :
    d.get h = some c' ∨ (h = (d.putCommit c).2 ∧ c' = c) := by
  unfold putCommit at hg ⊢
  split at hg
  · exact Or.inl hg
  · by_cases hlt : h < d.commits.length
    · left
      simpa [get, List.getElem?_append_left hlt] using hg
    · right
      have hle : d.commits.length ≤ h := not_lt.1 hlt
      rw [get, List.getElem?_append_right hle] at hg
      obtain ⟨hi, he⟩ := List.getElem?_eq_some_iff.1 hg
      have h0 : h - d.commits.length = 0 := by simpa using hi
      have heq : h = d.commits.length := le_antisymm (Nat.sub_eq_zero_iff_le.1 h0) hle
      exact ⟨heq, by simpa using he.symm⟩

@[simp] theorem putCommit_treeStore (d : Dag) (c : Commit) : (d.putCommit c).1.treeStore = d.treeStore := by
  unfold putCommit
  split <;> rfl

/-- **What a successful append does.** The parents are stored, an expected head is main's head, the built commit is
stored under the hash returned, main moves there, and no stored commit changes. -/
structure Appended (d d' : Dag) (h : Hash) (c : Commit) (expectedHead : Option Hash) : Prop where
  parents : ∀ p ∈ c.parents, (d.get p).isSome
  expected : ∀ e, expectedHead = some e → d.main = e
  stored : d'.get h = some c
  main : d'.main = h
  grows : Extends d d'
  only : ∀ h' c', d'.get h' = some c' → d.get h' = some c' ∨ (h' = h ∧ c' = c)
  treeStore : d'.treeStore = d.treeStore

theorem append_cases {d' : Dag} {tx : Transaction} {ps : List Hash} {tree : Tree} {sh : Option ℕ} {m : String}
    {e : Option Hash} (ha : d.append tx ps tree sh m e = .ok (d', h)) :
    Appended d d' h (d.buildCommit tx ps tree sh m) e := by
  have hps : ps.find? (fun p => (d.get p).isNone) = none := by
    cases hf : ps.find? fun p => (d.get p).isNone with
    | none => rfl
    | some p => simp [append, hf] at ha
  have hne : ∀ x, e = some x → d.main = x := by
    intro x hx
    by_contra hc
    simp [append, hps, hx, hc] at ha
  have hr : (d', h) = ({ (d.putCommit (d.buildCommit tx ps tree sh m)).1 with
      main := (d.putCommit (d.buildCommit tx ps tree sh m)).2 },
      (d.putCommit (d.buildCommit tx ps tree sh m)).2) := by
    cases e with
    | none => simpa [append, hps] using ha.symm
    | some x => simpa [append, hps, hne x rfl] using ha.symm
  obtain ⟨rfl, rfl⟩ := Prod.mk.inj hr
  refine ⟨?_, hne, putCommit_get d _, rfl, putCommit_extends d _, fun h' c' hg => putCommit_inv hg, ?_⟩
  · intro p hp
    have := List.find?_eq_none.1 hps p hp
    cases hg : d.get p with
    | none => simp [hg] at this
    | some _ => rfl
  · exact putCommit_treeStore d _

/-- an append whose parents are stored and whose expected head is main's succeeds -/
theorem append_ok (d : Dag) (tx : Transaction) (ps : List Hash) (tree : Tree) (sh : Option ℕ) (m : String)
    (e : Option Hash) (hps : ∀ p ∈ ps, (d.get p).isSome) (he : ∀ x, e = some x → d.main = x) :
    ∃ r, d.append tx ps tree sh m e = .ok r := by
  have hf : ps.find? (fun p => (d.get p).isNone) = none := by
    rw [List.find?_eq_none]
    intro p hp
    have := hps p hp
    simp [Option.isSome_iff_ne_none.1 this]
  cases e with
  | none => simp [append, hf]
  | some x => simp [append, hf, he x rfl]

/-! ## Ancestors -/

/-- `t` is `p` or stands above it through single-parent commits only -/
inductive ChainFrom (d : Dag) (p : Hash) : Hash → Prop
  | refl : ChainFrom d p p
  | step {t q : Hash} {c : Commit} : d.get t = some c → c.parents = [q] → ChainFrom d p q → ChainFrom d p t

theorem ChainFrom.mono {p : Hash} (he : Extends s t) (hc : ChainFrom s p h) : ChainFrom t p h := by
  induction hc with
  | refl => exact .refl
  | step hg hp _ ih => exact .step (he _ _ hg) hp ih

/-- `a` is `h` or reached from `h` through parents -/
inductive Ancestor (d : Dag) (a : Hash) : Hash → Prop
  | refl : Ancestor d a a
  | parent {h p : Hash} {c : Commit} : d.get h = some c → p ∈ c.parents → Ancestor d a p → Ancestor d a h

theorem Ancestor.mono (he : Extends s t) (ha : Ancestor s a h) : Ancestor t a h := by
  induction ha with
  | refl => exact .refl
  | parent hc hp _ ih => exact .parent (he _ _ hc) hp ih

theorem Ancestor.trans {b c : Hash} (hab : d.Ancestor a b) (hbc : d.Ancestor b c) : d.Ancestor a c := by
  induction hbc with
  | refl => exact hab
  | parent hg hp _ ih => exact .parent hg hp ih

/-- a set of hashes closed under parents holds every ancestor of its members -/
theorem Ancestor.mem_of_closed {s : List Hash} (ha : Ancestor d a h) (hcl : ∀ x ∈ s, ∀ p ∈ d.parents x, p ∈ s)
    (hh : h ∈ s) : a ∈ s := by
  induction ha with
  | refl => exact hh
  | parent hc hp _ ih => exact ih (hcl _ hh _ (by simpa [Dag.parents, hc] using hp))

end Dag

end Kdb
