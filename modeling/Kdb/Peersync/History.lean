/-
The commit history two peers share, and the questions a merge asks of it (`peersync/merge_resolution.go`,
`peersync/merge_semantics_v2.go`, `dag/ancestry.go`, `dag/merge_bases.go`, `dag/join.go`).

A history is a set of commits by hash: no stubs and no shallow roots, so every parent is held, and generation numbers
increase from parent to child. Hashes are arbitrary numbers: their order says nothing about the history.

- `valueAt`: a document's value at a commit is the nearest write along the first-parent chain. `tree_get`: it is what
  the commit's tree holds.
- `origin`: a value followed through the merges that took it from a parent, to the write that made it.
  `origin_some`: that write is in the history and made the same body.
- `body_eq_of_untouched`: heads with a common ancestor agree on every document that neither side's own commits write.

Generation walks are recursions on the generation (`RankedGraph.walk`). Merge bases are given by what they are, the
highest common ancestors, not by the painting walk that finds them. Attachment tables are left out.
-/
import Kdb.Document.Commit
import Kdb.Lib.RankedGraph

namespace Kdb.Peersync

open List

/-! ## Sorted sets -/

/-- the members of a list, each once, in order -/
def sorted (l : List ℕ) : List ℕ := l.dedup.insertionSort (· ≤ ·)

variable {l : List ℕ}

@[simp] theorem mem_sorted {x : ℕ} : x ∈ sorted l ↔ x ∈ l := by
  simp [sorted]

theorem nodup_sorted (l : List ℕ) : (sorted l).Nodup :=
  (perm_insertionSort _ _).nodup_iff.2 (nodup_dedup l)

theorem sorted_congr {l' : List ℕ} (h : ∀ x, x ∈ l ↔ x ∈ l') : sorted l = sorted l' := by
  refine Perm.eq_of_pairwise (fun a b _ _ hab hba => le_antisymm hab hba)
    (pairwise_insertionSort _ _) (pairwise_insertionSort _ _) ?_
  refine (perm_ext_iff_of_nodup (nodup_sorted l) (nodup_sorted l')).2 ?_
  intro x
  simpa using h x

/-- a commit graph in which every parent is held -/
structure History where
  commit : Hash → Option Commit
  generation : Hash → ℕ
  parents_held : ∀ h c, commit h = some c → ∀ p ∈ c.parents, ∃ cp, commit p = some cp
  generation_lt : ∀ h c, commit h = some c → ∀ p ∈ c.parents, generation p < generation h

namespace History

variable (H : History)

def parents (h : Hash) : List Hash := ((H.commit h).map Commit.parents).getD []

/-- the ancestry graph -/
def graph : RankedGraph Hash where
  parents := H.parents
  rank := H.generation
  rank_lt := by
    intro h p hp
    cases hc : H.commit h with
    | none => simp [parents, hc] at hp
    | some c => exact H.generation_lt h c hc p (by simpa [parents, hc] using hp)

variable {H}

variable {c ca cb : Commit} {x a b w : Hash} {d : DocId} {hs : List Hash}

theorem parents_of_commit {h : Hash} (hc : H.commit h = some c) : H.parents h = c.parents := by
  simp [parents, hc]

theorem mem_parents {p : Hash} (hc : H.commit x = some c) (hp : p ∈ c.parents) : p ∈ H.graph.parents x := by
  change p ∈ H.parents x
  rwa [parents_of_commit hc]

theorem held_of_below (h : H.graph.Below a x) : ∀ {c : Commit}, H.commit x = some c → ∃ ca, H.commit a = some ca := by
  induction h with
  | refl => exact fun hc => ⟨_, hc⟩
  | step hp h ih =>
    intro c hc
    have hp' : _ ∈ H.parents _ := hp
    rw [parents_of_commit hc] at hp'
    obtain ⟨cp, hcp⟩ := H.parents_held _ c hc _ hp'
    exact ih hcp

variable (H)

/-! ## Values and origins -/

/-- `docVal`: a document's body, nothing when absent, and the commit whose write produced it -/
structure DocVal where
  body : Option Fields
  writer : Option Hash
  deriving DecidableEq

/-- a document that was never written -/
def DocVal.unwritten : DocVal := ⟨none, none⟩

/-- one step of `valuesAt`: this commit's last operation on the document, else the first parent's value -/
def valueStep (x : Hash) (rest : Hash → DocId → DocVal) (d : DocId) : DocVal :=
  match H.commit x with
  | none => .unwritten
  | some c =>
    match Ops.after d c.operations with
    | some body => ⟨body, some x⟩
    | none =>
      match c.parents with
      | [] => .unwritten
      | p :: _ => rest p d

def valueAt : Hash → DocId → DocVal := H.graph.walk H.valueStep fun _ => .unwritten

/-- the body of a document at a commit -/
def bodyAt (x : Hash) (d : DocId) : Option Fields := (H.valueAt x d).body

/-- one step of `origin`: a merge that took the value from a parent passes the question to that parent -/
def originStep (x : Hash) (rest : Hash → DocId → Option Hash) (d : DocId) : Option Hash :=
  match (H.valueAt x d).writer with
  | none => none
  | some w =>
    if (H.parents w).length < 2 then some w
    else match (H.parents w).find? fun p => H.bodyAt p d = H.bodyAt x d with
      | none => some w
      | some p => rest p d

def origin : Hash → DocId → Option Hash := H.graph.walk H.originStep fun _ => none

/-- the timestamp a commit counts with; a document never written is earliest -/
def timestampOf (o : Option Hash) : ℤ := ((o.bind H.commit).map fun c => (c.timestamp : ℤ)).getD (-1)

/-- hexadecimal order; the zero hash, standing for no write, is lowest -/
def hexAfter : Option Hash → Option Hash → Bool
  | some a, some b => b < a
  | some _, none => true
  | none, _ => false

/-- `originLater`: by commit timestamp, then by hash -/
def originLater (a b : Option Hash) : Bool :=
  if H.timestampOf a ≠ H.timestampOf b then H.timestampOf b < H.timestampOf a else hexAfter a b

/-- `changed`: the write is one the other side does not have -/
def changed (o : Option Hash) (other : Hash) : Bool :=
  match o with
  | none => false
  | some h => !decide (H.graph.Below h other)

/-! ## Fields -/

def fieldText (body : Option Fields) (key : String) : Option Json := body.bind fun f => f.get key

/-- one step of `fieldOrigin` -/
def fieldOriginStep (x : Hash) (rest : Hash → DocId → String → Option Hash) (d : DocId) (key : String) : Option Hash :=
  match (H.valueAt x d).writer with
  | none => none
  | some w =>
    let same := fun p => decide (fieldText (H.bodyAt p d) key = fieldText (H.bodyAt x d) key)
    match H.parents w with
    | [] => some w
    | [p] => if same p then rest p d key else some w
    | ps =>
      -- the latest of the answers of the parents that hold the same field
      ((ps.filter same).map fun p => rest p d key).foldl
        (fun out o => match out with
          | none => some o
          | some out => some (if H.originLater o out then o else out)) none |>.getD (some w)

def fieldOrigin : Hash → DocId → String → Option Hash := H.graph.walk H.fieldOriginStep fun _ _ => none

/-! ## Ancestry -/

/-- `CommonAncestor`: the first common ancestor of a breadth-first walk from the second commit -/
def commonAncestor (a b : Hash) : Option Hash :=
  (List.range (H.generation b + 1)).findSome? fun n => (H.graph.level n b).find? fun h => decide (H.graph.Below h a)

/-- the members of a list below no other member, in hash order (`MaximalOf`) -/
def maximalOf (hs : List Hash) : List Hash :=
  sorted (hs.filter fun h => hs.all fun o => o = h || !decide (H.graph.Below h o))

/-- `MergeBases`: the nearest common ancestors of two sets of commits, in hash order -/
def mergeBases (as bs : List Hash) : List Hash :=
  H.maximalOf ((as.flatMap H.graph.closure).filter fun h => bs.any fun b => decide (H.graph.Below h b))

/-- `commitsBetween`, as a set: what `head` reaches and `base` does not -/
def commitsBetween (head base : Hash) : List Hash :=
  (H.graph.closure head).filter fun h => !decide (H.graph.Below h base)

/-- the documents operations name; the nil UUID stands for operations that name none -/
def opDocIds (ops : List Op) : List DocId := (ops.filterMap Op.docId?).filter fun d => d ≠ 0

/-- the documents either side wrote since they parted, in id order -/
def candidates (a b : Hash) : List DocId :=
  sorted ((H.commitsBetween a b ++ H.commitsBetween b a).flatMap fun h =>
    ((H.commit h).map fun c => opDocIds c.operations).getD [])

/-! ## Content-free merges -/

/-- `dag.MergeAuthorNodeID`, an id derived for the purpose -/
def mergeAuthorNodeId : NodeId := 0

def mergeMessage : String := "kdb:merge/1"

/-- `IsContentFreeMerge`: a plain peer-sync merge that holds exactly what each of its parents holds -/
def isContentFreeMerge (c : Commit) : Bool :=
  c.author = mergeAuthorNodeId && c.message = mergeMessage && c.parents ≠ [] &&
    c.parents.all fun p => (H.commit p).any fun cp => cp.tree = c.tree && cp.schemaHash = c.schemaHash

/-- `contentTips` from one head: the first commit on each path that carries content -/
def contentTips : Hash → List Hash :=
  H.graph.walk (fun h rest =>
    match H.commit h with
    | some c => if H.isContentFreeMerge c then c.parents.flatMap rest else [h]
    | none => [h]) []

/-- `FrontierOf` two heads -/
def frontierOf (a b : Hash) : List Hash := H.maximalOf (H.contentTips a ++ H.contentTips b)

variable {H}

theorem commonAncestor_isSome (h : ∃ c, H.graph.Below c a ∧ H.graph.Below c b) : (H.commonAncestor a b).isSome := by
  obtain ⟨c, hca, hcb⟩ := h
  obtain ⟨n, hn, hmem⟩ := RankedGraph.exists_level hcb
  rw [commonAncestor, List.findSome?_isSome_iff]
  exact ⟨n, mem_range.2 (Nat.lt_succ_of_le hn), List.find?_isSome.2 ⟨c, hmem, by simpa using hca⟩⟩

/-- a document that is no candidate is written by no commit only one side has, unless it is the nil UUID -/
theorem after_of_not_candidate (hd : d ≠ 0) (h : d ∉ H.candidates a b)
    (hx : H.graph.Below x a ∧ ¬ H.graph.Below x b ∨ H.graph.Below x b ∧ ¬ H.graph.Below x a)
    (hc : H.commit x = some c) : Ops.after d c.operations = none := by
  by_contra hw
  refine h (mem_sorted.2 (mem_flatMap.2 ⟨x, ?_, ?_⟩))
  · simpa [commitsBetween, RankedGraph.mem_closure] using hx
  · simpa [hc, opDocIds, hd] using Ops.mem_of_after hw

theorem nil_not_candidate (a b : Hash) : 0 ∉ H.candidates a b := by
  intro h
  obtain ⟨x, -, hx⟩ := mem_flatMap.1 (mem_sorted.1 h)
  cases hc : H.commit x <;> simp [hc, opDocIds] at hx

theorem candidates_comm (a b : Hash) : H.candidates a b = H.candidates b a := by
  refine sorted_congr ?_
  intro d
  simp only [flatMap_append, mem_append, or_comm]

theorem frontierOf_comm (a b : Hash) : H.frontierOf a b = H.frontierOf b a := by
  refine sorted_congr ?_
  simp [or_comm, and_comm]

variable (H)

/-! ## What values are -/

/-- every commit's tree is its first parent's tree with its operations applied -/
def Replays : Prop :=
  ∀ h c, H.commit h = some c →
    c.tree = Tree.applyOps (((c.parents.head?.bind H.commit).map Commit.tree).getD ∅) c.operations

/-- no commit writes a document under the nil UUID -/
def NilUnwritten : Prop := ∀ h c, H.commit h = some c → Ops.after 0 c.operations = none

/-- every commit with several parents writes every document on which two of its parents differ -/
def MergesWrite : Prop :=
  ∀ h c, H.commit h = some c → 2 ≤ c.parents.length →
    ∀ p ∈ c.parents, ∀ q ∈ c.parents, ∀ d, H.bodyAt p d ≠ H.bodyAt q d → (Ops.after d c.operations).isSome

variable {H}

theorem valueAt_eq (x : Hash) (d : DocId) : H.valueAt x d = H.valueStep x H.valueAt d := by
  refine congrFun (RankedGraph.walk_eq (G := H.graph) ?_ x) d
  intro y f g h
  funext e
  unfold valueStep
  split
  · rfl
  · rename_i c hc
    split
    · rfl
    · split
      · rfl
      · rename_i p ps hps
        exact congrFun (h p (H.generation_lt y c hc p (by simp [hps]))) e

theorem valueAt_written {body : Option Fields} (hc : H.commit x = some c) (hw : Ops.after d c.operations = some body) :
    H.valueAt x d = ⟨body, some x⟩ := by
  rw [valueAt_eq]
  simp [valueStep, hc, hw]

theorem valueAt_unwritten {p : Hash} {ps : List Hash} (hc : H.commit x = some c)
    (hw : Ops.after d c.operations = none) (hps : c.parents = p :: ps) : H.valueAt x d = H.valueAt p d := by
  rw [valueAt_eq]
  simp [valueStep, hc, hw, hps]

theorem valueAt_root (hc : H.commit x = some c) (hw : Ops.after d c.operations = none) (hps : c.parents = []) :
    H.valueAt x d = .unwritten := by
  rw [valueAt_eq]
  simp [valueStep, hc, hw, hps]

theorem valueAt_missing (hc : H.commit x = none) (d : DocId) : H.valueAt x d = .unwritten := by
  rw [valueAt_eq]
  simp [valueStep, hc]

/-- induction over the held commits, parents first -/
theorem held_induction {P : ∀ x c, H.commit x = some c → Prop}
    (step : ∀ x c hc, (∀ y, H.generation y < H.generation x → ∀ cy hcy, P y cy hcy) → P x c hc) : ∀ x c hc, P x c hc := by
  intro x
  induction hn : H.generation x using Nat.strong_induction_on generalizing x with
  | _ n ih => exact fun c hc => step x c hc fun y hy => ih _ (hn ▸ hy) y rfl

/-- induction along the first-parent chain to the commit that wrote a document -/
theorem value_induction (d : DocId) {P : ∀ x c, H.commit x = some c → Prop}
    (written : ∀ x c hc body, Ops.after d c.operations = some body → P x c hc)
    (root : ∀ x c hc, Ops.after d c.operations = none → c.parents = [] → P x c hc)
    (child : ∀ x c hc p ps cp hcp, Ops.after d c.operations = none → c.parents = p :: ps → P p cp hcp → P x c hc) :
    ∀ x c hc, P x c hc := by
  intro x c hc
  induction x, c, hc using held_induction with
  | step x c hc ih =>
    cases hw : Ops.after d c.operations with
    | some body => exact written x c hc body hw
    | none =>
      cases hps : c.parents with
      | nil => exact root x c hc hw hps
      | cons p ps =>
        have hp : p ∈ c.parents := by simp [hps]
        obtain ⟨cp, hcp⟩ := H.parents_held x c hc p hp
        exact child x c hc p ps cp hcp hw hps (ih p (H.generation_lt x c hc p hp) cp hcp)

/-- **Trees hold values.** A commit's tree holds each document as the first-parent walk reads it. -/
theorem tree_get (hr : H.Replays) (hc : H.commit x = some c) (d : DocId) : c.tree[d]? = H.bodyAt x d := by
  induction x, c, hc using value_induction d with
  | written x c hc body hw => simp [hr x c hc, Tree.applyOps_get, bodyAt, valueAt_written hc hw, hw]
  | root x c hc hw hps => simp [hr x c hc, Tree.applyOps_get, bodyAt, valueAt_root hc hw hps, hw, hps, DocVal.unwritten]
  | child x c hc p ps cp hcp hw hps ih =>
    rw [hr x c hc, Tree.applyOps_get, bodyAt, valueAt_unwritten hc hw hps]
    simpa [hw, hps, hcp, bodyAt] using ih

/-- the writer of a value is in the history and its operations left that body -/
theorem writer_some (hc : H.commit x = some c) (hw : (H.valueAt x d).writer = some w) :
    H.graph.Below w x ∧ ∃ cw, H.commit w = some cw ∧ Ops.after d cw.operations = some (H.bodyAt x d) := by
  induction x, c, hc using value_induction d with
  | written x c hc body ha =>
    rw [valueAt_written hc ha] at hw
    cases hw
    exact ⟨.refl, c, hc, by rw [ha, bodyAt, valueAt_written hc ha]⟩
  | root x c hc ha hps => simp [valueAt_root hc ha hps, DocVal.unwritten] at hw
  | child x c hc p ps cp hcp ha hps ih =>
    rw [valueAt_unwritten hc ha hps] at hw
    rw [bodyAt, valueAt_unwritten hc ha hps]
    obtain ⟨hb, hops⟩ := ih hw
    exact ⟨.step (mem_parents hc (by simp [hps])) hb, hops⟩

theorem body_of_writer_none (h : (H.valueAt x d).writer = none) : H.bodyAt x d = none := by
  unfold bodyAt
  cases hc : H.commit x with
  | none => rw [valueAt_missing hc, DocVal.unwritten]
  | some c =>
    induction x, c, hc using value_induction d with
    | written x c hc body ha => simp [valueAt_written hc ha] at h
    | root x c hc ha hps => rw [valueAt_root hc ha hps, DocVal.unwritten]
    | child x c hc p ps cp hcp ha hps ih =>
      rw [valueAt_unwritten hc ha hps] at h ⊢
      exact ih h

theorem generation_lt_of_writer {p : Hash} (hw : (H.valueAt x d).writer = some w) (hp : p ∈ H.parents w) :
    H.generation p < H.generation x := by
  cases hc : H.commit x with
  | none => simp [valueAt_missing hc, DocVal.unwritten] at hw
  | some c => exact (H.graph.rank_lt w p hp).trans_le (writer_some hc hw).1.rank_le

/-- induction from a value to the values at the parents of its writer -/
theorem writer_induction (d : DocId) {P : ∀ x c, H.commit x = some c → Prop}
    (absent : ∀ x c hc, (H.valueAt x d).writer = none → P x c hc)
    (written : ∀ x c hc w cw, (H.valueAt x d).writer = some w → H.graph.Below w x → H.commit w = some cw →
      Ops.after d cw.operations = some (H.bodyAt x d) →
      (∀ p ∈ H.parents w, ∃ cp, ∃ hcp : H.commit p = some cp, P p cp hcp) → P x c hc) : ∀ x c hc, P x c hc := by
  intro x c hc
  induction x, c, hc using held_induction with
  | step x c hc ih =>
    cases hw : (H.valueAt x d).writer with
    | none => exact absent x c hc hw
    | some w =>
      obtain ⟨hbw, cw, hcw, hops⟩ := writer_some hc hw
      refine written x c hc w cw hw hbw hcw hops ?_
      intro p hp
      obtain ⟨cp, hcp⟩ := held_of_below (.parent hp) hcw
      exact ⟨cp, hcp, ih p (generation_lt_of_writer hw hp) cp hcp⟩

theorem origin_eq (x : Hash) (d : DocId) : H.origin x d = H.originStep x H.origin d := by
  refine congrFun (RankedGraph.walk_eq (G := H.graph) ?_ x) d
  intro y f g h
  funext e
  unfold originStep
  split
  · rfl
  · rename_i w hw
    split
    · rfl
    · split
      · rfl
      · rename_i p hp
        exact congrFun (h p (generation_lt_of_writer hw (mem_of_find?_eq_some hp))) e

/-- a value's origin is its writer, or the origin at one of the writer's parents that holds the same body -/
theorem origin_cases (hw : (H.valueAt x d).writer = some w) :
    H.origin x d = some w ∨ ∃ p ∈ H.parents w, H.bodyAt p d = H.bodyAt x d ∧ H.origin x d = H.origin p d := by
  rw [origin_eq]
  simp only [originStep, hw]
  split
  · exact .inl rfl
  · split
    · exact .inl rfl
    · rename_i p hp
      exact .inr ⟨p, mem_of_find?_eq_some hp, by simpa using List.find?_some hp, rfl⟩

/-- **Origins.** The origin of a value is a write in the history that made the same body. -/
theorem origin_some (hc : H.commit x = some c) {o : Hash} (ho : H.origin x d = some o) :
    H.graph.Below o x ∧ ∃ co, H.commit o = some co ∧ Ops.after d co.operations = some (H.bodyAt x d) := by
  induction x, c, hc using writer_induction d with
  | absent x c hc hw =>
    rw [origin_eq] at ho
    simp [originStep, hw] at ho
  | written x c hc w cw hw hbw hcw hops ih =>
    rcases origin_cases hw with heq | ⟨p, hp, hbody, heq⟩
    · rw [heq] at ho
      cases ho
      exact ⟨hbw, cw, hcw, hops⟩
    · obtain ⟨cp, hcp, ih⟩ := ih p hp
      obtain ⟨hbo, hopso⟩ := ih (heq ▸ ho)
      exact ⟨hbo.trans ((RankedGraph.Below.parent hp).trans hbw), hbody ▸ hopso⟩

theorem body_of_origin_none (hc : H.commit x = some c) (ho : H.origin x d = none) : H.bodyAt x d = none := by
  induction x, c, hc using writer_induction d with
  | absent x c hc hw => exact body_of_writer_none hw
  | written x c hc w cw hw hbw hcw hops ih =>
    rcases origin_cases hw with heq | ⟨p, hp, hbody, heq⟩
    · rw [heq] at ho
      cases ho
    · obtain ⟨cp, hcp, ih⟩ := ih p hp
      rw [← hbody, ih (heq ▸ ho)]

theorem origin_ne_of_body_ne (ha : H.commit a = some ca) (hb : H.commit b = some cb) (h : H.bodyAt a d ≠ H.bodyAt b d) :
    H.origin a d ≠ H.origin b d := by
  intro heq
  cases ho : H.origin a d with
  | none => exact h (by rw [body_of_origin_none ha ho, body_of_origin_none hb (heq ▸ ho)])
  | some o =>
    obtain ⟨-, co, hco, hopsa⟩ := origin_some ha ho
    obtain ⟨-, co', hco', hopsb⟩ := origin_some hb (heq ▸ ho)
    rw [hco] at hco'
    cases hco'
    exact h (Option.some.inj (hopsa.symm.trans hopsb))

theorem bodyAt_writer (hc : H.commit x = some c) (hw : (H.valueAt x d).writer = some w) : H.bodyAt w d = H.bodyAt x d := by
  obtain ⟨-, cw, hcw, hops⟩ := writer_some hc hw
  rw [bodyAt, valueAt_written hcw hops]

/-! ## Field origins -/

/-- the latest of some answers, the first of them when several are equally late -/
def latestOf (H : History) (answers : List (Option Hash)) : Option (Option Hash) :=
  answers.foldl (fun out o => match out with
    | none => some o
    | some out => some (if H.originLater o out then o else out)) none

theorem latestOf_cons_cons (o o' : Option Hash) (answers : List (Option Hash)) :
    H.latestOf (o :: o' :: answers) = H.latestOf ((if H.originLater o' o then o' else o) :: answers) := rfl

theorem latestOf_mem {answers : List (Option Hash)} {o : Option Hash} (h : H.latestOf answers = some o) :
    o ∈ answers := by
  induction hn : answers.length generalizing answers o with
  | zero =>
    rw [length_eq_zero_iff.1 hn] at h
    cases h
  | succ n ih =>
    match answers with
    | [o₁] =>
      cases h
      exact mem_singleton.2 rfl
    | o₁ :: o₂ :: answers =>
      rw [latestOf_cons_cons] at h
      rcases mem_cons.1 (ih h (by simpa using hn)) with heq | hmem
      · split_ifs at heq <;> simp [heq]
      · simp [hmem]

/-- `fieldOrigin` at a writer with several parents -/
theorem fieldOriginStep_merge (hw : (H.valueAt x d).writer = some w) (hlen : 2 ≤ (H.parents w).length)
    (rest : Hash → DocId → String → Option Hash) (key : String) : H.fieldOriginStep x rest d key =
      (H.latestOf (((H.parents w).filter fun p => decide (fieldText (H.bodyAt p d) key = fieldText (H.bodyAt x d) key)).map
        fun p => rest p d key)).getD (some w) := by
  match hps : H.parents w with
  | [] => simp [hps] at hlen
  | [p] => simp [hps] at hlen
  | p :: q :: ps =>
    simp only [fieldOriginStep, hw, hps]
    rfl

/-- `fieldOrigin` asks only parents of the writer -/
theorem fieldOriginStep_congr (hw : (H.valueAt x d).writer = some w)
    {rest rest' : Hash → DocId → String → Option Hash} {key : String}
    (h : ∀ p ∈ H.parents w, rest p d key = rest' p d key) :
    H.fieldOriginStep x rest d key = H.fieldOriginStep x rest' d key := by
  by_cases hlen : 2 ≤ (H.parents w).length
  · rw [fieldOriginStep_merge hw hlen, fieldOriginStep_merge hw hlen]
    congr 2
    refine map_congr_left ?_
    intro p hp
    exact h p (mem_filter.1 hp).1
  · match hps : H.parents w with
    | [] => simp only [fieldOriginStep, hw, hps]
    | [p] => simp only [fieldOriginStep, hw, hps, h p (by simp [hps])]
    | p :: q :: ps => simp [hps] at hlen

theorem fieldOrigin_eq (x : Hash) (d : DocId) (key : String) :
    H.fieldOrigin x d key = H.fieldOriginStep x H.fieldOrigin d key := by
  refine congrFun (congrFun (RankedGraph.walk_eq (G := H.graph) ?_ x) d) key
  intro y f g h
  funext e k
  cases hw : (H.valueAt y e).writer with
  | none => simp only [fieldOriginStep, hw]
  | some w =>
    refine fieldOriginStep_congr hw ?_
    intro p hp
    rw [h p (generation_lt_of_writer hw hp)]

/-- a field's origin is the document's writer, or the origin at one of the writer's parents that holds the same -/
theorem fieldOrigin_cases (hw : (H.valueAt x d).writer = some w) (key : String) :
    H.fieldOrigin x d key = some w ∨ ∃ p ∈ H.parents w,
      fieldText (H.bodyAt p d) key = fieldText (H.bodyAt x d) key ∧ H.fieldOrigin x d key = H.fieldOrigin p d key := by
  rw [fieldOrigin_eq]
  by_cases hlen : 2 ≤ (H.parents w).length
  · rw [fieldOriginStep_merge hw hlen]
    cases hl : H.latestOf _ with
    | none => exact .inl rfl
    | some o =>
      obtain ⟨p, hp, rfl⟩ := mem_map.1 (latestOf_mem hl)
      obtain ⟨hp, hsame⟩ := mem_filter.1 hp
      exact .inr ⟨p, hp, of_decide_eq_true hsame, rfl⟩
  · match hps : H.parents w with
    | [] => exact .inl (by simp only [fieldOriginStep, hw, hps])
    | [p] =>
      simp only [fieldOriginStep, hw, hps]
      split_ifs with hsame
      · exact .inr ⟨p, by simp, of_decide_eq_true hsame, rfl⟩
      · exact .inl rfl
    | p :: q :: ps => simp [hps] at hlen

/-- what a commit left of a field; a field without an origin is absent -/
def fieldFrom (H : History) (d : DocId) (key : String) (o : Option Hash) : Option Json :=
  o.bind fun w => fieldText (H.bodyAt w d) key

/-- **Field origins.** A field's origin is in the history, and the field is as its origin left it. -/
theorem fieldOrigin_spec (hc : H.commit x = some c) (d : DocId) (key : String) :
    (∀ o, H.fieldOrigin x d key = some o → H.graph.Below o x) ∧
      H.fieldFrom d key (H.fieldOrigin x d key) = fieldText (H.bodyAt x d) key := by
  induction x, c, hc using writer_induction d with
  | absent x c hc hw =>
    have hnone : H.fieldOrigin x d key = none := by
      rw [fieldOrigin_eq]
      simp only [fieldOriginStep, hw]
    simp [hnone, fieldFrom, body_of_writer_none hw, fieldText]
  | written x c hc w cw hw hbw hcw hops ih =>
    rcases fieldOrigin_cases hw key with hself | ⟨p, hp, hsame, hpass⟩
    · rw [hself]
      refine ⟨?_, by rw [fieldFrom, Option.bind_some, bodyAt_writer hc hw]⟩
      intro o ho
      cases ho
      exact hbw
    · obtain ⟨cp, hcp, hbelow, hfrom⟩ := ih p hp
      rw [hpass, ← hsame]
      exact ⟨fun o ho => (hbelow o ho).trans ((RankedGraph.Below.parent hp).trans hbw), hfrom⟩

/-! ## Untouched documents -/

theorem body_eq_parent (hm : H.MergesWrite) (hq : ∀ c, H.commit x = some c → Ops.after d c.operations = none) :
    ∀ p ∈ H.graph.parents x, H.bodyAt x d = H.bodyAt p d := by
  intro p hp
  have hp' : p ∈ H.parents x := hp
  cases hc : H.commit x with
  | none => simp [parents, hc] at hp'
  | some c =>
    rw [parents_of_commit hc] at hp'
    cases hps : c.parents with
    | nil => simp [hps] at hp'
    | cons q qs =>
      have hxq : H.bodyAt x d = H.bodyAt q d := by rw [bodyAt, bodyAt, valueAt_unwritten hc (hq c hc) hps]
      rw [hxq]
      by_contra hne
      have hpq : p ≠ q := fun h => hne (by rw [h])
      have hlen : 2 ≤ c.parents.length := by
        rw [hps] at hp' ⊢
        have hpqs : p ∈ qs := (mem_cons.1 hp').resolve_left hpq
        have := length_pos_of_mem hpqs
        simp only [length_cons]
        omega
      have := hm x c hc hlen q (by simp [hps]) p hp' d hne
      simp [hq c hc] at this

/-- **Untouched documents.** Heads with a common ancestor agree on a document that neither side's own commits write. -/
theorem body_eq_of_untouched (hm : H.MergesWrite) (hcommon : ∃ c, H.graph.Below c a ∧ H.graph.Below c b)
    (ha : ∀ x, H.graph.Below x a → ¬ H.graph.Below x b → ∀ c, H.commit x = some c → Ops.after d c.operations = none)
    (hb : ∀ x, H.graph.Below x b → ¬ H.graph.Below x a → ∀ c, H.commit x = some c → Ops.after d c.operations = none) :
    H.bodyAt a d = H.bodyAt b d :=
  RankedGraph.eq_of_quiet (f := fun x => H.bodyAt x d) hcommon (fun x hxa hxb => body_eq_parent hm (ha x hxa hxb))
    fun x hxb hxa => body_eq_parent hm (hb x hxb hxa)

/-- heads with a common ancestor agree on every document but the candidates -/
theorem body_eq_of_not_candidate (hm : H.MergesWrite) (hn : H.NilUnwritten)
    (hcommon : ∃ c, H.graph.Below c a ∧ H.graph.Below c b) (h : d ∉ H.candidates a b) :
    H.bodyAt a d = H.bodyAt b d := by
  by_cases hd : d = 0
  · subst hd
    exact body_eq_of_untouched hm hcommon (fun x _ _ => hn x) fun x _ _ => hn x
  · exact body_eq_of_untouched hm hcommon (fun x hxa hxb c hc => after_of_not_candidate hd h (.inl ⟨hxa, hxb⟩) hc)
      fun x hxb hxa c hc => after_of_not_candidate hd h (.inr ⟨hxb, hxa⟩) hc

/-! ## Frontiers -/

theorem mem_of_mem_maximalOf (h : x ∈ H.maximalOf hs) : x ∈ hs :=
  (mem_filter.1 (mem_sorted.1 h)).1

theorem maximalOf_ne_nil (h : hs ≠ []) : H.maximalOf hs ≠ [] := by
  obtain ⟨m, hm, htop⟩ := hs.toFinset.exists_max_image H.generation (toFinset_nonempty_iff hs |>.2 h)
  simp only [mem_toFinset] at hm htop
  refine ne_nil_of_mem (a := m) (mem_sorted.2 (mem_filter.2 ⟨hm, ?_⟩))
  simp only [all_eq_true, Bool.or_eq_true, decide_eq_true_eq, Bool.not_eq_true', decide_eq_false_iff_not]
  intro o ho
  by_cases hom : o = m
  · exact .inl hom
  · refine .inr fun hb => ?_
    obtain rfl | ⟨p, hp, hmp⟩ := hb.eq_or_parent
    · exact hom rfl
    · exact absurd (hmp.rank_le.trans_lt (H.graph.rank_lt o p hp)) (not_lt.2 (htop o ho))

theorem contentTips_eq (hc : H.commit x = some c) :
    H.contentTips x = if H.isContentFreeMerge c then c.parents.flatMap H.contentTips else [x] := by
  rw [contentTips, RankedGraph.walk_eq (G := H.graph) ?_ x]
  · simp only [hc]
  · intro y f g hfg
    cases hy : H.commit y with
    | none => simp only [hy]
    | some cy =>
      have hflat : cy.parents.flatMap f = cy.parents.flatMap g :=
        flatMap_congr fun p hp => hfg p (H.generation_lt y cy hy p hp)
      simp only [hy, hflat]

theorem tree_of_mem_contentTips {y : Hash} (hc : H.commit x = some c) (hy : y ∈ H.contentTips x) :
    (H.commit y).map Commit.tree = some c.tree := by
  induction hn : H.generation x using Nat.strong_induction_on generalizing x c with
  | _ n ih =>
    rw [contentTips_eq hc] at hy
    split_ifs at hy with hfree
    · obtain ⟨p, hp, hy⟩ := mem_flatMap.1 hy
      obtain ⟨cp, hcp⟩ := H.parents_held x c hc p hp
      have hall := (Bool.and_eq_true_iff.1 hfree).2
      have htree : cp.tree = c.tree := by
        have := all_eq_true.1 hall p hp
        simp only [hcp, Option.any_some, Bool.and_eq_true, decide_eq_true_eq] at this
        exact this.1
      rw [← htree]
      exact ih _ (hn ▸ H.generation_lt x c hc p hp) hcp hy rfl
    · obtain rfl := mem_singleton.1 hy
      simp [hc]

theorem contentTips_ne_nil (hc : H.commit x = some c) : H.contentTips x ≠ [] := by
  induction hn : H.generation x using Nat.strong_induction_on generalizing x c with
  | _ n ih =>
    rw [contentTips_eq hc]
    split_ifs with hfree
    · obtain ⟨p, hp⟩ : ∃ p, p ∈ c.parents := by
        refine exists_mem_of_ne_nil _ ?_
        have := (Bool.and_eq_true_iff.1 (Bool.and_eq_true_iff.1 hfree).1).2
        simpa using this
      obtain ⟨cp, hcp⟩ := H.parents_held x c hc p hp
      obtain ⟨y, hy⟩ := exists_mem_of_ne_nil _ (ih _ (hn ▸ H.generation_lt x c hc p hp) hcp rfl)
      exact ne_nil_of_mem (mem_flatMap.2 ⟨p, hp, hy⟩)
    · simp

/-- the frontier of two heads that hold the same documents holds them too, and is not empty -/
theorem frontierOf_spec (ha : H.commit a = some ca) (hb : H.commit b = some cb) (hsame : cb.tree = ca.tree) :
    H.frontierOf a b ≠ [] ∧ ∀ x ∈ H.frontierOf a b, (H.commit x).map Commit.tree = some ca.tree := by
  refine ⟨maximalOf_ne_nil fun hnil => contentTips_ne_nil ha (append_eq_nil_iff.1 hnil).1, ?_⟩
  intro x hx
  rcases mem_append.1 (mem_of_mem_maximalOf hx) with hx | hx
  · exact tree_of_mem_contentTips ha hx
  · rw [tree_of_mem_contentTips hb hx, hsame]

end History

end Kdb.Peersync
