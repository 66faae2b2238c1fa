/-
Merging by last write, over whole histories (`peersync/merge_resolution.go`, `dag/in_memory_commit_dag.go`).

A history grows by commits on one parent and by merges of two heads under the policy LAST_WRITE with no chain. What it
should hold is simple: each document at each head as the latest write in the head's history left it.
- `latestWrite`: the latest write of a document below a head, by timestamp and then by hash.
- `last_write_kept`: a head holds what the latest write left, in every run whose merges meet `FirstLatest`.
- `later_write_lost`: a run where the older of two writes wins, behind a join of equal writes.

The invariant is that a value's traced origin is the latest write (`Inv.latest`). A merge picks the later of the two
origins, so it keeps the invariant where it picks. Where the parents hold the same body nothing is picked, and the
trace follows the first parent: `FirstLatest` asks that this is not the older write.
-/
import Kdb.Lib.LatestBelow
import Kdb.Peersync.MergeRun

namespace Kdb.Peersync

open History List Option

/-! ## The latest write -/

/-- hashes in order, no hash below all -/
def hashKey : Option Hash → WithBot ℕ
  | none => ⊥
  | some h => (h : WithBot ℕ)

variable (H : History)

/-- writes in order: by timestamp, then by hash; no write is lowest -/
def originKey (o : Option Hash) : ℤ ×ₗ WithBot ℕ := toLex (H.timestampOf o, hashKey o)

/-- a commit with at most one parent that decides the document -/
def isWrite (d : DocId) (w : Hash) : Bool :=
  (H.commit w).any fun c => c.parents.length < 2 && (Ops.after d c.operations).isSome

/-- the latest write of a document in a head's history -/
def latestWrite (x : Hash) (d : DocId) : Option Hash :=
  ((H.graph.closure x).filter (isWrite H d)).foldl (fun o w => if H.originLater (some w) o then some w else o) none

/-- what a write left of the document; a document never written is absent -/
def writtenBy (d : DocId) (o : Option Hash) : Option Fields :=
  ((o.bind H.commit).bind fun c => Ops.after d c.operations).join

/-- a write of the document below the head that no other one is later than -/
structure Latest (x : Hash) (d : DocId) (o : Option Hash) : Prop where
  write : ∀ w, o = some w → H.graph.Below w x ∧ isWrite H d w
  top : ∀ w, H.graph.Below w x → isWrite H d w → originKey H (some w) ≤ originKey H o

variable {H : History} {x : Hash} {d : DocId} {o : Option Hash} {a b : Option Hash}

theorem hexAfter_iff : hexAfter a b ↔ hashKey b < hashKey a := by
  cases a <;> cases b <;> simp [hexAfter, hashKey]

theorem originLater_iff : H.originLater a b ↔ originKey H b < originKey H a := by
  unfold originLater originKey
  rw [Prod.Lex.toLex_lt_toLex]
  by_cases ht : H.timestampOf a = H.timestampOf b
  · simp [ht, hexAfter_iff]
  · simp [ht, Ne.symm ht]

theorem originKey_none_le (o : Option Hash) : originKey H none ≤ originKey H o := by
  have hts : -1 ≤ H.timestampOf o := by
    unfold timestampOf
    cases o.bind H.commit with
    | none => simp
    | some c => simp only [map_some, getD_some]; omega
  rw [originKey, originKey, Prod.Lex.toLex_le_toLex]
  rcases hts.lt_or_eq with hlt | heq
  · exact .inl hlt
  · exact .inr ⟨heq, bot_le⟩

theorem originKey_injective (h : originKey H a = originKey H b) : a = b := by
  have hkey : hashKey a = hashKey b := (Prod.ext_iff.1 (toLex.injective h)).2
  cases a <;> cases b <;> simp_all [hashKey]

variable {w p : Hash} {cx : Commit} {mark mark' : Hash → Prop} {f : Hash → Option Hash} {v : Option Fields}
  {parents : List Hash}

theorem isWrite_held (h : isWrite H d w) : ∃ c, H.commit w = some c := by
  cases hc : H.commit w with
  | none => simp [isWrite, hc] at h
  | some c => exact ⟨c, rfl⟩

theorem latest_iff : Latest H x d o ↔ H.graph.LatestBelow (fun w => isWrite H d w) (originKey H) x o :=
  ⟨fun h => ⟨h.write, h.top⟩, fun h => ⟨h.mem, h.top⟩⟩

/-- a head has one latest write -/
theorem Latest.unique {o' : Option Hash} (h : Latest H x d o) (h' : Latest H x d o') : o = o' :=
  (latest_iff.1 h).unique originKey_none_le (fun _ _ => originKey_injective) (latest_iff.1 h')

/-- the fold keeps the later of what it has and what it meets -/
theorem foldl_later (H : History) (ws : List Hash) (o : Option Hash) :
    let r := ws.foldl (fun o w => if H.originLater (some w) o then some w else o) o
    (r = o ∨ ∃ w ∈ ws, r = some w) ∧ originKey H o ≤ originKey H r ∧ ∀ w ∈ ws, originKey H (some w) ≤ originKey H r := by
  induction ws generalizing o with
  | nil => simp
  | cons w ws ih =>
    simp only [foldl_cons]
    by_cases hl : H.originLater (some w) o
    · rw [if_pos hl]
      obtain ⟨hr, hle, htop⟩ := ih (some w)
      refine ⟨.inr ?_, (originLater_iff.1 hl).le.trans hle, ?_⟩
      · exact hr.elim (fun h => ⟨w, .head _, h⟩) fun ⟨w', hw', h⟩ => ⟨w', .tail _ hw', h⟩
      · exact forall_mem_cons.2 ⟨hle, htop⟩
    · rw [if_neg hl]
      obtain ⟨hr, hle, htop⟩ := ih o
      refine ⟨hr.imp_right fun ⟨w', hw', h⟩ => ⟨w', .tail _ hw', h⟩, hle, ?_⟩
      exact forall_mem_cons.2 ⟨(not_lt.1 fun h => hl (originLater_iff.2 h)).trans hle, htop⟩

/-- the fold over a head's history finds the latest commit with a mark -/
theorem latestBelow_foldl (H : History) (x : Hash) (mark : Hash → Bool) :
    H.graph.LatestBelow (fun w => mark w) (originKey H) x (((H.graph.closure x).filter mark).foldl
      (fun o w => if H.originLater (some w) o then some w else o) none) := by
  obtain ⟨hr, -, htop⟩ := foldl_later H ((H.graph.closure x).filter mark) none
  refine ⟨?_, ?_⟩
  · intro w hw
    obtain hr | ⟨w', hw', hr⟩ := hr
    · cases hw.symm.trans hr
    · cases hw.symm.trans hr
      obtain ⟨hb, hw⟩ := mem_filter.1 hw'
      exact ⟨RankedGraph.mem_closure.1 hb, hw⟩
  · intro w hb hw
    exact htop w (mem_filter.2 ⟨RankedGraph.mem_closure.2 hb, hw⟩)

theorem latest_latestWrite (H : History) (x : Hash) (d : DocId) : Latest H x d (latestWrite H x d) :=
  latest_iff.2 (latestBelow_foldl H x (isWrite H d))

/-! ## The new commit of a history -/

variable {h : Hash} {c : Commit}

theorem isWrite_append {cw : Commit} (hw : H.commit w = some cw) : isWrite (H.append h c) d w = isWrite H d w := by
  simp [isWrite, hw, commit_append hw]

theorem isWrite_appended (hf : H.Free h c) :
    isWrite (H.append h c) d h = (decide (c.parents.length < 2) && (Ops.after d c.operations).isSome) := by
  rw [isWrite, commit_append_self hf, any_some]

theorem originKey_append (ho : ∀ w, o = some w → ∃ cw, H.commit w = some cw) :
    originKey (H.append h c) o = originKey H o := by
  cases o with
  | none => rfl
  | some w =>
    obtain ⟨cw, hcw⟩ := ho w rfl
    simp [originKey, timestampOf, hcw, commit_append hcw]

/-- what is latest below a commit stays so when the history grows -/
theorem latestBelow_append (hx : H.commit x = some cx) (hl : H.graph.LatestBelow mark (originKey H) x o)
    (hmark : ∀ w cw, H.commit w = some cw → (mark' w ↔ mark w)) :
    (H.append h c).graph.LatestBelow mark' (originKey (H.append h c)) x o := by
  refine hl.congr (fun w => below_append hx) ?_ ?_ rfl
  · intro w hb
    obtain ⟨cw, hcw⟩ := held_of_below hb hx
    exact hmark w cw hcw
  · intro w hb
    obtain ⟨cw, hcw⟩ := held_of_below hb hx
    exact originKey_append (by rintro _ ⟨⟩; exact ⟨cw, hcw⟩)

/-- a new commit is later than all it stands on -/
theorem originKey_le_appended (hf : H.Free h c) (hcausal : Causal H)
    (hts : ∀ p ∈ c.parents, ∀ cp, H.commit p = some cp → cp.timestamp < c.timestamp)
    (hb : (H.append h c).graph.Below w h) : originKey (H.append h c) (some w) ≤ originKey (H.append h c) (some h) := by
  obtain rfl | ⟨p, hp, hb⟩ := (below_appended hf).1 hb
  · exact le_rfl
  · obtain ⟨cp, hcp⟩ := isSome_iff_exists.1 (hf.2 p hp)
    obtain ⟨cw, hcw⟩ := held_of_below hb hcp
    have hlt : cw.timestamp < c.timestamp := (hcausal.le_of_below hb hcp hcw).trans_lt (hts p hp cp hcp)
    refine (Prod.Lex.toLex_le_toLex.2 (.inl ?_))
    simpa [timestampOf, commit_append hcw, commit_append_self hf] using hlt

/-- a new commit without the mark has the latest of what its parents have -/
theorem latestBelow_appended (hf : H.Free h c) (hnot : ¬ mark' h)
    (hmark : ∀ w cw, H.commit w = some cw → (mark' w ↔ mark w)) (hp : p ∈ c.parents)
    (hl : ∀ q ∈ c.parents, H.graph.LatestBelow mark (originKey H) q (f q))
    (htop : ∀ q ∈ c.parents, originKey H (f q) ≤ originKey H (f p)) :
    (H.append h c).graph.LatestBelow mark' (originKey (H.append h c)) h (f p) := by
  have hparents := parents_append_self hf
  have hheld : ∀ q ∈ c.parents, ∃ cq, H.commit q = some cq := fun q hq => isSome_iff_exists.1 (hf.2 q hq)
  have hkey : ∀ q ∈ c.parents, originKey (H.append h c) (f q) = originKey H (f q) := by
    intro q hq
    refine originKey_append fun w hw => ?_
    obtain ⟨cq, hcq⟩ := hheld q hq
    exact held_of_below ((hl q hq).mem w hw).1 hcq
  refine .of_parent hnot (hparents ▸ hp) ?_ ?_
  · intro q hq
    rw [hparents] at hq
    obtain ⟨cq, hcq⟩ := hheld q hq
    exact latestBelow_append hcq (hl q hq) hmark
  · intro q hq
    rw [hparents] at hq
    rw [hkey q hq, hkey p hp]
    exact htop q hq

theorem latestBelow_appended_root (hf : H.Free h c) (hnot : ¬ mark h) (hps : c.parents = []) :
    (H.append h c).graph.LatestBelow mark (originKey (H.append h c)) h none := by
  exact .of_root hnot (by rw [parents_append_self hf, hps])

theorem Latest.append (hx : H.commit x = some cx) (hl : Latest H x d o) : Latest (H.append h c) x d o :=
  latest_iff.2 (latestBelow_append hx (latest_iff.1 hl) fun w cw hcw => by rw [isWrite_append hcw])

section

variable (hf : H.Free h c)
include hf

/-- a new commit that is no write itself has the latest of its parents' writes -/
theorem latest_appended_inherit (hnot : ¬ isWrite (H.append h c) d h) (hp : p ∈ c.parents)
    (hl : ∀ q ∈ c.parents, Latest H q d (f q)) (htop : ∀ q ∈ c.parents, originKey H (f q) ≤ originKey H (f p)) :
    Latest (H.append h c) h d (f p) :=
  latest_iff.2 (latestBelow_appended hf hnot (fun w cw hcw => by rw [isWrite_append hcw]) hp
    (fun q hq => latest_iff.1 (hl q hq)) htop)

theorem origin_appended_unwritten (hw : Ops.after d c.operations = none) {ps : List Hash}
    (hps : c.parents = p :: ps) : (H.append h c).origin h d = H.origin p d := by
  obtain ⟨cp, hcp⟩ := isSome_iff_exists.1 (hf.2 p (by simp [hps]))
  have hval := valueAt_unwritten (commit_append_self hf) hw hps
  rw [← origin_append (h := h) (c := c) hcp, origin_eq, origin_eq]
  unfold originStep bodyAt
  rw [hval]

theorem origin_appended_root (hw : Ops.after d c.operations = none) (hps : c.parents = []) :
    (H.append h c).origin h d = none := by
  rw [origin_eq]
  simp [originStep, valueAt_root (commit_append_self hf) hw hps, DocVal.unwritten]

theorem origin_appended_write (hw : Ops.after d c.operations = some v) (hlen : c.parents.length < 2) :
    (H.append h c).origin h d = some h := by
  rw [origin_eq]
  simp [originStep, valueAt_written (commit_append_self hf) hw, parents_of_commit (commit_append_self hf), hlen]

/-- a merge's value is traced to the first parent that holds it -/
theorem origin_appended_merge (hw : Ops.after d c.operations = some v) (hlen : 2 ≤ c.parents.length)
    (hfind : (c.parents.find? fun p => decide (H.bodyAt p d = v)) = some p) :
    (H.append h c).origin h d = H.origin p d := by
  have hself := commit_append_self hf
  obtain ⟨cp, hcp⟩ := isSome_iff_exists.1 (hf.2 p (mem_of_find?_eq_some hfind))
  have hfind' : (c.parents.find? fun p => decide ((H.append h c).bodyAt p d = (H.append h c).bodyAt h d)) = some p := by
    rw [← hfind]
    refine List.find?_congr ?_
    intro q hq
    obtain ⟨cq, hcq⟩ := isSome_iff_exists.1 (hf.2 q hq)
    rw [bodyAt_append hcq, bodyAt, bodyAt, valueAt_written hself hw]
  rw [origin_eq]
  simp only [originStep, valueAt_written hself hw, parents_of_commit hself, hfind', if_neg (Nat.not_lt.2 hlen)]
  exact origin_append hcp d

end

/-! ## Runs -/

/-- the commit a merge of two heads appends, if any (`resolveDivergenceLocked`): none when one head is below the other -/
def mergeHeads (derived : List Hash → TxId) (H : History) (a b : Hash) : Option Commit :=
  if H.graph.Below a b ∨ H.graph.Below b a then none
  else match resolveDiverged H lastWriteOptions derived id a b with
    | .merged c => some c
    | _ => none

/-- one event; `hash` is the content hash of a commit -/
def step (hash : Commit → Hash) (derived : List Hash → TxId) (H : History) : Event → History
  | .write w => H.append (hash (w.commit H)) (w.commit H)
  | .merge a b =>
    match mergeHeads derived H a b with
    | some c => H.append (hash c) c
    | none => H

/-- the policy settles every document by its later write -/
theorem settles_lastWrite (H : History) : Settles H lastWriteOptions := by
  intro a b dd
  exact ⟨_, rfl, rfl⟩

/-- the documents written below some commits -/
def writtenDocs (H : History) (hs : List Hash) : List DocId :=
  (hs.flatMap H.graph.closure).flatMap fun h => ((H.commit h).map fun c => c.operations.filterMap Op.docId?).getD []

/-- of the parents that hold a document alike, the first has it from the latest write -/
def FirstLatest (H : History) (parents : List Hash) : Prop :=
  ∀ p ∈ parents.head?, ∀ d ∈ writtenDocs H parents, (∀ q ∈ parents, H.bodyAt q d = H.bodyAt p d) →
    ∀ q ∈ parents, ¬ H.originLater (H.origin q d) (H.origin p d)
  deriving Decidable

/-- no document is written under the nil UUID, and merges trace shared values to their latest write -/
def Admitted (H : History) : Event → Prop
  | .write w => Ops.after 0 w.operations = none
  | .merge a b => FirstLatest H (mergeParents H a b)

instance (H : History) : ∀ e, Decidable (Admitted H e)
  | .write _ => inferInstanceAs (Decidable (_ = _))
  | .merge _ _ => inferInstanceAs (Decidable (FirstLatest _ _))

theorem mem_writtenDocs {q : Hash} (hq : q ∈ parents) (hb : H.graph.Below w q) (hw : isWrite H d w) :
    d ∈ writtenDocs H parents := by
  obtain ⟨cw, hcw⟩ := isWrite_held hw
  have hafter : Ops.after d cw.operations ≠ none := by
    intro hnone
    simp [isWrite, hcw, hnone] at hw
  refine mem_flatMap.2 ⟨w, mem_flatMap.2 ⟨q, hq, RankedGraph.mem_closure.2 hb⟩, ?_⟩
  simpa [hcw] using Ops.mem_of_after hafter

/-- the first of parents that agree on a document has its latest write -/
theorem FirstLatest.key_le (hfirst : FirstLatest H parents) (hp : parents.head? = some p)
    (hl : ∀ q ∈ parents, Latest H q d (H.origin q d)) (hbody : ∀ q ∈ parents, H.bodyAt q d = H.bodyAt p d) :
    ∀ q ∈ parents, originKey H (H.origin q d) ≤ originKey H (H.origin p d) := by
  intro q hq
  cases ho : H.origin q d with
  | none => exact originKey_none_le _
  | some w =>
    obtain ⟨hb, hw⟩ := (hl q hq).write w ho
    have hlater := hfirst p hp d (mem_writtenDocs hq hb hw) hbody q hq
    exact ho ▸ not_lt.1 fun h => hlater (originLater_iff.2 h)

/-- what every admitted run keeps: every value is traced to the latest write of its document -/
structure Inv (H : History) : Prop where
  wellFormed : H.WellFormed
  causal : Causal H
  latest : ∀ x c, H.commit x = some c → ∀ d, Latest H x d (H.origin x d)

theorem Inv.empty : Inv History.empty where
  wellFormed := .empty
  causal _ _ hc := by cases hc
  latest _ _ hc := by cases hc

theorem Inv.append (hI : Inv H) (hfits : H.Fits c)
    (hts : ∀ p ∈ c.parents, ∀ cp, H.commit p = some cp → cp.timestamp < c.timestamp)
    (hlatest : H.Free h c → ∀ d, Latest (H.append h c) h d ((H.append h c).origin h d)) : Inv (H.append h c) := by
  refine ⟨hI.wellFormed.append hfits, hI.causal.append hts, ?_⟩
  intro x cx hx d
  obtain hx | ⟨hf, rfl, rfl⟩ := commit_append_cases hx
  · rw [origin_append hx]
    exact (hI.latest x cx hx d).append hx
  · exact hlatest hf d

/-! ## Ordinary commits -/

/-- an ordinary commit's values are traced to their latest writes -/
theorem latest_write (hI : Inv H) {w : WriteTx} (hf : H.Free h (w.commit H))
    (hts : ∀ p ∈ (w.commit H).parents, ∀ cp, H.commit p = some cp → cp.timestamp < (w.commit H).timestamp) (d : DocId) :
    Latest (H.append h (w.commit H)) h d ((H.append h (w.commit H)).origin h d) := by
  have hlen : (w.commit H).parents.length < 2 := by
    cases hp : w.parent <;> simp [WriteTx.commit]
  cases hw : Ops.after d (w.commit H).operations with
  | some v =>
    have hwrite : isWrite (H.append h (w.commit H)) d h := by
      rw [isWrite_appended hf, hw, decide_eq_true hlen]
      rfl
    rw [origin_appended_write hf hw hlen]
    exact latest_iff.2 (.of_mark hwrite fun w hb => originKey_le_appended hf hI.causal hts hb)
  | none =>
    have hnot : ¬ isWrite (H.append h (w.commit H)) d h := by simp [isWrite_appended hf, hw]
    cases hps : (w.commit H).parents with
    | nil =>
      rw [origin_appended_root hf hw hps]
      exact latest_iff.2 (latestBelow_appended_root hf hnot hps)
    | cons p ps =>
      have hsingle : ps = [] := by simpa [hps] using hlen
      have hp : p ∈ (w.commit H).parents := by simp [hps]
      have honly : ∀ q ∈ (w.commit H).parents, q = p := by simp [hps, hsingle]
      obtain ⟨cp, hcp⟩ := isSome_iff_exists.1 (hf.2 p hp)
      rw [origin_appended_unwritten hf hw hps]
      refine latest_appended_inherit (f := fun q => H.origin q d) hf hnot hp ?_ ?_
      · intro q hq
        rw [honly q hq]
        exact hI.latest p cp hcp d
      · intro q hq
        rw [honly q hq]

/-! ## Merges -/

variable {a b : Hash} {ca cb : Commit}

/-- a side whose write the other has does not hold a later one -/
theorem key_le_of_not_changed {oa ob : Option Hash} (ha : H.graph.LatestBelow mark (originKey H) a oa)
    (hb : H.graph.LatestBelow mark (originKey H) b ob) (hch : H.changed ob a = false) : originKey H ob ≤ originKey H oa := by
  refine hb.key_le originKey_none_le ha ?_
  rintro w rfl
  simpa [changed] using hch

/-- **The later origin wins.** Of two different bodies a merge takes the one written later. -/
theorem mergedBody_lastWrite (hI : Inv H) (ha : H.commit a = some ca) (hb : H.commit b = some cb)
    (hne : H.bodyAt a d ≠ H.bodyAt b d) : mergedBody H lastWriteOptions a b (divergedDoc H a b d) =
      if H.originLater (H.origin a d) (H.origin b d) then H.bodyAt a d else H.bodyAt b d := by
  have hla := latest_iff.1 (hI.latest a ca ha d)
  have hlb := latest_iff.1 (hI.latest b cb hb d)
  have hkey : originKey H (H.origin a d) ≠ originKey H (H.origin b d) :=
    fun hk => origin_ne_of_body_ne ha hb hne (originKey_injective hk)
  unfold mergedBody
  cases hca : (divergedDoc H a b d).localChanged <;> cases hcb : (divergedDoc H a b d).remoteChanged
  · -- neither write is news to the other side: they are the same write
    exact absurd (le_antisymm (key_le_of_not_changed hlb hla hca) (key_le_of_not_changed hla hlb hcb)) hkey
  · have hle := key_le_of_not_changed hlb hla hca
    rw [if_neg fun hl => absurd (originLater_iff.1 hl) (not_lt.2 hle)]
    rfl
  · have hlt := lt_of_le_of_ne (key_le_of_not_changed hla hlb hcb) hkey.symm
    rw [if_pos (originLater_iff.2 hlt)]
    rfl
  · rfl

/-- the head a merge takes a document from -/
def laterHead (H : History) (a b : Hash) (d : DocId) : Hash :=
  if H.originLater (H.origin a d) (H.origin b d) then a else b

theorem laterHead_cases (H : History) (a b : Hash) (d : DocId) : laterHead H a b d = a ∨ laterHead H a b d = b := by
  unfold laterHead
  split_ifs
  · exact .inl rfl
  · exact .inr rfl

theorem key_le_laterHead {q : Hash} (hq : q = a ∨ q = b) :
    originKey H (H.origin q d) ≤ originKey H (H.origin (laterHead H a b d) d) := by
  unfold laterHead
  split_ifs with hl
  · rcases hq with rfl | rfl
    · exact le_rfl
    · exact (originLater_iff.1 hl).le
  · rcases hq with rfl | rfl
    · exact not_lt.1 fun h => hl (originLater_iff.2 h)
    · exact le_rfl

/-- a merge's values are traced to their latest writes -/
theorem latest_merge (hI : Inv H) (ha : H.commit a = some ca) (hb : H.commit b = some cb)
    (hfirst : FirstLatest H [(mergeCommitParents a b).1, (mergeCommitParents a b).2]) (derived : List Hash → TxId)
    (hf : H.Free h (mergeNonConflicting H lastWriteOptions derived id a b ca cb)) (d : DocId) :
    Latest (H.append h (mergeNonConflicting H lastWriteOptions derived id a b ca cb)) h d
      ((H.append h (mergeNonConflicting H lastWriteOptions derived id a b ca cb)).origin h d) := by
  have hlatest : ∀ q ∈ [(mergeCommitParents a b).1, (mergeCommitParents a b).2], Latest H q d (H.origin q d) := by
    intro q hq
    rcases mem_mergeCommitParents.1 hq with rfl | rfl
    · exact hI.latest q ca ha d
    · exact hI.latest q cb hb d
  have hnot : ¬ isWrite (H.append h (mergeNonConflicting H lastWriteOptions derived id a b ca cb)) d h := by
    rw [isWrite_appended hf]
    simp
  have hafter := commitWrites_get (settles_lastWrite H) hI.wellFormed ha hb d
  rw [← Writes.after_ops, ← mergeNonConflicting_operations derived id a b ca cb] at hafter
  by_cases heq : H.bodyAt a d = H.bodyAt b d
  · -- the parents agree: the value is the first parent's, and so is its write
    rw [if_pos heq] at hafter
    rw [origin_appended_unwritten hf hafter (mergeNonConflicting_parents derived id a b ca cb)]
    refine latest_appended_inherit (f := fun q => H.origin q d) hf hnot (by simp) (by simpa using hlatest) ?_
    refine hfirst.key_le rfl hlatest ?_
    intro q hq
    rw [bodyAt_mergeCommitParents heq hq, bodyAt_mergeCommitParents heq mem_cons_self]
  · -- they differ: the merge takes the later write's body, and only that parent holds it
    have hval : Ops.after d (mergeNonConflicting H lastWriteOptions derived id a b ca cb).operations =
        some (H.bodyAt (laterHead H a b d) d) := by
      rw [hafter, mergedBody_lastWrite hI ha hb heq, laterHead]
      split_ifs <;> rfl
    have hfind : ([(mergeCommitParents a b).1, (mergeCommitParents a b).2].find? fun p =>
        decide (H.bodyAt p d = H.bodyAt (laterHead H a b d) d)) = some (laterHead H a b d) := by
      rcases mergeCommitParents_cases a b with hp | hp <;> rcases laterHead_cases H a b d with hl | hl <;>
        simp [hp, hl, heq, Ne.symm heq]
    rw [origin_appended_merge hf hval (by simp) (by rw [mergeNonConflicting_parents]; exact hfind)]
    refine latest_appended_inherit (f := fun q => H.origin q d) hf hnot ?_ (by simpa using hlatest) ?_
    · rw [mergeNonConflicting_parents, mem_mergeCommitParents]
      exact laterHead_cases H a b d
    · intro q hq
      rw [mergeNonConflicting_parents, mem_mergeCommitParents] at hq
      exact key_le_laterHead hq

/-- the values at a join of heads with the same content are traced to their latest writes -/
theorem latest_join (hI : Inv H) (ha : H.commit a = some ca) (hb : H.commit b = some cb) (hsame : cb.tree = ca.tree)
    (hfirst : FirstLatest H (H.frontierOf a b)) (derived : List Hash → TxId)
    (hf : H.Free h (joinCommit H derived ca (H.frontierOf a b))) (d : DocId) :
    Latest (H.append h (joinCommit H derived ca (H.frontierOf a b))) h d
      ((H.append h (joinCommit H derived ca (H.frontierOf a b))).origin h d) := by
  obtain ⟨hne, htrees⟩ := frontierOf_spec ha hb hsame
  obtain ⟨p, ps, hps⟩ := exists_cons_of_ne_nil hne
  have hp : p ∈ H.frontierOf a b := by simp [hps]
  have hnot : ¬ isWrite (H.append h (joinCommit H derived ca (H.frontierOf a b))) d h := by
    rw [isWrite_appended hf]
    simp [joinCommit, Ops.after]
  rw [origin_appended_unwritten hf rfl hps]
  have hlatest : ∀ q ∈ H.frontierOf a b, Latest H q d (H.origin q d) := by
    intro q hq
    obtain ⟨cq, hcq, -⟩ := map_eq_some_iff.1 (htrees q hq)
    exact hI.latest q cq hcq d
  exact latest_appended_inherit (f := fun q => H.origin q d) hf hnot hp hlatest
    (hfirst.key_le (by simp [hps]) hlatest fun q hq => join_bodies hI.wellFormed ha hb hsame hq hp d)

/-! ## Every admitted run -/

variable {hash : Commit → Hash} {derived : List Hash → TxId}

theorem Inv.step (hI : Inv H) {e : Event} (he : Admitted H e) : Inv (step hash derived H e) := by
  rw [show Peersync.step hash derived H e = stepUnder lastWriteOptions hash derived H e by cases e <;> rfl]
  obtain heq | ⟨c, hc, heq⟩ := stepUnder_cases hash derived e
  · rwa [heq]
  · rw [heq]
    have hfits : H.Fits c := by
      refine hc.fits (settles_lastWrite H) hI.wellFormed ?_
      rintro w rfl
      exact he
    refine hI.append hfits hc.later fun hf d => ?_
    have hts := hc.later
    cases hc with
    | write w => exact latest_write hI hf hts d
    | join ha hb hsame hps => exact latest_join hI ha hb hsame (hps ▸ he) derived hf d
    | merge ha hb hps => exact latest_merge hI ha hb (hps ▸ he) derived hf d

theorem Inv.body_eq (hI : Inv H) (hx : H.commit x = some c) (d : DocId) :
    H.bodyAt x d = writtenBy H d (latestWrite H x d) := by
  rw [← (hI.latest x c hx d).unique (latest_latestWrite H x d)]
  cases ho : H.origin x d with
  | none => exact body_of_origin_none hx ho
  | some o =>
    obtain ⟨-, co, hco, hops⟩ := origin_some hx ho
    simp [writtenBy, hco, hops]

/-- **The last write is kept.** In every run whose merges trace shared values to their latest write, every head holds
each document as the latest write in its history left it. So heads with the same writes below them hold the same
documents, whatever was merged with what and when. -/
theorem last_write_kept (events : List Event)
    (hadm : Machine.Along (step hash derived) Admitted History.empty events) :
    let H := Machine.run (step hash derived) History.empty events
    (∀ x c, H.commit x = some c → ∀ d, H.bodyAt x d = writtenBy H d (latestWrite H x d)) ∧
      ∀ x cx y cy, H.commit x = some cx → H.commit y = some cy → ∀ d,
        (∀ w, isWrite H d w → (H.graph.Below w x ↔ H.graph.Below w y)) → H.bodyAt x d = H.bodyAt y d := by
  intro H
  have hI : Inv H := Machine.run_of_step (I := Inv) (fun _ _ he hs => hs.step he) hadm Inv.empty
  refine ⟨fun x c hx d => hI.body_eq hx d, ?_⟩
  intro x cx y cy hx hy d hsame
  have hly : Latest H y d (latestWrite H x d) := latest_iff.2 ((latest_iff.1 (latest_latestWrite H x d)).of_same hsame)
  rw [hI.body_eq hx, hI.body_eq hy, hly.unique (latest_latestWrite H y d)]

/-- a commit on commit 1 that writes document 5, or the root -/
def writeOf (tx : TxId) (timestamp : ℕ) (value : String) : Event :=
  .write ⟨some 1, tx, timestamp, 1, [.write 5 (.obj [("value", .str value)]) false], none, ""⟩

/-- the root commit -/
def rootOf : Event := .write ⟨none, 1, 0, 1, [], none, "genesis"⟩

/-- two writers of different values, merged -/
def mergedWriters : List Event := [rootOf, writeOf 2 10 "a", writeOf 3 20 "b", .merge 2 3]

theorem last_write_kept_mergedWriters :
    let H := Machine.run (step Commit.transactionId fun ps => ps.sum + 10) History.empty mergedWriters
    (∀ x c, H.commit x = some c → ∀ d, H.bodyAt x d = writtenBy H d (latestWrite H x d)) ∧
      ∀ x cx y cy, H.commit x = some cx → H.commit y = some cy → ∀ d,
        (∀ w, isWrite H d w → (H.graph.Below w x ↔ H.graph.Below w y)) → H.bodyAt x d = H.bodyAt y d :=
  last_write_kept mergedWriters (by decide +kernel)

/-- two writers of the same value, joined; then a write stamped between the two, merged with the join -/
def reorderedWriters : List Event :=
  [rootOf, writeOf 2 10 "a", writeOf 3 20 "a", .merge 2 3, writeOf 4 15 "b", .merge 15 4]

/-- **The later write is lost.** Commit 29 merges commit 15, the join of the writes of "a" at 10 and 20, with the write
of "b" at 15. The latest write below it is commit 3, of "a" at 20, but it holds "b": at commit 15 the value is traced to
the first parent, the write at 10. -/
theorem later_write_lost :
    let H := Machine.run (step Commit.transactionId fun ps => ps.sum + 10) History.empty reorderedWriters
    H.parents 29 = [4, 15] ∧ latestWrite H 29 5 = some 3 ∧ writtenBy H 5 (some 3) = some [("value", .str "a")] ∧
      H.bodyAt 29 5 = some [("value", .str "b")] := by
  decide +kernel

end Kdb.Peersync
