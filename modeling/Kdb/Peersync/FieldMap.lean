/-
Documents as maps of fields, over whole histories (`peersync/merge_semantics_v2.go`, `peersync/merge_resolution.go`).

A history grows by commits on one parent and by merges of any two heads under a version 2 chain of field-merge and then
last-write. What a document should be is a last-writer-wins map: each field as the latest commit in the head's history
that changed it left it.
- `changesField`, `latestChange`: the ordinary commits that changed a field against their parent, and the latest below a
  head, by timestamp and then by hash. A root that writes the document sets every field of it.
- `fields_last_written`: heads hold the map in every run whose merges meet `ChangesTraced`.
- `later_change_lost`: two runs where an older change wins: a join of equal writes, and a merge that ends with the body
  of one parent.

The invariant is that a field's traced origin is its latest change (`FieldInv.latest`). The rule per field keeps it: it
asks every parent that holds the field alike and takes the later of two different ones. What does not go through the rule
is what `ChangesTraced` is about: a document the parents hold alike, and a document only one side changed as a whole.
-/
import Kdb.Peersync.LastWrite

namespace Kdb.Peersync

open History List Option

/-! ## The latest change of a field -/

/-- an ordinary commit that changed the field against its parent -/
def changesField (H : History) (d : DocId) (key : String) (w : Hash) : Bool :=
  (H.commit w).any fun c => match c.parents with
    | [] => (Ops.after d c.operations).isSome
    | [p] => fieldText (H.bodyAt p d) key ≠ fieldText (H.bodyAt w d) key
    | _ => false

/-- the latest change of a field in a head's history -/
def latestChange (H : History) (x : Hash) (d : DocId) (key : String) : Option Hash :=
  ((H.graph.closure x).filter (changesField H d key)).foldl
    (fun o w => if H.originLater (some w) o then some w else o) none

/-- `o` is the latest change of the field below the head -/
def LatestChange (H : History) (x : Hash) (d : DocId) (key : String) (o : Option Hash) : Prop :=
  H.graph.LatestBelow (fun w => changesField H d key w) (originKey H) x o

variable {H : History} {x h p : Hash} {c : Commit} {d : DocId} {key : String} {o : Option Hash}

theorem latestChange_spec (H : History) (x : Hash) (d : DocId) (key : String) :
    LatestChange H x d key (latestChange H x d key) := latestBelow_foldl H x (changesField H d key)

theorem LatestChange.eq (hl : LatestChange H x d key o) : latestChange H x d key = o :=
  (latestChange_spec H x d key).unique originKey_none_le (fun _ _ => originKey_injective) hl

/-! ## The new commit of a history -/

variable {w : Hash} {m : Option Hash} {v : Option Fields} {k : String} {heads : Hash × Hash} {s : ConflictSides}

theorem changesField_append {cw : Commit} (hw : H.commit w = some cw) :
    changesField (H.append h c) d key w = changesField H d key w := by
  rw [changesField, changesField, hw, commit_append hw, any_some, any_some]
  match hps : cw.parents with
  | [] => rfl
  | [p] =>
    obtain ⟨cp, hcp⟩ := H.parents_held w cw hw p (by simp [hps])
    simp only [bodyAt_append hcp, bodyAt_append hw]
  | p :: q :: ps => rfl

theorem changesField_root (hf : H.Free h c) (hps : c.parents = []) :
    changesField (H.append h c) d key h = (Ops.after d c.operations).isSome := by
  rw [changesField, commit_append_self hf, any_some]
  simp only [hps]

theorem changesField_single (hf : H.Free h c) (hps : c.parents = [p]) : changesField (H.append h c) d key h ↔
      fieldText (H.bodyAt p d) key ≠ fieldText ((H.append h c).bodyAt h d) key := by
  obtain ⟨cp, hcp⟩ := isSome_iff_exists.1 (hf.2 p (by simp [hps]))
  rw [changesField, commit_append_self hf, any_some]
  simp only [hps, bodyAt_append hcp, decide_eq_true_eq]

theorem not_changesField_merge (hf : H.Free h c) (hlen : 2 ≤ c.parents.length) :
    ¬ changesField (H.append h c) d key h := by
  rw [changesField, commit_append_self hf, any_some]
  match hps : c.parents with
  | [] => simp [hps] at hlen
  | [p] => simp [hps] at hlen
  | p :: q :: ps => simp

theorem latestOf_cons (o : Option Hash) (answers : List (Option Hash)) (hm : m = o ∨ m ∈ answers)
    (ho : originKey H o ≤ originKey H m) (htop : ∀ o' ∈ answers, originKey H o' ≤ originKey H m) :
    H.latestOf (o :: answers) = some m := by
  induction answers generalizing o with
  | nil =>
    obtain rfl := hm.resolve_right not_mem_nil
    rfl
  | cons o' answers ih =>
    have ho' := htop o' mem_cons_self
    refine ih _ ?_ ?_ fun o'' h'' => htop o'' (.tail _ h'')
    · rcases hm with rfl | hm
      · -- the maximum is not passed over
        rw [if_neg fun hl => absurd (originLater_iff.1 hl) (not_lt.2 ho')]
        exact .inl rfl
      · rcases mem_cons.1 hm with rfl | hm
        · by_cases hl : H.originLater m o
          · exact .inl (if_pos hl).symm
          · have hkey := le_antisymm ho (not_lt.1 fun h => hl (originLater_iff.2 h))
            exact .inl (by rw [if_neg hl, originKey_injective hkey])
        · exact .inr hm
    · split_ifs
      · exact ho'
      · exact ho

theorem latestOf_eq {answers : List (Option Hash)} (hm : m ∈ answers)
    (htop : ∀ o ∈ answers, originKey H o ≤ originKey H m) : H.latestOf answers = some m := by
  match answers, hm with
  | o :: answers, hm =>
    exact latestOf_cons o answers (mem_cons.1 hm) (htop o mem_cons_self) fun o' ho' => htop o' (.tail _ ho')

/-- the field's traced origin is no later at the first head -/
abbrev History.FieldLe (H : History) (d : DocId) (key : String) (q p : Hash) : Prop :=
  originKey H (H.fieldOrigin q d key) ≤ originKey H (H.fieldOrigin p d key)

section

variable (hf : H.Free h c)
include hf

theorem bodyAt_appended_unwritten (hw : Ops.after d c.operations = none) {ps : List Hash}
    (hps : c.parents = p :: ps) : (H.append h c).bodyAt h d = H.bodyAt p d := by
  obtain ⟨cp, hcp⟩ := isSome_iff_exists.1 (hf.2 p (by simp [hps]))
  rw [bodyAt, valueAt_unwritten (commit_append_self hf) hw hps, valueAt_append hcp]
  rfl

theorem fieldOrigin_appended_unwritten (hw : Ops.after d c.operations = none) {ps : List Hash}
    (hps : c.parents = p :: ps) : (H.append h c).fieldOrigin h d key = H.fieldOrigin p d key := by
  obtain ⟨cp, hcp⟩ := isSome_iff_exists.1 (hf.2 p (by simp [hps]))
  have hval := valueAt_unwritten (commit_append_self hf) hw hps
  rw [← fieldOrigin_append (h := h) (c := c) hcp, fieldOrigin_eq, fieldOrigin_eq]
  unfold fieldOriginStep bodyAt
  rw [hval]

theorem fieldOrigin_appended_root (hps : c.parents = []) :
    (H.append h c).fieldOrigin h d key = if (Ops.after d c.operations).isSome then some h else none := by
  have hself := commit_append_self hf
  rw [fieldOrigin_eq]
  cases hw : Ops.after d c.operations with
  | none => simp [fieldOriginStep, valueAt_root hself hw hps, DocVal.unwritten]
  | some v => simp [fieldOriginStep, valueAt_written hself hw, parents_of_commit hself, hps]

theorem fieldOrigin_appended_single (hw : Ops.after d c.operations = some v) (hps : c.parents = [p]) :
    (H.append h c).fieldOrigin h d key =
      if fieldText (H.bodyAt p d) key = fieldText v key then H.fieldOrigin p d key else some h := by
  have hself := commit_append_self hf
  obtain ⟨cp, hcp⟩ := isSome_iff_exists.1 (hf.2 p (by simp [hps]))
  have hbody : (H.append h c).bodyAt h d = v := by rw [bodyAt, valueAt_written hself hw]
  rw [fieldOrigin_eq]
  simp only [fieldOriginStep, valueAt_written hself hw, parents_of_commit hself, hps, hbody, bodyAt_append hcp,
    fieldOrigin_append hcp, decide_eq_true_eq]

/-- a merge traces a field to the latest of the parents that hold it alike -/
theorem fieldOrigin_appended_merge (hw : Ops.after d c.operations = some v)
    (hlen : 2 ≤ c.parents.length) (hp : p ∈ c.parents) (hsame : fieldText v key = fieldText (H.bodyAt p d) key)
    (htop : ∀ q ∈ c.parents, H.FieldLe d key q p) : (H.append h c).fieldOrigin h d key = H.fieldOrigin p d key := by
  have hself := commit_append_self hf
  have hbody : (H.append h c).bodyAt h d = v := by rw [bodyAt, valueAt_written hself hw]
  have hold : ∀ q ∈ c.parents, ∃ cq, H.commit q = some cq := fun q hq => isSome_iff_exists.1 (hf.2 q hq)
  have hheld : ∀ q ∈ c.parents, ∀ w, H.fieldOrigin q d key = some w → ∃ cw, H.commit w = some cw := by
    intro q hq w hqw
    obtain ⟨cq, hcq⟩ := hold q hq
    exact held_of_below ((fieldOrigin_spec hcq d key).1 w hqw) hcq
  have hanswer : ∀ q ∈ c.parents, (H.append h c).fieldOrigin q d key = H.fieldOrigin q d key := by
    intro q hq
    obtain ⟨cq, hcq⟩ := hold q hq
    exact fieldOrigin_append hcq d key
  have hlatest : (H.append h c).latestOf ((c.parents.filter fun q =>
      decide (fieldText ((H.append h c).bodyAt q d) key = fieldText ((H.append h c).bodyAt h d) key)).map fun q =>
        (H.append h c).fieldOrigin q d key) = some (H.fieldOrigin p d key) := by
    refine latestOf_eq ?_ ?_
    · refine mem_map.2 ⟨p, mem_filter.2 ⟨hp, ?_⟩, hanswer p hp⟩
      obtain ⟨cp, hcp⟩ := hold p hp
      rw [bodyAt_append hcp, hbody, hsame]
      exact decide_eq_true rfl
    · intro o ho
      obtain ⟨q, hq, rfl⟩ := mem_map.1 ho
      have hq := (mem_filter.1 hq).1
      rw [hanswer q hq, originKey_append (hheld q hq), originKey_append (hheld p hp)]
      exact htop q hq
  rw [fieldOrigin_eq, fieldOriginStep_merge (congrArg DocVal.writer (valueAt_written hself hw))
    (by rwa [parents_of_commit hself]), parents_of_commit hself, hlatest]
  rfl

end

/-! ## The rule per field -/

theorem get_filterMap_keys (keys : List String) (v : String → Option Json) (k : String) :
    Fields.get (keys.filterMap fun l => (v l).map (l, ·)) k = if k ∈ keys then v k else none := by
  induction keys with
  | nil => rfl
  | cons l keys ih =>
    by_cases hk : k = l
    · subst hk
      cases hv : v k with
      | none => simp [hv, ih]
      | some j => simp [hv, Fields.get]
    · have hb : (k == l) = false := by simpa using hk
      cases hv : v l with
      | none => simp [hv, ih, hk]
      | some j => simpa [hv, Fields.get, lookup_cons, hb, hk] using ih

theorem mem_keysOf {a b : Fields} : k ∈ keysOf [a, b] ↔ k ∈ a.map Prod.fst ∨ k ∈ b.map Prod.fst := by
  simp [keysOf, or_comm]

theorem get_eq_none {f : Fields} (h : k ∉ f.map Prod.fst) : f.get k = none := by
  rw [Fields.get, lookup_eq_none_iff]
  intro m hm
  refine bne_iff_ne.2 ?_
  rintro rfl
  exact h (mem_map_of_mem hm)

/-- with last-write next the rule decides every field -/
theorem fieldSideByOrigin_isSome (H : History) (d : DocId) (heads : Hash × Hash) (a b : Fields) (k : String) :
    (fieldSideByOrigin H d heads true a b k).isSome := by
  unfold fieldSideByOrigin
  by_cases heq : a.get k = b.get k
  · rw [if_pos heq]
    rfl
  · rw [if_neg heq]
    dsimp only
    split
    · rfl
    · rfl
    · rw [if_neg (by simp)]
      split_ifs <;> rfl

/-- the merged document holds each field as the side it is taken from -/
theorem fieldMergeByOrigin_get {a b : Fields} (ha : s.body0 = some a) (hb : s.body1 = some b) :
    ∃ m, fieldMergeByOrigin H d heads s true = some m ∧
      ∀ k, ∃ side, fieldSideByOrigin H d heads true a b k = some side ∧ m.get k = side.get k := by
  let side := fun k => (fieldSideByOrigin H d heads true a b k).get (fieldSideByOrigin_isSome H d heads a b k)
  have hside : ∀ k, fieldSideByOrigin H d heads true a b k = some (side k) := fun k => (some_get _).symm
  refine ⟨(keysOf [a, b]).filterMap fun k => ((side k).get k).map (k, ·), ?_, ?_⟩
  · have hmapM := mapM_pure (m := Option) (l := keysOf [a, b]) (f := fun k => ((side k).get k).map (k, ·))
    simp only [fieldMergeByOrigin, ha, hb, hside, map_some]
    rw [show (fun k => some (((side k).get k).map (k, ·))) = fun k => pure (((side k).get k).map (k, ·)) from rfl, hmapM]
    simp
  · intro k
    refine ⟨side k, hside k, ?_⟩
    rw [get_filterMap_keys]
    split_ifs with hk
    · rfl
    · -- a field that neither side has
      obtain ⟨hka, hkb⟩ := not_or.1 (mt mem_keysOf.2 hk)
      have hsome := hside k
      rw [fieldSideByOrigin, if_pos (by rw [get_eq_none hka, get_eq_none hkb])] at hsome
      rw [← Option.some.inj hsome, get_eq_none hka]

/-! ## The chain -/

/-- a node's options under the version 2 chain of field-merge and then last-write -/
def mapOptions (opts : Options) (allowUnrelated : Bool) : Options :=
  { opts with chain := some ⟨[.fieldMerge, .lastWrite], allowUnrelated, 2⟩ }

variable {opts : Options} {allowUnrelated : Bool} {a b : Hash} {ca cb : Commit}

/-- the rules decide: the merged fields, or the later write where a side has no document -/
theorem resolveRules_map (opts : Options) (d : DocId) (hheads : s.heads = some heads) :
    resolveRules H opts true d s [.fieldMerge, .lastWrite] =
      .decided ((fieldMergeByOrigin H d heads s true).or (lastWrite H s)) none false := by
  simp only [resolveRules, hheads, List.head?_cons, decide_true]
  cases fieldMergeByOrigin H d heads s true <;> rfl

/-- inside a virtual base the rules decide too -/
theorem mergeBase_held (d : DocId) (x y base : BaseVal) (held : Option String) :
    (mergeBase H (mapOptions opts allowUnrelated) d x y base held).2 = held := by
  have hdecided : ∀ s : ConflictSides, s.heads = none → s.baseHeld = none →
      ∃ winner, (Chain.mk [.fieldMerge, .lastWrite] allowUnrelated 2).resolve H (mapOptions opts allowUnrelated) d s =
        .decided winner none false := by
    intro s hs hheld
    rw [Chain.resolve, hheld]
    simp only [resolveRules, hs]
    cases fieldMerge s.base s.body0 s.body1 with
    | none => exact ⟨_, rfl⟩
    | some m => exact ⟨_, rfl⟩
  obtain ⟨winner, hw⟩ := hdecided ⟨x.body, y.body, x.origin, y.origin, base.body, none, none⟩ rfl rfl
  unfold mergeBase
  dsimp only
  split
  · rfl
  split
  · rfl
  split
  · rfl
  · simp only [mapOptions] at hw ⊢
    rw [hw]
    dsimp only
    split_ifs <;> rfl

theorem virtualBase_held (d : DocId) (n : ℕ) (bases : List Hash) (held : Option String) :
    (virtualBase H (mapOptions opts allowUnrelated) d n bases held).2 = held := by
  induction n generalizing bases held with
  | zero => cases bases <;> rfl
  | succ n ih =>
    cases bases with
    | nil => rfl
    | cons b bs =>
      -- every base folded in leaves the reason as it was
      have hfold : ∀ (bs : List Hash) (st : (BaseVal × Option String) × List Hash), st.1.2 = held →
          (bs.foldl (fun (st : (BaseVal × Option String) × List Hash) b' =>
            let inner := virtualBase H (mapOptions opts allowUnrelated) d n (H.mergeBases st.2 [b']) st.1.2
            (mergeBase H (mapOptions opts allowUnrelated) d st.1.1 (baseAt H b' d) inner.1 inner.2,
              st.2 ++ [b'])) st).1.2 = held := by
        intro bs
        induction bs with
        | nil => exact fun st hst => hst
        | cons b' bs ihbs =>
          intro st hst
          refine ihbs _ ?_
          rw [mergeBase_held, ih, hst]
      exact hfold bs _ rfl

/-- the sides of a conflict are the parents' bodies, in the order of the parents -/
theorem canonicalSides_bodies (d : DocId) :
    (canonicalSides H opts a b (divergedDoc H a b d)).body0 = H.bodyAt (mergeCommitParents a b).1 d ∧
      (canonicalSides H opts a b (divergedDoc H a b d)).body1 = H.bodyAt (mergeCommitParents a b).2 d := by
  rcases mergeCommitParents_cases a b with hp | hp
  · simp only [canonicalSides, hp]
    exact ⟨rfl, rfl⟩
  · simp only [canonicalSides, hp]
    by_cases hba : b = a
    · subst hba
      simp only
      exact ⟨rfl, rfl⟩
    · simp only [if_neg hba]
      exact ⟨rfl, rfl⟩

/-- **The chain decides.** -/
theorem settle_map (a b : Hash) (dd : DivergedDoc) :
    let s := canonicalSides H (mapOptions opts allowUnrelated) a b dd
    settle H (mapOptions opts allowUnrelated) a b dd =
      some (⟨(fieldMergeByOrigin H dd.id (mergeCommitParents a b) s true).or (lastWrite H s), none⟩, false) := by
  intro s
  have hv2 : (Chain.mk [.fieldMerge, .lastWrite] allowUnrelated 2).mergeBases = true := by
    simp [Chain.mergeBases, Chain.effectiveVersion]
  have hheads : s.heads = some (mergeCommitParents a b) := by
    simp only [s, canonicalSides, mapOptions]
    split_ifs <;> rfl
  have hheld : s.baseHeld = none := by
    have hbase : (conflictBase H (mapOptions opts allowUnrelated) (mergeCommitParents a b).1
        (mergeCommitParents a b).2 dd.id).2 = none := by
      have hvirtual : (virtualBase H (mapOptions opts allowUnrelated) dd.id maxVirtualBaseDepth
          (H.mergeBases [(mergeCommitParents a b).1] [(mergeCommitParents a b).2]) none).2 = none :=
        virtualBase_held _ _ _ _
      simpa only [conflictBase, mapOptions, hv2, if_true] using hvirtual
    simp only [s, canonicalSides, hbase]
    split_ifs <;> rfl
  have hchain : chainOutcome H (mapOptions opts allowUnrelated) a b dd =
      .decided ((fieldMergeByOrigin H dd.id (mergeCommitParents a b) s true).or (lastWrite H s)) none false := by
    change Chain.resolve H _ _ dd.id s = _
    rw [Chain.resolve, hheld]
    exact resolveRules_map _ dd.id hheads
  rw [settle, hchain]

theorem settles_map (H : History) (opts : Options) (allowUnrelated : Bool) :
    Settles H (mapOptions opts allowUnrelated) := by
  intro a b dd
  exact ⟨_, settle_map a b dd, rfl⟩

/-! ## Runs -/

/-- of parents that hold the document alike, the first has every field from its latest change -/
def FirstChangedLast (H : History) (d : DocId) (parents : List Hash) : Prop :=
  ∀ p ∈ parents.head?, (∀ q ∈ parents, H.bodyAt q d = H.bodyAt p d) →
    ∀ key, ∀ q ∈ parents, ¬ H.originLater (latestChange H q d key) (latestChange H p d key)

/-- where only the first side changed the document as a whole, it has the other's latest changes of the fields they hold
differently -/
def OldFields (H : History) (d : DocId) (a b : Hash) : Prop :=
  H.changed (H.origin a d) b = true → H.changed (H.origin b d) a = false →
    ∀ key, fieldText (H.bodyAt a d) key ≠ fieldText (H.bodyAt b d) key → H.changed (latestChange H b d key) a = false

/-- what a merge traces by whole documents is right for their fields -/
structure ChangesTraced (H : History) (d : DocId) (a b : Hash) : Prop where
  first : FirstChangedLast H d (mergeParents H a b)
  left : OldFields H d a b
  right : OldFields H d b a

/-- the document is never deleted, nothing is written under the nil UUID, and merges meet `ChangesTraced` -/
def FieldsAdmitted (d : DocId) (H : History) : Event → Prop
  | .write w => Ops.after 0 w.operations = none ∧ Ops.after d w.operations ≠ some none
  | .merge a b => ChangesTraced H d a b

/-- what every admitted run keeps: every field is traced to its latest change -/
structure FieldInv (d : DocId) (H : History) : Prop where
  wellFormed : H.WellFormed
  causal : Causal H
  kept : ∀ x c, H.commit x = some c → Ops.after d c.operations ≠ some none
  latest : ∀ x c, H.commit x = some c → ∀ key, LatestChange H x d key (H.fieldOrigin x d key)

theorem FieldInv.empty (d : DocId) : FieldInv d History.empty where
  wellFormed := .empty
  causal _ _ hc := by cases hc
  kept _ _ hc := by cases hc
  latest _ _ hc := by cases hc

section

variable (hI : FieldInv d H)
include hI

theorem FieldInv.append (hfits : H.Fits c) (hts : ∀ p ∈ c.parents, ∀ cp, H.commit p = some cp → cp.timestamp < c.timestamp)
    (hkept : Ops.after d c.operations ≠ some none)
    (hlatest : H.Free h c → ∀ key, LatestChange (H.append h c) h d key ((H.append h c).fieldOrigin h d key)) :
    FieldInv d (H.append h c) := by
  refine ⟨hI.wellFormed.append hfits, hI.causal.append hts, ?_, ?_⟩
  · intro x cx hx
    obtain hx | ⟨-, -, rfl⟩ := commit_append_cases hx
    · exact hI.kept x cx hx
    · exact hkept
  · intro x cx hx key
    obtain hx | ⟨hf, rfl, rfl⟩ := commit_append_cases hx
    · rw [fieldOrigin_append hx]
      exact latestBelow_append hx (hI.latest x cx hx key) fun w cw hcw => by rw [changesField_append hcw]
    · exact hlatest hf key

/-- a new commit that changes nothing itself has the latest of its parents' changes -/
theorem FieldInv.inherit (hf : H.Free h c) (hnot : ¬ changesField (H.append h c) d key h)
    (hp : p ∈ c.parents) (htop : ∀ q ∈ c.parents, H.FieldLe d key q p) :
    LatestChange (H.append h c) h d key (H.fieldOrigin p d key) := by
  have hl : ∀ q ∈ c.parents, LatestChange H q d key (H.fieldOrigin q d key) := by
    intro q hq
    obtain ⟨cq, hcq⟩ := isSome_iff_exists.1 (hf.2 q hq)
    exact hI.latest q cq hcq key
  exact latestBelow_appended (f := fun q => H.fieldOrigin q d key) hf hnot
    (fun w cw hcw => by rw [changesField_append hcw]) hp hl htop

/-- the first of parents that agree on the document has the latest change of every field -/
theorem FirstChangedLast.key_le {parents : List Hash} (hfirst : FirstChangedLast H d parents)
    (hheld : ∀ q ∈ parents, ∃ cq, H.commit q = some cq) (hp : parents.head? = some p)
    (hbody : ∀ q ∈ parents, H.bodyAt q d = H.bodyAt p d) (key : String) : ∀ q ∈ parents, H.FieldLe d key q p := by
  intro q hq
  obtain ⟨cq, hcq⟩ := hheld q hq
  obtain ⟨cp, hcp⟩ := hheld p (mem_of_mem_head? hp)
  have hlater := hfirst p hp hbody key q hq
  rw [(hI.latest q cq hcq key).eq, (hI.latest p cp hcp key).eq] at hlater
  exact not_lt.1 fun hlt => hlater (originLater_iff.2 hlt)

/-! ## Ordinary commits -/

/-- an ordinary commit's fields are traced to their latest changes -/
theorem latestChange_write {w : WriteTx} (hf : H.Free h (w.commit H))
    (hts : ∀ p ∈ (w.commit H).parents, ∀ cp, H.commit p = some cp → cp.timestamp < (w.commit H).timestamp)
    (key : String) :
    LatestChange (H.append h (w.commit H)) h d key ((H.append h (w.commit H)).fieldOrigin h d key) := by
  have hself := commit_append_self hf
  have hmark : changesField (H.append h (w.commit H)) d key h →
      LatestChange (H.append h (w.commit H)) h d key (some h) :=
    fun hch => .of_mark hch fun y hb => originKey_le_appended hf hI.causal hts hb
  cases hparent : w.parent with
  | none =>
    have hps : (w.commit H).parents = [] := by simp [WriteTx.commit, hparent]
    rw [fieldOrigin_appended_root hf hps]
    split_ifs with hw
    · exact hmark (by rw [changesField_root hf hps, hw])
    · exact latestBelow_appended_root hf (by simpa [changesField_root hf hps] using hw) hps
  | some p =>
    have hps : (w.commit H).parents = [p] := by simp [WriteTx.commit, hparent]
    have hp : p ∈ (w.commit H).parents := by simp [hps]
    have honly : ∀ q ∈ (w.commit H).parents, H.FieldLe d key q p := by
      intro q hq
      rw [hps, mem_singleton] at hq
      rw [hq]
    cases hw : Ops.after d (w.commit H).operations with
    | none =>
      rw [fieldOrigin_appended_unwritten hf hw hps]
      refine hI.inherit hf ?_ hp honly
      rw [changesField_single hf hps, bodyAt_appended_unwritten hf hw hps]
      exact not_not.2 rfl
    | some v =>
      have hbody : (H.append h (w.commit H)).bodyAt h d = v := by rw [bodyAt, valueAt_written hself hw]
      rw [fieldOrigin_appended_single hf hw hps]
      split_ifs with hsame
      · refine hI.inherit hf ?_ hp honly
        rw [changesField_single hf hps, hbody]
        exact not_not.2 hsame
      · refine hmark ?_
        rw [changesField_single hf hps, hbody]
        exact hsame

/-! ## Merges -/

/-- a document that is absent was never written, as it is never deleted -/
theorem FieldInv.unwritten (hb : H.graph.Below w x) (hnone : H.bodyAt x d = none)
    (hc : H.commit x = some c) : ∀ cw, H.commit w = some cw → Ops.after d cw.operations = none := by
  have hquiet : ∀ y cy, H.commit y = some cy → H.bodyAt y d = none → Ops.after d cy.operations = none := by
    intro y cy hy hbody
    cases hw : Ops.after d cy.operations with
    | none => rfl
    | some v =>
      rw [bodyAt, valueAt_written hy hw] at hbody
      obtain rfl : v = none := hbody
      exact absurd hw (hI.kept y cy hy)
  induction hb generalizing c with
  | refl => exact fun cw hw => hquiet w cw hw hnone
  | step hp hb ih =>
    rename_i x p
    have hop := hquiet x c hc hnone
    have hbody : H.bodyAt x d = H.bodyAt p d := by
      refine body_eq_parent hI.wellFormed.merges ?_ p hp
      intro c' hc'
      rwa [Option.some.inj (hc'.symm.trans hc)]
    obtain ⟨cp, hcp⟩ := held_of_below (.parent hp) hc
    exact ih (hbody ▸ hnone) hcp

theorem FieldInv.body_ne_none (hx : H.commit x = some c) (ho : H.origin x d ≠ none) : H.bodyAt x d ≠ none := by
  obtain ⟨w, hw⟩ := ne_none_iff_exists'.1 ho
  obtain ⟨-, cw, hcw, hops⟩ := origin_some hx hw
  intro hnone
  exact hI.kept w cw hcw (hnone ▸ hops)

/-- where both sides changed the document or neither did, both have it -/
theorem FieldInv.both_held (ha : H.commit a = some ca) (hb : H.commit b = some cb) (hne : H.bodyAt a d ≠ H.bodyAt b d)
    (hch : H.changed (H.origin a d) b = H.changed (H.origin b d) a) : H.bodyAt a d ≠ none := by
  intro hnone
  have hoa : H.origin a d = none := by
    by_contra ho
    exact hI.body_ne_none ha ho hnone
  cases hob : H.origin b d with
  | none => exact hne (by rw [hnone, body_of_origin_none hb hob])
  | some w =>
    have hbelow : H.graph.Below w a := by simpa [hoa, hob, changed] using hch
    obtain ⟨-, cw, hcw, hops⟩ := origin_some hb hob
    rw [hI.unwritten hbelow hnone ha cw hcw] at hops
    cases hops

end

/-- one of the sides holds the field as the merge leaves it and has its latest change -/
def Taken (H : History) (d : DocId) (key : String) (a b : Hash) (v : Option Json) : Prop :=
  ∃ p, (p = a ∨ p = b) ∧ v = fieldText (H.bodyAt p d) key ∧
    ∀ q, q = a ∨ q = b → originKey H (H.fieldOrigin q d key) ≤ originKey H (H.fieldOrigin p d key)

theorem Taken.swap {v : Option Json} (h : Taken H d key a b v) : Taken H d key b a v := by
  obtain ⟨p, hp, hv, htop⟩ := h
  exact ⟨p, hp.symm, hv, fun q hq => htop q hq.symm⟩

theorem taken_of_le (hle : H.FieldLe d key b a) : Taken H d key a b (fieldText (H.bodyAt a d) key) := by
  refine ⟨a, .inl rfl, rfl, ?_⟩
  rintro q (rfl | rfl)
  · exact le_rfl
  · exact hle

/-- a side's field may be taken when the other side's change is not later, or the fields are alike -/
theorem taken_left (hle : fieldText (H.bodyAt a d) key ≠ fieldText (H.bodyAt b d) key → H.FieldLe d key b a) :
    Taken H d key a b (fieldText (H.bodyAt a d) key) := by
  by_cases hsame : fieldText (H.bodyAt a d) key = fieldText (H.bodyAt b d) key
  · rcases le_total (originKey H (H.fieldOrigin b d key)) (originKey H (H.fieldOrigin a d key)) with hba | hab
    · exact taken_of_le hba
    · exact hsame ▸ (taken_of_le hab).swap
  · exact taken_of_le (hle hsame)

section

variable (hI : FieldInv d H) (ha : H.commit a = some ca) (hb : H.commit b = some cb)
include hI ha hb

/-- **The rule per field.** The side a field is taken from has its latest change. -/
theorem fieldSide_taken {A B side : Fields} (hA : H.bodyAt a d = some A) (hB : H.bodyAt b d = some B)
    (hside : fieldSideByOrigin H d (a, b) true A B key = some side) : Taken H d key a b (side.get key) := by
  have hla := hI.latest a ca ha key
  have hlb := hI.latest b cb hb key
  have hfa : fieldText (H.bodyAt a d) key = A.get key := by rw [hA]; rfl
  have hfb : fieldText (H.bodyAt b d) key = B.get key := by rw [hB]; rfl
  have left : (A.get key ≠ B.get key → H.FieldLe d key b a) → Taken H d key a b (A.get key) := by
    intro hle
    rw [← hfa]
    exact taken_left (by rwa [hfa, hfb])
  have right : (A.get key ≠ B.get key → H.FieldLe d key a b) → Taken H d key a b (B.get key) := by
    intro hle
    rw [← hfb]
    exact (taken_left (by rw [hfa, hfb]; exact fun hne => hle hne.symm)).swap
  unfold fieldSideByOrigin at hside
  by_cases heq : A.get key = B.get key
  · rw [if_pos heq] at hside
    cases hside
    exact left fun hne => absurd heq hne
  · rw [if_neg heq] at hside
    dsimp only at hside
    split at hside
    · rename_i hcb
      cases hside
      exact left fun _ => key_le_of_not_changed hla hlb hcb
    · rename_i hca _
      cases hside
      exact right fun _ => key_le_of_not_changed hlb hla hca
    · rw [if_neg (by simp)] at hside
      split_ifs at hside with hl
      · cases hside
        exact left fun _ => (originLater_iff.1 hl).le
      · cases hside
        exact right fun _ => not_lt.1 fun hlt => hl (originLater_iff.2 hlt)

/-- a side that alone changed the document has the latest change of every field on which the two differ -/
theorem OldFields.key_le
    (hold : OldFields H d a b) (hca : H.changed (H.origin a d) b = true) (hcb : H.changed (H.origin b d) a = false)
    (hne : fieldText (H.bodyAt a d) key ≠ fieldText (H.bodyAt b d) key) : H.FieldLe d key b a := by
  have hch := hold hca hcb key hne
  rw [(hI.latest b cb hb key).eq] at hch
  exact key_le_of_not_changed (hI.latest a ca ha key) (hI.latest b cb hb key) hch

/-- the fields of a merged document are taken from the sides that have their latest changes -/
theorem fieldMerge_taken (hsa : H.bodyAt a d ≠ none) (hsb : H.bodyAt b d ≠ none) :
    ∃ m, fieldMergeByOrigin H d (mergeCommitParents a b) (canonicalSides H opts a b (divergedDoc H a b d)) true = some m ∧
      ∀ key, Taken H d key a b (m.get key) := by
  obtain ⟨A, hA⟩ := ne_none_iff_exists'.1 hsa
  obtain ⟨B, hB⟩ := ne_none_iff_exists'.1 hsb
  obtain ⟨h0, h1⟩ := @canonicalSides_bodies H opts a b d
  rcases mergeCommitParents_cases a b with hp | hp
  · simp only [hp] at h0 h1 ⊢
    obtain ⟨m, hm, hget⟩ := @fieldMergeByOrigin_get H d (a, b) _ A B (h0.trans hA) (h1.trans hB)
    refine ⟨m, hm, fun key => ?_⟩
    obtain ⟨side, hside, hmk⟩ := hget key
    rw [hmk]
    exact fieldSide_taken hI ha hb hA hB hside
  · simp only [hp] at h0 h1 ⊢
    obtain ⟨m, hm, hget⟩ := @fieldMergeByOrigin_get H d (b, a) _ B A (h0.trans hB) (h1.trans hA)
    refine ⟨m, hm, fun key => ?_⟩
    obtain ⟨side, hside, hmk⟩ := hget key
    rw [hmk]
    exact (fieldSide_taken hI hb ha hB hA hside).swap

/-- **A merged document.** It is there, and each field is taken from the side that has its latest change. -/
theorem mergedBody_map (hne : H.bodyAt a d ≠ H.bodyAt b d) (hleft : OldFields H d a b) (hright : OldFields H d b a) :
    mergedBody H (mapOptions opts allowUnrelated) a b (divergedDoc H a b d) ≠ none ∧ ∀ key, Taken H d key a b
        (fieldText (mergedBody H (mapOptions opts allowUnrelated) a b (divergedDoc H a b d)) key) := by
  have horigin : ∀ {y z : Hash}, H.changed (H.origin y d) z = true → H.origin y d ≠ none := by
    intro y z hch hnone
    rw [hnone] at hch
    cases hch
  by_cases hone : H.changed (H.origin a d) b = H.changed (H.origin b d) a
  · -- both sides changed it, or neither did: the chain decides
    obtain ⟨m, hm, htaken⟩ := @fieldMerge_taken H d (mapOptions opts allowUnrelated) a b ca cb hI ha hb
      (hI.both_held ha hb hne hone) (hI.both_held hb ha hne.symm hone.symm)
    have hbody : mergedBody H (mapOptions opts allowUnrelated) a b (divergedDoc H a b d) = some m := by
      have hsettle := @settle_map H opts allowUnrelated a b (divergedDoc H a b d)
      dsimp only at hsettle
      rw [show (divergedDoc H a b d).id = d from rfl, hm] at hsettle
      have hch : (divergedDoc H a b d).localChanged = (divergedDoc H a b d).remoteChanged := hone
      rw [mergedBody, hsettle, hch]
      cases (divergedDoc H a b d).remoteChanged <;> rfl
    rw [hbody]
    exact ⟨by simp, htaken⟩
  · cases hca : H.changed (H.origin a d) b with
    | true =>
      have hcb : H.changed (H.origin b d) a = false := by simpa [hca] using hone
      have hbody : mergedBody H (mapOptions opts allowUnrelated) a b (divergedDoc H a b d) = H.bodyAt a d := by
        simp [mergedBody, divergedDoc, hca, hcb]
      rw [hbody]
      exact ⟨hI.body_ne_none ha (horigin hca), fun key => taken_left (hleft.key_le hI ha hb hca hcb)⟩
    | false =>
      have hcb : H.changed (H.origin b d) a = true := by simpa [hca] using hone
      have hbody : mergedBody H (mapOptions opts allowUnrelated) a b (divergedDoc H a b d) = H.bodyAt b d := by
        simp [mergedBody, divergedDoc, hca, hcb]
      rw [hbody]
      exact ⟨hI.body_ne_none hb (horigin hcb), fun key => (taken_left (hright.key_le hI hb ha hcb hca)).swap⟩

end

variable {derived : List Hash → TxId} {hash : Commit → Hash}

section

variable (hI : FieldInv d H)
include hI

/-- a merge's fields are traced to their latest changes -/
theorem latestChange_merge (ha : H.commit a = some ca) (hb : H.commit b = some cb) (htraced : ChangesTraced H d a b)
    (hps : mergeParents H a b = [(mergeCommitParents a b).1, (mergeCommitParents a b).2])
    (hf : H.Free h (mergeNonConflicting H (mapOptions opts allowUnrelated) derived id a b ca cb)) (key : String) :
    LatestChange (H.append h (mergeNonConflicting H (mapOptions opts allowUnrelated) derived id a b ca cb)) h d key
      ((H.append h (mergeNonConflicting H (mapOptions opts allowUnrelated) derived id a b ca cb)).fieldOrigin h d key) := by
  set c := mergeNonConflicting H (mapOptions opts allowUnrelated) derived id a b ca cb with hcdef
  have hparents : c.parents = [(mergeCommitParents a b).1, (mergeCommitParents a b).2] :=
    mergeNonConflicting_parents derived id a b ca cb
  have hlen : 2 ≤ c.parents.length := by simp [hparents]
  have hafter : Ops.after d c.operations = if H.bodyAt a d = H.bodyAt b d then none
      else some (mergedBody H (mapOptions opts allowUnrelated) a b (divergedDoc H a b d)) := by
    rw [mergeNonConflicting_operations, Writes.after_ops,
      commitWrites_get (settles_map H opts allowUnrelated) hI.wellFormed ha hb]
  by_cases heq : H.bodyAt a d = H.bodyAt b d
  · -- the parents agree: every field is the first parent's, and so is its change
    rw [if_pos heq] at hafter
    rw [fieldOrigin_appended_unwritten hf hafter hparents]
    refine hI.inherit hf (not_changesField_merge hf hlen) (by simp [hparents]) ?_
    rw [hparents]
    refine FirstChangedLast.key_le hI (hps ▸ htraced.first) ?_ rfl ?_ key
    · intro q hq
      rcases mem_mergeCommitParents.1 hq with rfl | rfl
      · exact ⟨ca, ha⟩
      · exact ⟨cb, hb⟩
    · intro q hq
      rw [bodyAt_mergeCommitParents heq hq, bodyAt_mergeCommitParents heq mem_cons_self]
  · -- they differ: the field is taken from a parent that has its latest change
    rw [if_neg heq] at hafter
    obtain ⟨-, htaken⟩ := @mergedBody_map H d opts allowUnrelated a b ca cb hI ha hb heq htraced.left htraced.right
    obtain ⟨p, hp, hv, htop⟩ := htaken key
    have hp' : p ∈ c.parents := by rwa [hparents, mem_mergeCommitParents]
    have htop' : ∀ q ∈ c.parents, H.FieldLe d key q p := by
      intro q hq
      rw [hparents, mem_mergeCommitParents] at hq
      exact htop q hq
    rw [fieldOrigin_appended_merge hf hafter hlen hp' hv htop']
    exact hI.inherit hf (not_changesField_merge hf hlen) hp' htop'

/-- the fields at a join of heads with the same content are traced to their latest changes -/
theorem latestChange_join (ha : H.commit a = some ca) (hb : H.commit b = some cb)
    (hsame : cb.tree = ca.tree) (hfirst : FirstChangedLast H d (H.frontierOf a b))
    (hf : H.Free h (joinCommit H derived ca (H.frontierOf a b))) (key : String) :
    LatestChange (H.append h (joinCommit H derived ca (H.frontierOf a b))) h d key
      ((H.append h (joinCommit H derived ca (H.frontierOf a b))).fieldOrigin h d key) := by
  obtain ⟨hne, htrees⟩ := frontierOf_spec ha hb hsame
  obtain ⟨p, ps, hps⟩ := exists_cons_of_ne_nil hne
  have hp : p ∈ H.frontierOf a b := by simp [hps]
  have hheld : ∀ q ∈ H.frontierOf a b, ∃ cq, H.commit q = some cq := by
    intro q hq
    obtain ⟨cq, hcq, -⟩ := map_eq_some_iff.1 (htrees q hq)
    exact ⟨cq, hcq⟩
  have htop := hfirst.key_le hI hheld (p := p) (by simp [hps])
    (fun q hq => join_bodies hI.wellFormed ha hb hsame hq hp d) key
  rw [fieldOrigin_appended_unwritten hf rfl hps]
  refine hI.inherit hf ?_ hp htop
  -- a frontier of one commit makes a commit on one parent that changes nothing
  rcases ps with - | ⟨q, qs⟩
  · rw [changesField_single hf hps, bodyAt_appended_unwritten hf rfl hps]
    exact not_not.2 rfl
  · exact not_changesField_merge hf (by simp [joinCommit, hps])

/-! ## Every admitted run -/

theorem FieldInv.step {e : Event} (he : FieldsAdmitted d H e) :
    FieldInv d (stepUnder (mapOptions opts allowUnrelated) hash derived H e) := by
  have hs := settles_map H opts allowUnrelated
  obtain heq | ⟨c, hc, heq⟩ := stepUnder_cases hash derived e
  · rwa [heq]
  · rw [heq]
    have hfits : H.Fits c := by
      refine hc.fits hs hI.wellFormed ?_
      rintro w rfl
      exact he.1
    have hts := hc.later
    cases hc with
    | write w => exact hI.append hfits hts he.2 fun hf key => latestChange_write hI hf hts key
    | join ha hb hsame hps =>
      exact hI.append hfits hts (by simp [joinCommit, Ops.after]) fun hf key =>
        latestChange_join hI ha hb hsame (hps ▸ he.first) hf key
    | merge ha hb hps =>
      refine hI.append hfits hts ?_ fun hf key => latestChange_merge hI ha hb he hps hf key
      rw [mergeNonConflicting_operations, Writes.after_ops, commitWrites_get hs hI.wellFormed ha hb]
      split_ifs with heq
      · simp
      · intro hnone
        exact (mergedBody_map hI ha hb heq he.left he.right).1 (Option.some.inj hnone)

theorem FieldInv.field_eq (hx : H.commit x = some c) (key : String) :
    fieldText (H.bodyAt x d) key = H.fieldFrom d key (latestChange H x d key) := by
  rw [(hI.latest x c hx key).eq, (fieldOrigin_spec hx d key).2]

end

theorem changesField_ordinary (hw : changesField H d key w) : ∃ cw, H.commit w = some cw ∧ cw.parents.length < 2 := by
  cases hc : H.commit w with
  | none => simp [changesField, hc] at hw
  | some cw =>
    refine ⟨cw, rfl, ?_⟩
    rw [changesField, hc] at hw
    match hps : cw.parents with
    | [] => simp
    | [p] => simp
    | p :: q :: ps => simp [hps] at hw

/-- **Fields are last written.** In every run that never deletes the document and whose merges trace it rightly, every head
holds each field of the document as the latest change in its history left it. So heads with the same ordinary commits below
them hold the same fields, whatever was merged with what and when. -/
theorem fields_last_written (opts : Options) (allowUnrelated : Bool) (hash : Commit → Hash) (derived : List Hash → TxId)
    (d : DocId) (events : List Event)
    (hadm : Machine.Along (stepUnder (mapOptions opts allowUnrelated) hash derived) (FieldsAdmitted d) History.empty events) :
    let H := Machine.run (stepUnder (mapOptions opts allowUnrelated) hash derived) History.empty events
    (∀ x c, H.commit x = some c → ∀ key,
        fieldText (H.bodyAt x d) key = H.fieldFrom d key (latestChange H x d key)) ∧
      ∀ x cx y cy, H.commit x = some cx → H.commit y = some cy →
        (∀ w cw, H.commit w = some cw → cw.parents.length < 2 → (H.graph.Below w x ↔ H.graph.Below w y)) →
          ∀ key, fieldText (H.bodyAt x d) key = fieldText (H.bodyAt y d) key := by
  intro H
  have hI : FieldInv d H := Machine.run_of_step (I := FieldInv d) (fun _ _ he hs => hs.step he) hadm (.empty d)
  refine ⟨fun x c hx key => hI.field_eq hx key, ?_⟩
  intro x cx y cy hx hy hsame key
  have hly : LatestChange H y d key (latestChange H x d key) := by
    refine (latestChange_spec H x d key).of_same fun w hw => ?_
    obtain ⟨cw, hcw, hlen⟩ := changesField_ordinary hw
    exact hsame w cw hcw hlen
  rw [hI.field_eq hx, hI.field_eq hy, hly.eq]

/-- a commit that writes document 5 with the given fields -/
def fieldsOf (parent : Hash) (tx : TxId) (timestamp : ℕ) (fields : Fields) : Event :=
  .write ⟨some parent, tx, timestamp, 1, [.write 5 (.obj fields) false], none, ""⟩

/-- two writers of different fields, merged -/
def mergedFields : List Event :=
  [rootOf, fieldsOf 1 2 10 [("f", .num 1)], fieldsOf 1 3 20 [("g", .num 2)], .merge 2 3]

theorem fields_last_written_mergedFields :
    let H := Machine.run (stepUnder (mapOptions lastWriteOptions false) Commit.transactionId fun ps => ps.sum + 10)
      History.empty mergedFields
    (∀ x c, H.commit x = some c → ∀ key,
        fieldText (H.bodyAt x 5) key = H.fieldFrom 5 key (latestChange H x 5 key)) ∧
      ∀ x cx y cy, H.commit x = some cx → H.commit y = some cy →
        (∀ w cw, H.commit w = some cw → cw.parents.length < 2 → (H.graph.Below w x ↔ H.graph.Below w y)) →
          ∀ key, fieldText (H.bodyAt x 5) key = fieldText (H.bodyAt y 5) key := by
  refine fields_last_written lastWriteOptions false Commit.transactionId (fun ps => ps.sum + 10) 5 mergedFields ?_
  refine ⟨⟨rfl, by decide⟩, ⟨rfl, by decide⟩, ⟨rfl, by decide⟩, ⟨?_, ?_, ?_⟩, trivial⟩
  · intro p hp hbody
    have hhead : ∀ p ∈ (mergeParents (Machine.run (stepUnder (mapOptions lastWriteOptions false) Commit.transactionId
        fun ps => ps.sum + 10) History.empty (mergedFields.take 3)) 2 3).head?, p = 2 := by
      decide +kernel
    obtain rfl := hhead p hp
    exact absurd (hbody 3 (by decide +kernel)) (by decide +kernel)
  · exact fun _ hcb => absurd hcb (by decide +kernel)
  · exact fun _ hcb => absurd hcb (by decide +kernel)

/-- two writes of the same field, merged with another field's; then a write between the two on top of the first -/
def echoedField : List Event :=
  [rootOf, fieldsOf 1 2 10 [("f", .num 1), ("g", .num 2)], fieldsOf 1 3 30 [("f", .num 1)], .merge 2 3,
    fieldsOf 2 4 20 [("f", .num 5), ("g", .num 2)], .merge 15 4]

/-- **A later change is lost.** In the first run commit 29 merges commit 15, the join of the writes of "a" at 10 and 20,
with the write of "b" at 15, and holds "b": at the join the field is traced to the first parent only. In the second commit
29 merges commit 15, whose document is commit 2's, with a child of commit 2: as a whole document commit 15's is old, so
field f is taken from the child, written at 20, though commit 3 wrote it at 30. -/
theorem later_change_lost :
    let step := stepUnder (mapOptions lastWriteOptions false) Commit.transactionId fun ps => ps.sum + 10
    let H := Machine.run step History.empty reorderedWriters
    let H' := Machine.run step History.empty echoedField
    (latestChange H 29 5 "value" = some 3 ∧ fieldText (H.bodyAt 3 5) "value" = some (.str "a") ∧
      fieldText (H.bodyAt 29 5) "value" = some (.str "b")) ∧
    (latestChange H' 29 5 "f" = some 3 ∧ fieldText (H'.bodyAt 3 5) "f" = some (.num 1) ∧
      fieldText (H'.bodyAt 29 5) "f" = some (.num 5)) := by
  decide +kernel

end Kdb.Peersync
