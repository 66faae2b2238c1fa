/-
Histories grow by appended commits (`dag/in_memory_commit_dag.go`, `putCommitLocked`): a commit whose parents are held
takes a free hash; one that is already there changes nothing.

- `below_append`, `valueAt_append`, `origin_append`: nothing changes at the commits already held.
- `below_appended`: the new commit stands on what its parents stand on.
- `WellFormed.append`: a commit that fits keeps the history well formed.
-/
import Kdb.Peersync.History

namespace Kdb.Peersync.History

open List Option

/-- no commit -/
def empty : History where
  commit _ := none
  generation _ := 0
  parents_held := by simp
  generation_lt := by simp

variable (H : History)

/-- one past the highest parent -/
def nextGeneration (parents : List Hash) : ℕ := (parents.map H.generation).foldr max 0 + 1

theorem lt_nextGeneration {parents : List Hash} {p : Hash} (hp : p ∈ parents) : H.generation p < H.nextGeneration parents := by
  induction parents with
  | nil => cases hp
  | cons q qs ih =>
    simp only [nextGeneration, Nat.lt_succ_iff] at ih ⊢
    rcases mem_cons.1 hp with rfl | hp
    · exact le_max_left _ _
    · exact (ih hp).trans (le_max_right _ _)

/-- the hash is free and every parent is held -/
def Free (h : Hash) (c : Commit) : Prop :=
  H.commit h = none ∧ ∀ p ∈ c.parents, (H.commit p).isSome
  deriving Decidable

theorem Free.ne_parent {H : History} {h p : Hash} {c : Commit} (hf : H.Free h c) (hp : p ∈ c.parents) : p ≠ h := by
  rintro rfl
  have := hf.2 p hp
  simp [hf.1] at this

def insert (h : Hash) (c : Commit) (hf : H.Free h c) : History where
  commit := Function.update H.commit h (some c)
  generation := Function.update H.generation h (H.nextGeneration c.parents)
  parents_held := by
    intro x cx hx p hp
    have hheld : ∃ cp, H.commit p = some cp := by
      by_cases hxh : x = h
      · subst hxh
        obtain rfl : c = cx := by simpa using hx
        exact isSome_iff_exists.1 (hf.2 p hp)
      · exact H.parents_held x cx (by simpa [hxh] using hx) p hp
    by_cases hph : p = h
    · exact ⟨c, by simp [hph]⟩
    · simpa [hph] using hheld
  generation_lt := by
    intro x cx hx p hp
    by_cases hxh : x = h
    · subst hxh
      obtain rfl : c = cx := by simpa using hx
      simpa [hf.ne_parent hp] using H.lt_nextGeneration hp
    · have hx' : H.commit x = some cx := by simpa [hxh] using hx
      have hph : p ≠ h := by
        rintro rfl
        obtain ⟨cp, hcp⟩ := H.parents_held x cx hx' p hp
        simp [hf.1] at hcp
      simpa [hxh, hph] using H.generation_lt x cx hx' p hp

/-- `putCommitLocked` -/
def append (h : Hash) (c : Commit) : History := if hf : H.Free h c then H.insert h c hf else H

variable {H : History} {h : Hash} {c : Commit}

theorem append_free (hf : H.Free h c) : H.append h c = H.insert h c hf := dif_pos hf

theorem append_not_free (hf : ¬ H.Free h c) : H.append h c = H := dif_neg hf

/-! ## Old commits -/

variable {cx : Commit} {x : Hash}

theorem commit_append (hx : H.commit x = some cx) : (H.append h c).commit x = some cx := by
  by_cases hf : H.Free h c
  · have hxh : x ≠ h := by
      rintro rfl
      simp [hf.1] at hx
    simpa [append_free hf, insert, hxh] using hx
  · rwa [append_not_free hf]

theorem commit_append_self (hf : H.Free h c) : (H.append h c).commit h = some c := by
  simp [append_free hf, insert]

theorem commit_append_cases (hx : (H.append h c).commit x = some cx) :
    H.commit x = some cx ∨ H.Free h c ∧ x = h ∧ cx = c := by
  by_cases hf : H.Free h c
  · by_cases hxh : x = h
    · subst hxh
      rw [commit_append_self hf] at hx
      exact .inr ⟨hf, rfl, (Option.some.inj hx).symm⟩
    · exact .inl (by simpa [append_free hf, insert, hxh] using hx)
  · exact .inl (by rwa [append_not_free hf] at hx)

/-- the other history holds the same commits, and perhaps more -/
def Extends (H H' : History) : Prop := ∀ h c, H.commit h = some c → H'.commit h = some c

theorem Extends.parents {H' : History} (he : H.Extends H') (hx : H.commit x = some cx) :
    H'.graph.parents x = H.graph.parents x := by
  change H'.parents x = H.parents x
  rw [parents_of_commit hx, parents_of_commit (he x cx hx)]

theorem Extends.below_iff {H' : History} {y : Hash} (he : H.Extends H') (hx : H.commit x = some cx) :
    H'.graph.Below y x ↔ H.graph.Below y x := by
  constructor
  · intro hb
    induction hb generalizing cx with
    | refl => exact .refl
    | step hp hb ih =>
      rw [he.parents hx] at hp
      obtain ⟨cp, hcp⟩ := held_of_below (.parent hp) hx
      exact .step hp (ih hcp)
  · intro hb
    induction hb generalizing cx with
    | refl => exact .refl
    | step hp hb ih =>
      obtain ⟨cp, hcp⟩ := held_of_below (.parent hp) hx
      exact .step (by rwa [he.parents hx]) (ih hcp)

theorem extends_append : H.Extends (H.append h c) := fun _ _ => commit_append

theorem below_append {y : Hash} (hx : H.commit x = some cx) : (H.append h c).graph.Below y x ↔ H.graph.Below y x :=
  extends_append.below_iff hx

theorem parents_append_self (hf : H.Free h c) : (H.append h c).graph.parents h = c.parents :=
  parents_of_commit (commit_append_self hf)

theorem below_appended (hf : H.Free h c) {y : Hash} :
    (H.append h c).graph.Below y h ↔ y = h ∨ ∃ p ∈ c.parents, H.graph.Below y p := by
  have hps := parents_append_self hf
  have hold : ∀ p ∈ c.parents, ((H.append h c).graph.Below y p ↔ H.graph.Below y p) := by
    intro p hp
    obtain ⟨cp, hcp⟩ := isSome_iff_exists.1 (hf.2 p hp)
    exact below_append hcp
  constructor
  · intro hb
    refine hb.eq_or_parent.imp_right ?_
    rintro ⟨p, hp, hb⟩
    rw [hps] at hp
    exact ⟨p, hp, (hold p hp).1 hb⟩
  · rintro (rfl | ⟨p, hp, hb⟩)
    · exact .refl
    · exact .step (hps ▸ hp) ((hold p hp).2 hb)

theorem valueAt_append (hx : H.commit x = some cx) (d : DocId) : (H.append h c).valueAt x d = H.valueAt x d := by
  induction x, cx, hx using value_induction d with
  | written x cx hx body hw => rw [valueAt_written hx hw, valueAt_written (commit_append hx) hw]
  | root x cx hx hw hps => rw [valueAt_root hx hw hps, valueAt_root (commit_append hx) hw hps]
  | child x cx hx p ps cp _ hw hps ih =>
    rw [valueAt_unwritten hx hw hps, valueAt_unwritten (commit_append hx) hw hps, ih]

theorem bodyAt_append (hx : H.commit x = some cx) (d : DocId) : (H.append h c).bodyAt x d = H.bodyAt x d := by
  rw [bodyAt, bodyAt, valueAt_append hx]

theorem origin_append (hx : H.commit x = some cx) (d : DocId) : (H.append h c).origin x d = H.origin x d := by
  induction x, cx, hx using writer_induction d with
  | absent x cx hx hw => rw [origin_eq, origin_eq, originStep, originStep, valueAt_append hx, hw]
  | written x cx hx w cw hw hbw hcw _ ih =>
    have hps : (H.append h c).parents w = H.parents w := extends_append.parents hcw
    have hfind : ((H.parents w).find? fun p => decide ((H.append h c).bodyAt p d = (H.append h c).bodyAt x d)) =
        (H.parents w).find? fun p => decide (H.bodyAt p d = H.bodyAt x d) := by
      refine List.find?_congr ?_
      intro p hp
      obtain ⟨cp, hcp, -⟩ := ih p hp
      rw [bodyAt_append hx, bodyAt_append hcp]
    rw [origin_eq, origin_eq, originStep, originStep]
    simp only [valueAt_append hx, hw, hps, hfind]
    split
    · rfl
    · split
      · rfl
      · rename_i p hp
        obtain ⟨cp, hcp, heq⟩ := ih p (mem_of_find?_eq_some hp)
        exact heq

theorem originLater_append {a b : Option Hash} (ha : ∀ w, a = some w → ∃ cw, H.commit w = some cw)
    (hb : ∀ w, b = some w → ∃ cw, H.commit w = some cw) : (H.append h c).originLater a b = H.originLater a b := by
  have hts : ∀ o : Option Hash, (∀ w, o = some w → ∃ cw, H.commit w = some cw) →
      (H.append h c).timestampOf o = H.timestampOf o := by
    intro o ho
    cases o with
    | none => rfl
    | some w =>
      obtain ⟨cw, hcw⟩ := ho w rfl
      simp [timestampOf, hcw, commit_append hcw]
  rw [originLater, originLater, hts a ha, hts b hb]

theorem latestOf_append {answers : List (Option Hash)} (h' : ∀ o ∈ answers, ∀ w, o = some w → ∃ cw, H.commit w = some cw) :
    (H.append h c).latestOf answers = H.latestOf answers := by
  induction hn : answers.length generalizing answers with
  | zero => rw [length_eq_zero_iff.1 hn]; rfl
  | succ n ih =>
    match answers with
    | [o] => rfl
    | o₁ :: o₂ :: answers =>
      have h₁ := h' o₁ (by simp)
      have h₂ := h' o₂ (by simp)
      rw [latestOf_cons_cons, originLater_append h₂ h₁]
      refine ih ?_ (by simpa using hn)
      intro o ho
      rcases mem_cons.1 ho with rfl | ho
      · split_ifs
        · exact h₂
        · exact h₁
      · exact h' o (by simp [ho])

theorem fieldOrigin_append (hx : H.commit x = some cx) (d : DocId) (key : String) :
    (H.append h c).fieldOrigin x d key = H.fieldOrigin x d key := by
  induction x, cx, hx using writer_induction d with
  | absent x cx hx hw => simp only [fieldOrigin_eq, fieldOriginStep, valueAt_append hx d, hw]
  | written x cx hx w cw hw hbw hcw _ ih =>
    have hw' : ((H.append h c).valueAt x d).writer = some w := by rw [valueAt_append hx, hw]
    have hps : (H.append h c).parents w = H.parents w := extends_append.parents hcw
    have hbody : ∀ p ∈ H.parents w, (H.append h c).bodyAt p d = H.bodyAt p d := by
      intro p hp
      obtain ⟨cp, hcp, -⟩ := ih p hp
      exact bodyAt_append hcp d
    rw [fieldOrigin_eq, fieldOrigin_eq]
    by_cases hlen : 2 ≤ (H.parents w).length
    · rw [fieldOriginStep_merge hw hlen, fieldOriginStep_merge hw' (by rwa [hps]), hps, bodyAt_append hx,
        filter_congr fun p hp => by rw [hbody p hp],
        map_congr_left fun p hp => (ih p (mem_filter.1 hp).1).elim fun _ h => h.2, latestOf_append]
      intro o ho v hv
      obtain ⟨p, hp, rfl⟩ := mem_map.1 ho
      obtain ⟨cp, hcp, -⟩ := ih p (mem_filter.1 hp).1
      exact held_of_below ((fieldOrigin_spec hcp d key).1 v hv) hcp
    · rcases hps' : H.parents w with _ | ⟨p, _ | ⟨q, ps⟩⟩
      · simp only [fieldOriginStep, hw, hw', hps, hps']
      · have hp : p ∈ H.parents w := by simp [hps']
        obtain ⟨cp, hcp, heq⟩ := ih p hp
        simp only [fieldOriginStep, hw, hw', hps, hps', hbody p hp, heq, bodyAt_append hx]
      · simp [hps'] at hlen

/-! ## Well-formed histories -/

/-- commits replay, merges write what their parents differ on, and nothing is written under the nil UUID -/
structure WellFormed (H : History) : Prop where
  replays : H.Replays
  merges : H.MergesWrite
  nil : H.NilUnwritten

/-- the tree a commit's operations are replayed on -/
def baseTree (H : History) (c : Commit) : Tree := ((c.parents.head?.bind H.commit).map Commit.tree).getD ∅

/-- a commit that may join a well-formed history -/
structure Fits (H : History) (c : Commit) : Prop where
  replays : c.tree = (H.baseTree c).applyOps c.operations
  merges : 2 ≤ c.parents.length → ∀ p ∈ c.parents, ∀ q ∈ c.parents, ∀ d, H.bodyAt p d ≠ H.bodyAt q d →
    (Ops.after d c.operations).isSome
  nil : Ops.after 0 c.operations = none

theorem WellFormed.empty : empty.WellFormed where
  replays _ _ hc := by cases hc
  merges _ _ hc := by cases hc
  nil _ _ hc := by cases hc

theorem baseTree_append (hheld : ∀ p ∈ cx.parents, ∃ cp, H.commit p = some cp) :
    (H.append h c).baseTree cx = H.baseTree cx := by
  unfold baseTree
  cases hps : cx.parents with
  | nil => rfl
  | cons p ps =>
    obtain ⟨cp, hcp⟩ := hheld p (by simp [hps])
    simp [hcp, commit_append hcp]

/-- **Growth.** A commit that fits keeps the history well formed. -/
theorem WellFormed.append (hw : H.WellFormed) (hc : H.Fits c) : (H.append h c).WellFormed := by
  have hheld : ∀ x cx, (H.append h c).commit x = some cx → ∀ p ∈ cx.parents, ∃ cp, H.commit p = some cp := by
    intro x cx hx p hp
    obtain hx | ⟨hf, rfl, rfl⟩ := commit_append_cases hx
    · exact H.parents_held x cx hx p hp
    · exact isSome_iff_exists.1 (hf.2 p hp)
  refine ⟨?_, ?_, ?_⟩
  · intro x cx hx
    change cx.tree = ((H.append h c).baseTree cx).applyOps cx.operations
    rw [baseTree_append (hheld x cx hx)]
    obtain hx | ⟨-, -, rfl⟩ := commit_append_cases hx
    · exact hw.replays x cx hx
    · exact hc.replays
  · intro x cx hx hlen p hp q hq d hne
    obtain ⟨cp, hcp⟩ := hheld x cx hx p hp
    obtain ⟨cq, hcq⟩ := hheld x cx hx q hq
    rw [bodyAt_append hcp, bodyAt_append hcq] at hne
    obtain hx | ⟨-, -, rfl⟩ := commit_append_cases hx
    · exact hw.merges x cx hx hlen p hp q hq d hne
    · exact hc.merges hlen p hp q hq d hne
  · intro x cx hx
    obtain hx | ⟨-, -, rfl⟩ := commit_append_cases hx
    · exact hw.nil x cx hx
    · exact hc.nil

/-- a commit with at most one parent has no parents that differ -/
theorem Fits.of_single (hlen : c.parents.length < 2) (hreplays : c.tree = (H.baseTree c).applyOps c.operations)
    (hnil : Ops.after 0 c.operations = none) : H.Fits c :=
  ⟨hreplays, fun h => absurd h (by omega), hnil⟩

/-- a commit whose parents hold the same documents has nothing to write -/
theorem Fits.of_same_trees (hw : H.WellFormed) (hreplays : c.tree = (H.baseTree c).applyOps c.operations)
    (hnil : Ops.after 0 c.operations = none) {t : Tree}
    (hsame : ∀ p ∈ c.parents, (H.commit p).map Commit.tree = some t) : H.Fits c := by
  refine ⟨hreplays, ?_, hnil⟩
  intro _ p hp q hq d hne
  obtain ⟨cp, hcp, htp⟩ := map_eq_some_iff.1 (hsame p hp)
  obtain ⟨cq, hcq, htq⟩ := map_eq_some_iff.1 (hsame q hq)
  rw [← tree_get hw.replays hcp, ← tree_get hw.replays hcq, htp, htq] at hne
  exact absurd rfl hne

end Kdb.Peersync.History
