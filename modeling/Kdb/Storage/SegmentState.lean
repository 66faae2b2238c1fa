/-
Restored segments by sequence number (`storage/io/segment_state.go`: `seqRuns`).

`seqRuns` holds a set of `int64` numbers as inclusive runs and finds its place by binary search (`sort.Search`). Sums with one
wrap, so the numbers next to the extremes are not where `add` looks for them.
- `runs_are_a_set`: `contains` answers for the set, in every run that adds neither extreme.
- `extremes_break_runs`: the least number is put last, and the greatest before the run it touches.
-/
import Mathlib
import Kdb.Lib.Machine

namespace Kdb.SegmentState

open List

structure SeqRun where
  lo : ℤ
  hi : ℤ
  deriving DecidableEq

abbrev SeqRuns := List SeqRun

/-- the result of an `int64` operation -/
def int64 (n : ℤ) : ℤ := n.bmod (2 ^ 64)

/-- `sort.Search` between `i` and `j` -/
def search (p : ℕ → Bool) : ℕ → ℕ → ℕ → ℕ
  | 0, i, _ => i
  | fuel + 1, i, j =>
    if i < j then
      let h := (i + j) / 2
      if p h then search p fuel i h else search p fuel (h + 1) j
    else i

variable (rs : SeqRuns) (seq : ℤ)

/-- the index of the first run ending at or after `seq` -/
def SeqRuns.at : ℕ := search (fun i => rs[i]?.any (seq ≤ ·.hi)) rs.length 0 rs.length

def SeqRuns.contains : Bool := rs[SeqRuns.at rs seq]?.any (·.lo ≤ seq)

/-- `rs[i]` is the head of `rs[i:]` -/
def SeqRuns.add : SeqRuns :=
  let i := SeqRuns.at rs (int64 (seq - 1))
  match rs.drop i with
  | [] => rs.take i ++ [⟨seq, seq⟩]
  | r :: rest =>
    if r.lo ≤ int64 (seq + 1) then
      rs.take i ++
        if seq < r.lo then ⟨seq, r.hi⟩ :: rest
        else if r.hi < seq then
          match rest with
          | [] => [⟨r.lo, seq⟩]
          | next :: rest => if next.lo = int64 (seq + 1) then ⟨r.lo, next.hi⟩ :: rest else ⟨r.lo, seq⟩ :: next :: rest
        else r :: rest
    else rs.take i ++ ⟨seq, seq⟩ :: r :: rest

def SeqRuns.remove : SeqRuns :=
  let i := SeqRuns.at rs seq
  match rs.drop i with
  | [] => rs
  | r :: rest =>
    if seq < r.lo then rs
    else rs.take i ++
      if r.lo = r.hi then rest
      else if seq = r.lo then ⟨int64 (r.lo + 1), r.hi⟩ :: rest
      else if seq = r.hi then ⟨r.lo, int64 (r.hi - 1)⟩ :: rest
      else ⟨r.lo, int64 (seq - 1)⟩ :: ⟨int64 (seq + 1), r.hi⟩ :: rest

inductive Op where
  | add (seq : ℤ)
  | remove (seq : ℤ)

def step (rs : SeqRuns) : Op → SeqRuns
  | .add seq => rs.add seq
  | .remove seq => rs.remove seq

/-- the set the runs stand for -/
def Op.apply (s : Finset ℤ) : Op → Finset ℤ
  | .add seq => insert seq s
  | .remove seq => s.erase seq

/-! ## The runs -/

/-- in the range of the type, sorted, disjoint and non-adjacent -/
def Tidy : Prop :=
  (∀ r ∈ rs, -2 ^ 63 ≤ r.lo ∧ r.lo ≤ r.hi ∧ r.hi < 2 ^ 63) ∧ rs.Pairwise fun a b => a.hi + 1 < b.lo

/-- `n` is in a run -/
def Has (n : ℤ) : Prop := ∃ r ∈ rs, r.lo ≤ n ∧ n ≤ r.hi

variable {rs seq} {l r : SeqRuns} {x : SeqRun} {n : ℤ}

@[grind =] theorem tidy_append : Tidy (l ++ r) ↔ Tidy l ∧ Tidy r ∧ ∀ a ∈ l, ∀ b ∈ r, a.hi + 1 < b.lo := by
  simp only [Tidy, forall_mem_append, pairwise_append]
  tauto

@[grind =] theorem tidy_cons :
    Tidy (x :: r) ↔ (-2 ^ 63 ≤ x.lo ∧ x.lo ≤ x.hi ∧ x.hi < 2 ^ 63) ∧ (∀ b ∈ r, x.hi + 1 < b.lo) ∧ Tidy r := by
  simp only [Tidy, forall_mem_cons, pairwise_cons]
  tauto

@[grind .] theorem tidy_nil : Tidy [] := ⟨by simp, .nil⟩

@[grind =] theorem has_append : Has (l ++ r) n ↔ Has l n ∨ Has r n := by
  simp [Has, or_and_right, exists_or]

@[grind =] theorem has_cons : Has (x :: r) n ↔ (x.lo ≤ n ∧ n ≤ x.hi) ∨ Has r n := by
  simp [Has]

/-- a binary search finds where a predicate starts to hold -/
theorem search_eq {p : ℕ → Bool} {k n : ℕ} (hp : ∀ a < n, p a = decide (k ≤ a)) {fuel i j : ℕ}
    (hfuel : j - i ≤ fuel) (hi : i ≤ k) (hk : k ≤ j) (hj : j ≤ n) : search p fuel i j = k := by
  induction fuel generalizing i j with
  | zero =>
    simp only [search]
    omega
  | succ fuel ih =>
    simp only [search]
    split_ifs with hlt hm
    · rw [hp _ (by omega), decide_eq_true_iff] at hm
      exact ih (by omega) hi hm (by omega)
    · rw [hp _ (by omega), decide_eq_true_iff] at hm
      exact ih (by omega) (by omega) hk hj
    · omega

/-- the search splits the runs into those that end before `seq` and the others -/
theorem at_spec (h : Tidy rs) (seq : ℤ) :
    ∃ l r, rs = l ++ r ∧ SeqRuns.at rs seq = l.length ∧ (∀ x ∈ l, x.hi < seq) ∧ ∀ x ∈ r, seq ≤ x.hi := by
  have hsplit : ∃ l r, rs = l ++ r ∧ (∀ x ∈ l, x.hi < seq) ∧ ∀ x ∈ r, seq ≤ x.hi := by
    induction rs with
    | nil => exact ⟨[], [], rfl, by simp, by simp⟩
    | cons x rs ih =>
      rw [tidy_cons] at h
      by_cases hx : x.hi < seq
      · obtain ⟨l, r, rfl, hl, hr⟩ := ih h.2.2
        exact ⟨x :: l, r, rfl, by simpa [hx] using hl, hr⟩
      · exact ⟨[], x :: rs, rfl, by simp, by grind [Tidy]⟩
  obtain ⟨l, r, rfl, hl, hr⟩ := hsplit
  refine ⟨l, r, rfl, search_eq (fun a ha => ?_) le_rfl (Nat.zero_le _) (by simp) le_rfl, hl, hr⟩
  grind

theorem contains_iff (h : Tidy rs) (seq : ℤ) : rs.contains seq ↔ Has rs seq := by
  obtain ⟨l, r, rfl, hat, hl, hr⟩ := at_spec h seq
  rw [SeqRuns.contains, hat, getElem?_append_right le_rfl, Nat.sub_self]
  cases r <;> grind [Has]

theorem int64_eq (hlo : -2 ^ 63 ≤ n) (hhi : n < 2 ^ 63) : int64 n = n := by
  rw [int64, Int.bmod_def]
  omega

theorem add_spec (h : Tidy rs) (hlo : -2 ^ 63 < seq) (hhi : seq < 2 ^ 63 - 1) :
    Tidy (rs.add seq) ∧ ∀ n, Has (rs.add seq) n ↔ n = seq ∨ Has rs n := by
  obtain ⟨l, r, rfl, hat, hl, hr⟩ := at_spec h (seq - 1)
  have hprev : int64 (seq - 1) = seq - 1 := int64_eq (by omega) (by omega)
  have hnext : int64 (seq + 1) = seq + 1 := int64_eq (by omega) (by omega)
  simp only [SeqRuns.add, hprev, hnext, hat, drop_left, take_left]
  -- no run from the split on, one, or one and the run it may be joined with
  rcases r with _ | ⟨x, _ | ⟨y, r⟩⟩
  · grind
  · grind
  · grind

theorem remove_spec (h : Tidy rs) (seq : ℤ) : Tidy (rs.remove seq) ∧ ∀ n, Has (rs.remove seq) n ↔ n ≠ seq ∧ Has rs n := by
  obtain ⟨l, r, rfl, hat, hl, hr⟩ := at_spec h seq
  simp only [SeqRuns.remove, hat, drop_left, take_left]
  have hbefore : ¬ Has l seq := by grind [Has]
  cases r with
  | nil => grind
  | cons x r =>
    have hx := tidy_cons.1 (tidy_append.1 h).2.1
    have hafter : ¬ Has r seq := by grind [Has]
    dsimp only
    split_ifs
    · grind
    · grind
    · rw [int64_eq (by omega) (by grind)]
      grind
    · rw [int64_eq (by grind) (by omega)]
      grind
    · rw [int64_eq (by grind) (by grind), int64_eq (by grind) (by grind)]
      grind

/-! ## Runs of adds and removes -/

/-- neither extreme of the type is added -/
def Op.Inner : Op → Prop
  | .add seq => -2 ^ 63 < seq ∧ seq < 2 ^ 63 - 1
  | .remove _ => True

theorem step_spec {op : Op} {s : Finset ℤ} (hop : op.Inner) (h : Tidy rs ∧ ∀ n, Has rs n ↔ n ∈ s) :
    Tidy (step rs op) ∧ ∀ n, Has (step rs op) n ↔ n ∈ op.apply s := by
  cases op with
  | add seq =>
    obtain ⟨htidy, hhas⟩ := add_spec h.1 hop.1 hop.2
    exact ⟨htidy, fun n => by rw [step, hhas, h.2, Op.apply, Finset.mem_insert]⟩
  | remove seq =>
    obtain ⟨htidy, hhas⟩ := remove_spec h.1 seq
    exact ⟨htidy, fun n => by rw [step, hhas, h.2, Op.apply, Finset.mem_erase]⟩

/-- **Runs are a set.** When neither extreme is added, the runs contain a number exactly when it was added and not removed
since, and they stay sorted, disjoint and non-adjacent. -/
theorem runs_are_a_set (ops : List Op) (hops : ∀ op ∈ ops, op.Inner) :
    Tidy (Machine.run step [] ops) ∧ ∀ n, (Machine.run step [] ops).contains n ↔ n ∈ ops.foldl Op.apply ∅ := by
  have hrun : Tidy (Machine.run step [] ops) ∧ ∀ n, Has (Machine.run step [] ops) n ↔ n ∈ ops.foldl Op.apply ∅ := by
    induction ops using List.reverseRecOn with
    | nil => exact ⟨tidy_nil, by simp [Has]⟩
    | append_singleton ops op ih =>
      rw [Machine.run_append, foldl_append]
      exact step_spec (hops op (by simp)) (ih fun o ho => hops o (mem_append_left _ ho))
  exact ⟨hrun.1, fun n => (contains_iff hrun.1 n).trans (hrun.2 n)⟩

theorem runs_are_a_set_joined : (Machine.run step [] [.add 3, .add 5, .add 4, .remove 3]).contains 5 :=
  ((runs_are_a_set _ (by simp [Op.Inner])).2 5).2 (by decide)

/-- **The extremes.** The least number is put behind a greater one, the greatest before the run it touches; what was added is
then not found. -/
theorem extremes_break_runs :
    (Machine.run step [] [.add 5, .add (-2 ^ 63)]).contains (-2 ^ 63) = false ∧
      (Machine.run step [] [.add (2 ^ 63 - 2), .add (2 ^ 63 - 1)]).contains (2 ^ 63 - 2) = false := by
  decide +kernel

end Kdb.SegmentState
