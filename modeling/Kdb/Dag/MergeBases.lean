/-
Merge bases (`dag/merge_bases.go`): the nearest common ancestors of two sets of commits, found in three ways.

With generation numbers a walk goes down from both sets at once, highest generation first; a commit carries which sides
reach it, one that both reach is a candidate and everything below it is stale, and the walk ends when only stale commits are
queued. Without numbers the ancestor closures are compared. A finder that is asked many times numbers the commits itself and
keeps the numbers. In each case a second walk drops the candidates below other candidates.

- `merge_bases_nearest`: all three return exactly the nearest common ancestors, in hash order and each once.
- `mergeBases_comm`: so two finders agree on a pair, from whichever side each is asked.

`gen` is the function the walks read generations with. Reading may extend a memo, so it takes and returns one. The count of
steps (`mergeBaseSteps`) is left out, and a generation is a natural number.
-/
import Kdb.Dag.Generations

namespace Kdb.Ancestry

open Function (forall_update_iff update update_of_ne update_self)
open List

open Kdb.Machine RankedGraph

variable {H : Type} [LinearOrder H] {σ : Type}

/-! ## Painting down -/

/-- the flags `paintA`, `paintB`, `paintStale` -/
structure Paint where
  a : Bool := false
  b : Bool := false
  stale : Bool := false
  deriving DecidableEq

def Paint.union (f g : Paint) : Paint := ⟨f.a || g.a, f.b || g.b, f.stale || g.stale⟩

structure GenItem (H : Type) where
  hash : H
  gen : ℕ

/-- `genQueue.Less`, between the items of a queue that holds a hash once -/
def GenItem.first (x y : GenItem H) : Prop := y.gen < x.gen ∨ x.gen = y.gen ∧ y.hash ≤ x.hash

instance : DecidableRel (GenItem.first (H := H)) := fun _ _ => inferInstanceAs (Decidable (_ ∨ _ ∧ _))

/-- the variables of the walk: `queue` is the heap in the order it pops, `live` the number of queued commits not stale -/
structure Painting (H σ : Type) where
  flags : H → Paint := fun _ => {}
  queued : H → Bool := fun _ => false
  queue : List (GenItem H) := []
  live : ℤ := 0
  out : List H := []
  gens : σ

variable (gen : σ → H → ℕ × σ) (G : RankedGraph H)

namespace Painting

def paint (f : Paint) (st : Painting H σ) (h : H) : Painting H σ :=
  let old := st.flags h
  let now := old.union f
  if now = old then st
  else if st.queued h then
    { st with
      flags := update st.flags h now
      live := if !old.stale && now.stale then st.live - 1 else st.live }
  else
    let (v, gens) := gen st.gens h
    { st with
      flags := update st.flags h now
      queued := update st.queued h true
      queue := st.queue.orderedInsert GenItem.first ⟨h, v⟩
      live := if now.stale then st.live else st.live + 1
      gens }

/-- off the queue, and what that makes of the commit: a stale one passes its flags on, one that both sides reach becomes a
candidate -/
def pop (st : Painting H σ) (h : H) (queue : List (GenItem H)) : Painting H σ :=
  let st := { st with queue, queued := update st.queued h false }
  let f := st.flags h
  if f.stale then st
  else if f.a && f.b then
    { st with live := st.live - 1, out := st.out ++ [h], flags := update st.flags h { f with stale := true } }
  else { st with live := st.live - 1 }

/-- the body of the loop -/
def visit (gen : σ → H → ℕ × σ) (st : Painting H σ) (h : H) (queue : List (GenItem H)) : Painting H σ :=
  let st := st.pop h queue
  (G.parents h).foldl (paint gen (st.flags h)) st

def loop (G : RankedGraph H) (gen : σ → H → ℕ × σ) : ℕ → Painting H σ → Painting H σ
  | 0, st => st
  | n + 1, st =>
    match st.queue with
    | [] => st
    | it :: queue => if 0 < st.live then loop G gen n (st.visit G gen it.hash queue) else st

/-- both sets painted, nothing popped -/
def start (as bs : List H) (gens : σ) : Painting H σ :=
  bs.foldl (paint gen { b := true }) (as.foldl (paint gen { a := true }) { gens })

end Painting

/-- `paintDownToCommonLocked`. A commit is queued once for each flag it gains, at most. -/
def paintDownToCommon (G : RankedGraph H) (gen : σ → H → ℕ × σ) (as bs : List H) (gens : σ) : List H × σ :=
  let st := Painting.loop G gen (3 * (G.explore fifo (as ++ bs)).length) (Painting.start gen as bs gens)
  (st.out, st.gens)

/-! ## Comparing closures -/

/-- `commonByClosureLocked`: the walk from `bs` stops at the first commits of `setA` on each path -/
def commonByClosure (as bs : List H) : List H :=
  let setA := as.flatMap fun a => G.explore fifo [a]
  (((G.cut (· ∈ setA)).explore fifo bs).reverse).filter (· ∈ setA)

/-! ## Dropping the candidates below others -/

/-- the lowest generation of the candidates -/
def lowest (h : H) (hs : List H) (gens : σ) : ℕ × σ :=
  hs.foldl (fun (floor, gens) h =>
    let (v, gens) := gen gens h
    (if v < floor then v else floor, gens)) (gen gens h)

/-- the walk down from the parents of the candidates: what it visits -/
def descend (G : RankedGraph H) (gen : σ → H → ℕ × σ) (floor : ℕ) : ℕ → List H → List H → σ → List H × σ
  | 0, visited, _, gens => (visited, gens)
  | _ + 1, visited, [], gens => (visited, gens)
  | n + 1, visited, h :: stack, gens =>
    if h ∈ visited then descend G gen floor n visited stack gens
    else
      let (v, gens) := gen gens h
      descend G gen floor n (h :: visited) (if v ≤ floor then stack else lifo.enqueue (G.parents h) stack) gens

/-- what the walk down from the candidates' parents visits; without `gen` it goes all the way down -/
def visitBelow (G : RankedGraph H) (gen : Option (σ → H → ℕ × σ)) (h : H) (hs : List H) (gens : σ) : List H × σ :=
  let stack := ((h :: hs).flatMap G.parents).reverse
  match gen with
  | none => (G.explore lifo stack, gens)
  | some gen =>
    let (floor, gens) := lowest gen h hs gens
    descend G gen floor (G.paths stack) [] stack gens

def removeRedundant (G : RankedGraph H) (gen : Option (σ → H → ℕ × σ)) (cands : List H) (gens : σ) : List H × σ :=
  match cands.reverse.dedup.reverse with
  | [] => ([], gens)
  | [h] => ([h], gens)
  | h :: hs =>
    let (visited, gens) := visitBelow G gen h hs gens
    let below := visited.filter (· ∈ h :: hs)
    ((h :: hs).filter (· ∉ below), gens)

/-! ## The three searches -/

def sortHashes (hs : List H) : List H := hs.insertionSort (· ≤ ·)

variable (L : RankedGraph H)

/-- reading the numbers of the graph itself -/
def Graph.reads (g : Graph H) : Unit → H → ℕ × Unit := fun _ h => (g.generation h, ())

/-- the search with a way to read generations -/
def searchBases (G : RankedGraph H) (gen : σ → H → ℕ × σ) (as bs : List H) (gens : σ) : List H × σ :=
  let (cands, gens) := paintDownToCommon G gen as bs gens
  let (out, gens) := removeRedundant G (some gen) cands gens
  (sortHashes out, gens)

/-- `MergeBases`, with or without `AncestryPruning` -/
def Graph.mergeBases (g : Graph H) (ancestryPruning : Bool) (as bs : List H) : List H :=
  if ancestryPruning then
    let g := g.ensureGenerations L
    (searchBases (g.walks L) g.reads as bs ()).1
  else sortHashes (removeRedundant (g.walks L) none (commonByClosure (g.walks L) as bs) ()).1

/-- `MergeBaseFinder`: a graph, and the numbers it lacks as far as they are known -/
structure MergeBaseFinder (H : Type) where
  d : Graph H
  gen : AList fun _ : H => ℕ := ∅

/-- `MergeBaseFinder.generationLocked`, over the numbers known so far -/
def finderGeneration (gen : AList fun _ : H => ℕ) (h : H) : ℕ × AList fun _ : H => ℕ :=
  match gen.lookup h with
  | some v => (v, gen)
  | none =>
    let gen := G.settle (fun _ parents => parents.foldl max 0 + 1) gen h
    ((gen.lookup h).getD 0, gen)

def MergeBaseFinder.mergeBases (f : MergeBaseFinder H) (ancestryPruning : Bool) (as bs : List H) :
    List H × MergeBaseFinder H :=
  if ancestryPruning then
    let d := f.d.ensureGenerations L
    ((searchBases (d.walks L) d.reads as bs ()).1, { f with d })
  else
    let (out, gen) := searchBases (f.d.walks L) (finderGeneration (f.d.walks L)) as bs f.gen
    (out, { f with gen })

def MergeBaseFinder.after (f : MergeBaseFinder H) (ancestryPruning : Bool) (calls : List (List H × List H)) :
    MergeBaseFinder H :=
  run (fun f c => (f.mergeBases L ancestryPruning c.1 c.2).2) f calls

/-! ## Reading generations -/

/-- `gen` reads `number`, from any memo that keeps `J` -/
structure Reads (J : σ → Prop) (number : H → ℕ) : Prop where
  value : ∀ s h, J s → (gen s h).1 = number h
  keeps : ∀ s h, J s → J (gen s h).2

variable {L} {g : Graph H} {G : RankedGraph H} {gen : σ → H → ℕ × σ} {J : σ → Prop} {number : H → ℕ}
  {as bs done : List H} {st : Painting H σ} {f : Paint} {h p : H}

theorem Graph.reads_generation (g : Graph H) : Reads g.reads (fun _ => True) g.generation :=
  ⟨fun _ _ _ => rfl, fun _ _ _ => trivial⟩

def finderNumber (G : RankedGraph H) : H → ℕ := G.number fun _ parents => parents.foldl max 0 + 1

omit [LinearOrder H] in
theorem finderNumber_lt (hp : p ∈ G.parents h) : finderNumber G p < finderNumber G h := by
  rw [finderNumber, number_eq h]
  exact Nat.lt_succ_of_le (le_foldl_max (.inr (mem_map_of_mem hp)))

theorem finderGeneration_reads (G : RankedGraph H) :
    Reads (finderGeneration G) (G.Numbered fun _ parents => parents.foldl max 0 + 1) (finderNumber G) := by
  constructor
  · intro gen h hgen
    obtain ⟨hnum, -, -, hmem⟩ := settle_spec hgen h
    unfold finderGeneration
    split
    · rename_i v hv
      exact hgen h v hv
    · obtain ⟨v, hv⟩ := Option.isSome_iff_exists.1 (AList.lookup_isSome.2 hmem)
      simp only [hv]
      exact hnum h v hv
  · intro gen h hgen
    unfold finderGeneration
    split
    · exact hgen
    · exact (settle_spec hgen h).1

/-! ## What a paint says -/

/-- every flag of `f` is a flag of `g` -/
structure Paint.Le (f g : Paint) : Prop where
  a : f.a = true → g.a = true
  b : f.b = true → g.b = true
  stale : f.stale = true → g.stale = true

theorem Paint.Le.trans {g k : Paint} (h₁ : f.Le g) (h₂ : g.Le k) : f.Le k :=
  ⟨fun h => h₂.a (h₁.a h), fun h => h₂.b (h₁.b h), fun h => h₂.stale (h₁.stale h)⟩

theorem Paint.le_union_left (f g : Paint) : f.Le (f.union g) := by
  constructor <;> simp +contextual [Paint.union]

variable (G as bs) in
/-- what the flags of a commit are evidence of; a stale one is a candidate or properly below a common ancestor -/
structure Means (out : List H) (f : Paint) (h : H) : Prop where
  a : f.a = true → ∃ a ∈ as, G.Below h a
  b : f.b = true → ∃ b ∈ bs, G.Below h b
  stale : f.stale = true → h ∈ out ∨ ∃ c, G.Common as bs c ∧ ∃ p ∈ G.parents c, G.Below h p

variable {out : List H} {queue : List (GenItem H)} {it : GenItem H} {gens : σ} {reader : Option (σ → H → ℕ × σ)}

omit [LinearOrder H] in
theorem Means.union {g : Paint} (hf : Means G as bs out f h) (hg : Means G as bs out g h) :
    Means G as bs out (f.union g) h := by
  exact ⟨fun he => (Bool.or_eq_true _ _ ▸ he).elim hf.a hg.a, fun he => (Bool.or_eq_true _ _ ▸ he).elim hf.b hg.b,
    fun he => (Bool.or_eq_true _ _ ▸ he).elim hf.stale hg.stale⟩

omit [LinearOrder H] in
theorem Means.mono {out' : List H} (hf : Means G as bs out f h) (hsub : ∀ x ∈ out, x ∈ out') : Means G as bs out' f h :=
  ⟨hf.a, hf.b, fun hs => (hf.stale hs).imp_left (hsub h)⟩

omit [LinearOrder H] in
theorem Means.parent (hf : Means G as bs out f h) (hout : ∀ x ∈ out, G.Common as bs x) (hp : p ∈ G.parents h) :
    Means G as bs out f p := by
  have hb : G.Below p h := .parent hp
  refine ⟨fun ha => ?_, fun hb' => ?_, fun hs => .inr ?_⟩
  · obtain ⟨a, ha, hha⟩ := hf.a ha
    exact ⟨a, ha, hb.trans hha⟩
  · obtain ⟨b, hb', hhb⟩ := hf.b hb'
    exact ⟨b, hb', hb.trans hhb⟩
  · rcases hf.stale hs with hmem | ⟨c, hc, q, hq, hhq⟩
    · exact ⟨h, hout h hmem, p, hp, .refl⟩
    · exact ⟨c, hc, q, hq, hb.trans hhq⟩

/-! ## The queue -/

/-- the queued commits -/
def Painting.hashes (st : Painting H σ) : List H := st.queue.map GenItem.hash

/-- the number of queued commits that are not stale -/
def liveCount (flags : H → Paint) (queue : List (GenItem H)) : ℕ := queue.countP fun it => !(flags it.hash).stale

variable (G as bs J number) in
/-- the queue is in order, holds a commit once, and is counted right; and every flag is true -/
structure Painted (st : Painting H σ) : Prop where
  gens : J st.gens
  item : ∀ it ∈ st.queue, it.gen = number it.hash
  sorted : st.queue.Pairwise GenItem.first
  nodup : st.hashes.Nodup
  queued : ∀ h, st.queued h = true ↔ h ∈ st.hashes
  live : st.live = liveCount st.flags st.queue
  means : ∀ h, Means G as bs st.out (st.flags h) h
  out : ∀ h ∈ st.out, G.Common as bs h

instance : Std.Total (GenItem.first (H := H)) where
  total x y := by
    unfold GenItem.first
    rcases lt_trichotomy x.gen y.gen with h | h | h
    · exact .inr (.inl h)
    · rcases le_total x.hash y.hash with h' | h'
      · exact .inr (.inr ⟨h.symm, h'⟩)
      · exact .inl (.inr ⟨h, h'⟩)
    · exact .inl (.inl h)

instance : IsTrans (GenItem H) GenItem.first where
  trans x y z := by
    unfold GenItem.first
    intro hxy hyz
    rcases hxy with hxy | ⟨hxy, hxy'⟩ <;> rcases hyz with hyz | ⟨hyz, hyz'⟩
    · exact .inl (hyz.trans hxy)
    · exact .inl (hyz ▸ hxy)
    · exact .inl (hxy ▸ hyz)
    · exact .inr ⟨hxy.trans hyz, hyz'.trans hxy'⟩

theorem GenItem.first.gen_le {x y : GenItem H} (hxy : x.first y) : y.gen ≤ x.gen := by
  rcases hxy with hxy | ⟨hxy, -⟩
  · exact hxy.le
  · exact hxy.ge

/-- what painting some commits with `f` does -/
structure Paints (f : Paint) (ps : List H) (st st' : Painting H σ) : Prop where
  flags : ∀ x, st'.flags x = if x ∈ ps then (st.flags x).union f else st.flags x
  keeps : ∀ x ∈ st.hashes, x ∈ st'.hashes
  adds : ∀ x ∈ st'.hashes, x ∈ st.hashes ∨ x ∈ ps
  changed : ∀ x, st'.flags x ≠ st.flags x → x ∈ st'.hashes
  out : st'.out = st.out

theorem liveCount_of_notMem (flags : H → Paint) (now : Paint) (hmem : h ∉ queue.map GenItem.hash) :
    liveCount (update flags h now) queue = liveCount flags queue := by
  apply countP_congr
  intro it hit
  have hne : it.hash ≠ h := fun he => hmem (he ▸ mem_map_of_mem hit)
  rw [update_of_ne hne]

/-- the count when the flags of one queued commit grow -/
theorem liveCount_of_mem {flags : H → Paint} {now : Paint} (hnodup : (queue.map GenItem.hash).Nodup)
    (hmem : h ∈ queue.map GenItem.hash) (hgrow : (flags h).stale = true → now.stale = true) :
    (liveCount (update flags h now) queue : ℤ) =
      if !(flags h).stale && now.stale then (liveCount flags queue : ℤ) - 1 else liveCount flags queue := by
  induction queue with
  | nil => cases hmem
  | cons it queue ih =>
    rw [map_cons, nodup_cons] at hnodup
    by_cases hit : it.hash = h
    · subst hit
      have hrest := liveCount_of_notMem flags now hnodup.1
      simp only [liveCount] at hrest ⊢
      cases hs : (flags it.hash).stale <;> cases hn : now.stale <;> simp_all
    · have hrest := ih hnodup.2 ((mem_cons.1 hmem).resolve_left (Ne.symm hit))
      simp only [liveCount] at hrest ⊢
      rw [countP_cons, countP_cons, update_of_ne hit]
      push_cast
      rw [hrest]
      split <;> omega

/-- **Painting one commit.** -/
theorem paint_spec (hr : Reads gen J number) (hst : Painted G J number as bs st) (hf : Means G as bs st.out f h) :
    Painted G J number as bs (st.paint gen f h) ∧ Paints f [h] st (st.paint gen f h) := by
  have hmeans : ∀ x, Means G as bs st.out (update st.flags h ((st.flags h).union f) x) x :=
    (forall_update_iff _ fun x f => Means G as bs st.out f x).2 ⟨(hst.means h).union hf, fun x _ => hst.means x⟩
  have hchanged : ∀ x, update st.flags h ((st.flags h).union f) x ≠ st.flags x → x = h := fun x hx =>
    by_contra fun hne => hx (update_of_ne hne _ _)
  have hflags : ∀ x, update st.flags h ((st.flags h).union f) x =
      if x ∈ [h] then (st.flags x).union f else st.flags x := by
    intro x
    by_cases hx : x = h
    · subst hx
      simp
    · simp [hx]
  unfold Painting.paint
  dsimp only
  split
  · rename_i heq
    refine ⟨hst, fun x => ?_, fun _ hx => hx, fun _ hx => .inl hx, fun x hx => absurd rfl hx, rfl⟩
    rw [← hflags x, heq, Function.update_eq_self]
  split
  · -- already queued: only the flags and the count change
    rename_i hq
    have hmem := (hst.queued h).1 hq
    refine ⟨⟨hst.gens, hst.item, hst.sorted, hst.nodup, hst.queued, ?_, hmeans, hst.out⟩,
      hflags, fun _ hx => hx, fun _ hx => .inl hx, fun x hx => hchanged x hx ▸ hmem, rfl⟩
    rw [liveCount_of_mem hst.nodup hmem (Paint.le_union_left (st.flags h) f).stale, hst.live]
  · rename_i hq
    have hnot : h ∉ st.hashes := fun hmem => hq ((hst.queued h).2 hmem)
    have hv := hr.value st.gens h hst.gens
    have hperm : (st.queue.orderedInsert GenItem.first ⟨h, (gen st.gens h).1⟩).Perm
        (⟨h, (gen st.gens h).1⟩ :: st.queue) := perm_orderedInsert _ _ _
    have hhashes : ((st.queue.orderedInsert GenItem.first ⟨h, (gen st.gens h).1⟩).map GenItem.hash).Perm
        (h :: st.hashes) := hperm.map _
    refine ⟨⟨hr.keeps _ h hst.gens, ?_, hst.sorted.orderedInsert _ _, ?_, ?_, ?_, hmeans, hst.out⟩,
      hflags, ?_, ?_, fun x hx => hchanged x hx ▸ hhashes.mem_iff.2 mem_cons_self, rfl⟩
    · intro it hit
      rcases mem_cons.1 (hperm.mem_iff.1 hit) with rfl | hit
      · exact hv
      · exact hst.item it hit
    · exact hhashes.nodup_iff.2 (nodup_cons.2 ⟨hnot, hst.nodup⟩)
    · intro x
      dsimp only
      rw [Painting.hashes, hhashes.mem_iff]
      by_cases hx : x = h
      · subst hx
        simp
      · rw [update_of_ne hx, hst.queued x]
        simp [hx]
    · have hrest := liveCount_of_notMem st.flags ((st.flags h).union f) hnot
      have hlive := hst.live
      simp only [liveCount] at hrest hlive ⊢
      rw [hperm.countP_eq, countP_cons, hrest, hlive, update_self]
      cases hs : ((st.flags h).union f).stale <;> simp
    · intro x hx
      exact hhashes.mem_iff.2 (.tail _ hx)
    · intro x hx
      rcases mem_cons.1 (hhashes.mem_iff.1 hx) with rfl | hx
      · exact .inr (mem_singleton.2 rfl)
      · exact .inl hx

/-- painting a list of commits -/
theorem paints_spec (hr : Reads gen J number) {ps : List H} (hst : Painted G J number as bs st)
    (hf : ∀ p ∈ ps, Means G as bs st.out f p) : Painted G J number as bs (ps.foldl (Painting.paint gen f) st) ∧
      Paints f ps st (ps.foldl (Painting.paint gen f) st) := by
  induction ps generalizing st with
  | nil => exact ⟨hst, fun x => by simp, fun _ hx => hx, fun _ hx => .inl hx, fun x hx => absurd rfl hx, rfl⟩
  | cons p ps ih =>
    obtain ⟨hst₁, h₁⟩ := paint_spec hr hst (hf p mem_cons_self)
    obtain ⟨hst₂, h₂⟩ := ih hst₁ fun q hq => h₁.out ▸ hf q (.tail _ hq)
    refine ⟨hst₂, fun x => ?_, fun x hx => h₂.keeps x (h₁.keeps x hx), fun x hx => ?_, fun x hx => ?_, ?_⟩
    · rw [foldl_cons, h₂.flags x, h₁.flags x]
      by_cases hxp : x = p <;> by_cases hxps : x ∈ ps <;> simp [hxp, Paint.union]
    · rcases h₂.adds x hx with hx | hx
      · rcases h₁.adds x hx with hx | hx
        · exact .inl hx
        · exact .inr (mem_singleton.1 hx ▸ .head _)
      · exact .inr (.tail _ hx)
    · by_cases hx₁ : (st.paint gen f p).flags x = st.flags x
      · exact h₂.changed x (hx₁ ▸ hx)
      · exact h₂.keeps x (h₁.changed x hx₁)
    · exact h₂.out.trans h₁.out

/-! ## The walk -/

variable (G J number as bs) in
/-- the walk with the commits popped so far: they are apart from the queue and above it, have handed their flags on, and
those both sides reach are stale -/
structure Walked (done : List H) (st : Painting H σ) : Prop where
  painted : Painted G J number as bs st
  rootsA : ∀ a ∈ as, (st.flags a).a = true
  rootsB : ∀ b ∈ bs, (st.flags b).b = true
  seen : ∀ h, st.flags h ≠ {} → h ∈ st.hashes ∨ h ∈ done
  below : ∀ h, h ∈ st.hashes ∨ h ∈ done → ∃ x ∈ as ++ bs, G.Below h x
  apart : ∀ x ∈ done, x ∉ st.hashes
  nodup : done.Nodup
  older : ∀ x ∈ done, ∀ y ∈ st.hashes, number y ≤ number x
  passed : ∀ x ∈ done, ∀ p ∈ G.parents x, (st.flags x).Le (st.flags p)
  settled : ∀ x ∈ done, (st.flags x).a = true → (st.flags x).b = true → (st.flags x).stale = true

/-- what popping the first commit leaves: its flags grow by `stale` if both sides reach it, and nothing else does -/
theorem pop_spec (hst : Painted G J number as bs st) (hq : st.queue = it :: queue) :
    Painted G J number as bs (st.pop it.hash queue) ∧ (∀ x, x ≠ it.hash → (st.pop it.hash queue).flags x = st.flags x) ∧
      (st.flags it.hash).Le ((st.pop it.hash queue).flags it.hash) ∧
      (((st.pop it.hash queue).flags it.hash).a = true → ((st.pop it.hash queue).flags it.hash).b = true →
        ((st.pop it.hash queue).flags it.hash).stale = true) ∧ (st.pop it.hash queue).queue = queue := by
  have hhashes : st.hashes = it.hash :: queue.map GenItem.hash := by rw [Painting.hashes, hq, map_cons]
  have hnodup := hhashes ▸ hst.nodup
  obtain ⟨hnot, hnodup⟩ := nodup_cons.1 hnodup
  have hitem : ∀ x ∈ queue, x.gen = number x.hash := fun x hx => hst.item x (hq ▸ .tail _ hx)
  have hsorted : queue.Pairwise GenItem.first := (pairwise_cons.1 (hq ▸ hst.sorted)).2
  have hqueued : ∀ x, update st.queued it.hash false x = true ↔ x ∈ queue.map GenItem.hash := by
    intro x
    by_cases hx : x = it.hash
    · subst hx
      simpa using hnot
    · rw [update_of_ne hx, hst.queued x, hhashes]
      simp [hx]
  have hlive : st.live = (if (st.flags it.hash).stale then 0 else 1) + liveCount st.flags queue := by
    rw [hst.live, hq, liveCount, countP_cons, liveCount]
    cases hs : (st.flags it.hash).stale <;> simp [add_comm]
  unfold Painting.pop
  dsimp only
  split
  · rename_i hs
    refine ⟨⟨hst.gens, hitem, hsorted, hnodup, hqueued, ?_, hst.means, hst.out⟩, fun _ _ => rfl,
      ⟨id, id, id⟩, fun _ _ => hs, rfl⟩
    rw [hlive, if_pos hs, zero_add]
  rename_i hs
  split_ifs with hab
  · rw [Bool.and_eq_true] at hab
    have hcommon : G.Common as bs it.hash := ⟨(hst.means it.hash).a hab.1, (hst.means it.hash).b hab.2⟩
    refine ⟨⟨hst.gens, hitem, hsorted, hnodup, hqueued, ?_, ?_, fun x hx => ?_⟩,
      fun x hx => update_of_ne hx _ _, ?_, fun _ _ => ?_, rfl⟩
    · dsimp only
      rw [liveCount_of_notMem _ _ hnot, hlive, if_neg hs]
      omega
    · exact (forall_update_iff _ fun x f => Means G as bs (st.out ++ [it.hash]) f x).2
        ⟨⟨(hst.means it.hash).a, (hst.means it.hash).b, fun _ => .inl (by simp)⟩,
          fun x _ => (hst.means x).mono fun y hy => mem_append_left _ hy⟩
    · rcases mem_append.1 hx with hx | hx
      · exact hst.out x hx
      · exact mem_singleton.1 hx ▸ hcommon
    · dsimp only
      rw [update_self]
      exact ⟨id, id, fun _ => rfl⟩
    · dsimp only
      rw [update_self]
  · refine ⟨⟨hst.gens, hitem, hsorted, hnodup, hqueued, ?_, hst.means, hst.out⟩, fun _ _ => rfl,
      ⟨id, id, id⟩, fun ha hb => ?_, rfl⟩
    · dsimp only
      rw [hlive, if_neg hs]
      omega
    · exact absurd (by rw [Bool.and_eq_true]; exact ⟨ha, hb⟩) hab

/-- **One pop.** -/
theorem Walked.visit (hr : Reads gen J number) (hlt : ∀ h, ∀ p ∈ G.parents h, number p < number h)
    (hw : Walked G J number as bs done st) (hq : st.queue = it :: queue) :
    Walked G J number as bs (it.hash :: done) (st.visit G gen it.hash queue) := by
  obtain ⟨hpop, hother, hgrow, hsettled, hqueue⟩ := pop_spec hw.painted hq
  set h := it.hash with hh
  set st₁ := st.pop h queue with hst₁
  have hhashes : st.hashes = h :: st₁.hashes := by rw [Painting.hashes, Painting.hashes, hq, map_cons, hqueue]
  have hmem : h ∈ st.hashes := hhashes ▸ (.head _)
  obtain ⟨hpainted, hp⟩ : Painted G J number as bs (st.visit G gen h queue) ∧
      Paints (st₁.flags h) (G.parents h) st₁ (st.visit G gen h queue) :=
    paints_spec hr hpop fun p hp => (hpop.means h).parent hpop.out hp
  set st₂ := st.visit G gen h queue
  have hnot : h ∉ st₁.hashes := (nodup_cons.1 (hhashes ▸ hw.painted.nodup)).1
  -- the parents are below everything popped
  have hself : h ∉ G.parents h := fun hmem => lt_irrefl _ (hlt h h hmem)
  have hle : ∀ x ∈ done, number h ≤ number x := fun x hx => hw.older x hx h hmem
  have hfresh : ∀ x ∈ done, x ∉ G.parents h := fun x hx hp => absurd (hlt h x hp) (by have := hle x hx; omega)
  have hne : ∀ x ∈ done, x ≠ h := fun x hx heq => hw.apart x hx (heq ▸ hmem)
  have hflags : ∀ x, x ∉ G.parents h → st₂.flags x = st₁.flags x := by
    intro x hx
    rw [hp.flags x, if_neg hx]
  have hmono : ∀ x, (st.flags x).Le (st₂.flags x) := by
    intro x
    have h₁ : (st.flags x).Le (st₁.flags x) := by
      by_cases hx : x = h
      · exact hx ▸ hgrow
      · rw [hother x hx]
        exact ⟨id, id, id⟩
    refine h₁.trans ?_
    rw [hp.flags x]
    split
    · exact Paint.le_union_left _ _
    · exact ⟨id, id, id⟩
  have hadds : ∀ y ∈ st₂.hashes, y ∈ st₁.hashes ∨ y ∈ G.parents h := hp.adds
  have hlower : ∀ y ∈ st₂.hashes, number y ≤ number h := by
    intro y hy
    rcases hadds y hy with hy | hy
    · obtain ⟨x, hx, rfl⟩ := mem_map.1 hy
      have hfirst := (pairwise_cons.1 (hq ▸ hw.painted.sorted)).1 x (hqueue ▸ hx)
      have hgen := hfirst.gen_le
      rwa [hpop.item x hx, hw.painted.item it (hq ▸ .head _)] at hgen
    · exact (hlt h y hy).le
  refine ⟨hpainted, fun a ha => (hmono a).a (hw.rootsA a ha), fun b hb => (hmono b).b (hw.rootsB b hb), ?_, ?_, ?_,
    nodup_cons.2 ⟨fun hmem => hne h hmem rfl, hw.nodup⟩, ?_, ?_, ?_⟩
  · intro x hx
    by_cases hch : st₂.flags x = st₁.flags x
    · by_cases hxh : x = h
      · exact .inr (hxh ▸ .head _)
      · rw [hch, hother x hxh] at hx
        rcases hw.seen x hx with hx | hx
        · rw [hhashes, mem_cons] at hx
          exact .inl (hp.keeps x (hx.resolve_left hxh))
        · exact .inr (.tail _ hx)
    · exact .inl (hp.changed x hch)
  · intro x hx
    obtain ⟨r, hr, hbelow⟩ := hw.below h (.inl hmem)
    rcases hx with hx | hx
    · rcases hadds x hx with hx | hx
      · exact hw.below x (.inl (hhashes ▸ .tail _ hx))
      · exact ⟨r, hr, (Below.parent hx).trans hbelow⟩
    · rcases mem_cons.1 hx with rfl | hx
      · exact ⟨r, hr, hbelow⟩
      · exact hw.below x (.inr hx)
  · intro x hx hmem₂
    rcases mem_cons.1 hx with rfl | hx
    · rcases hadds _ hmem₂ with hmem₂ | hmem₂
      · exact hnot hmem₂
      · exact hself hmem₂
    · rcases hadds _ hmem₂ with hmem₂ | hmem₂
      · exact hw.apart x hx (hhashes ▸ .tail _ hmem₂)
      · exact hfresh x hx hmem₂
  · exact forall_mem_cons.2 ⟨hlower, fun x hx y hy => (hlower y hy).trans (hle x hx)⟩
  · intro x hx p hpar
    rcases mem_cons.1 hx with rfl | hx
    · rw [hflags _ hself, hp.flags p, if_pos hpar]
      constructor <;> simp +contextual [Paint.union]
    · rw [hflags x (hfresh x hx), hother x (hne x hx)]
      exact (hw.passed x hx p hpar).trans (hmono p)
  · intro x hx
    rcases mem_cons.1 hx with rfl | hx
    · rw [hflags _ hself]
      exact hsettled
    · rw [hflags x (hfresh x hx), hother x (hne x hx)]
      exact hw.settled x hx

/-- **The loop.** It ends with no live commit in the queue. -/
theorem Walked.loop (hr : Reads gen J number) (hlt : ∀ h, ∀ p ∈ G.parents h, number p < number h) {n : ℕ}
    (hw : Walked G J number as bs done st) (hn : (G.explore fifo (as ++ bs)).length ≤ n + done.length) :
    ∃ done', Walked G J number as bs done' (Painting.loop G gen n st) ∧ (Painting.loop G gen n st).live ≤ 0 := by
  have hempty : st.queue = [] → st.live ≤ 0 := by
    intro hq
    rw [hw.painted.live, hq]
    exact le_rfl
  induction n generalizing st done with
  | zero =>
    refine ⟨done, hw, hempty ?_⟩
    -- everything reachable has been popped
    cases hq : st.queue with
    | nil => rfl
    | cons it queue =>
      have hmem : it.hash ∈ st.hashes := by rw [Painting.hashes, hq]; exact .head _
      have hsub : it.hash :: done ⊆ G.explore fifo (as ++ bs) := by
        intro x hx
        apply mem_explore.2
        rcases mem_cons.1 hx with rfl | hx
        · exact hw.below _ (.inl hmem)
        · exact hw.below x (.inr hx)
      have hnodup : (it.hash :: done).Nodup := nodup_cons.2 ⟨fun hd => hw.apart _ hd hmem, hw.nodup⟩
      have hlen := (subperm_of_subset hnodup hsub).length_le
      rw [length_cons] at hlen
      omega
  | succ n ih =>
    unfold Painting.loop
    split
    · rename_i hq
      exact ⟨done, hw, hempty hq⟩
    · rename_i it queue hq
      split
      · have hw' := hw.visit hr hlt hq
        refine ih hw' (by rw [length_cons]; omega) fun hq' => ?_
        rw [hw'.painted.live, hq']
        exact le_rfl
      · rename_i hlive
        exact ⟨done, hw, not_lt.1 hlive⟩

/-- with nothing live left, every nearest common ancestor is a candidate -/
theorem Walked.complete (hw : Walked G J number as bs done st) (hlive : st.live ≤ 0) {m : H}
    (hm : G.Nearest as bs m) : m ∈ st.out := by
  -- a commit that is not stale has been popped
  have hdone : ∀ x, st.flags x ≠ {} → (st.flags x).stale = false → x ∈ done := by
    intro x hx hs
    refine (hw.seen x hx).resolve_left fun hmem => ?_
    obtain ⟨it, hit, rfl⟩ := mem_map.1 hmem
    have hpos : 0 < liveCount st.flags st.queue := countP_pos_iff.2 ⟨it, hit, by simp [hs]⟩
    have := hw.painted.live
    omega
  -- above `m` nothing is stale
  have hstale : ∀ x, G.Below m x → x ∉ st.out → (st.flags x).stale = false := by
    intro x hmx hout
    cases hs : (st.flags x).stale with
    | false => rfl
    | true =>
      rcases (hw.painted.means x).stale hs with hx | ⟨c, hc, p, hp, hxp⟩
      · exact absurd hx hout
      · exact absurd (hm.2 c hc (.step hp (hmx.trans hxp))) (below_ne_iff.2 ⟨p, hp, hmx.trans hxp⟩).2
  have hnotOut : ∀ x, G.Below m x → m ≠ x → x ∉ st.out := fun x hmx hne hx => hne (hm.2 x (hw.painted.out x hx) hmx)
  -- a flag comes down every path that leads to `m`
  have hdown : ∀ (flag : Paint → Bool), (∀ f g : Paint, f.Le g → flag f = true → flag g = true) → flag {} = false →
      ∀ r x, flag (st.flags r) = true → G.Below x r → G.Below m x → flag (st.flags x) = true := by
    intro flag hflag hzero r x hr hxr hmx
    induction hxr with
    | refl => exact hr
    | step hp hxp ih =>
      rename_i y p
      apply ih
      have hmy : G.Below m y := (hmx.trans hxp).trans (.parent hp)
      have hne : m ≠ y := (below_ne_iff.2 ⟨p, hp, hmx.trans hxp⟩).2
      have hy : y ∈ done := by
        refine hdone y ?_ (hstale y hmy (hnotOut y hmy hne))
        intro hy
        rw [hy, hzero] at hr
        cases hr
      exact hflag _ _ (hw.passed y hy p hp) hr
  obtain ⟨⟨a, ha, hma⟩, b, hb, hmb⟩ := hm.1
  have hfa : (st.flags m).a = true := hdown Paint.a (fun _ _ hle => hle.a) rfl a m (hw.rootsA a ha) hma .refl
  have hfb : (st.flags m).b = true := hdown Paint.b (fun _ _ hle => hle.b) rfl b m (hw.rootsB b hb) hmb .refl
  by_contra hout
  have hs := hstale m .refl hout
  have hmem : m ∈ done := hdone m (fun he => by rw [he] at hfa; cases hfa) hs
  rw [hw.settled m hmem hfa hfb] at hs
  cases hs

theorem start_walked (hr : Reads gen J number) (hgens : J gens) :
    Walked G J number as bs [] (Painting.start gen as bs gens) := by
  have h₀ : Painted G J number as bs ({ gens } : Painting H σ) := by
    refine ⟨hgens, nofun, .nil, .nil, ?_, rfl, fun h => ⟨nofun, nofun, nofun⟩, nofun⟩
    simp [Painting.hashes]
  obtain ⟨h₁, hp₁⟩ := @paints_spec _ _ _ G gen J number as bs _ { a := true } hr as h₀
    fun a ha => ⟨fun _ => ⟨a, ha, .refl⟩, nofun, nofun⟩
  obtain ⟨h₂, hp₂⟩ := @paints_spec _ _ _ G gen J number as bs _ { b := true } hr bs h₁
    fun b hb => ⟨nofun, fun _ => ⟨b, hb, .refl⟩, nofun⟩
  refine ⟨h₂, ?_, ?_, ?_, ?_, nofun, .nil, nofun, nofun, nofun⟩
  · intro a ha
    rw [Painting.start, hp₂.flags a, hp₁.flags a]
    split <;> simp [Paint.union]
  · intro b hb
    rw [Painting.start, hp₂.flags b, if_pos hb]
    simp [Paint.union]
  · intro h hh
    by_cases hch : (Painting.start gen as bs gens).flags h = (as.foldl (Painting.paint gen { a := true }) { gens }).flags h
    · rw [hch] at hh
      exact .inl (hp₂.keeps h (hp₁.changed h hh))
    · exact .inl (hp₂.changed h hch)
  · intro h hh
    rcases hp₂.adds h (hh.resolve_right not_mem_nil) with hh | hh
    · rcases hp₁.adds h hh with hh | hh
      · cases hh
      · exact ⟨h, mem_append_left _ hh, .refl⟩
    · exact ⟨h, mem_append_right _ hh, .refl⟩

variable (as bs) in
/-- **Candidates by painting.** They lie between the nearest common ancestors and all of them. -/
theorem paintDownToCommon_spec (hr : Reads gen J number) (hlt : ∀ h, ∀ p ∈ G.parents h, number p < number h)
    (hgens : J gens) : (∀ h ∈ (paintDownToCommon G gen as bs gens).1, G.Common as bs h) ∧
      (∀ h, G.Nearest as bs h → h ∈ (paintDownToCommon G gen as bs gens).1) ∧
      J (paintDownToCommon G gen as bs gens).2 := by
  have hstart : Walked G J number as bs [] (Painting.start gen as bs gens) := start_walked hr hgens
  obtain ⟨done, hw, hlive⟩ := hstart.loop hr hlt (n := 3 * (G.explore fifo (as ++ bs)).length)
    (by rw [length_nil]; omega)
  exact ⟨hw.painted.out, fun h hh => hw.complete hlive hh, hw.painted.gens⟩

/-- **Candidates by closures.** -/
theorem commonByClosure_spec (G : RankedGraph H) (as bs : List H) :
    (∀ h ∈ commonByClosure G as bs, G.Common as bs h) ∧ ∀ h, G.Nearest as bs h → h ∈ commonByClosure G as bs := by
  have hsetA : ∀ h, h ∈ (as.flatMap fun a => G.explore fifo [a]) ↔ ∃ a ∈ as, G.Below h a := by
    intro h
    simp only [mem_flatMap, mem_explore, mem_singleton, exists_eq_left]
  have hmem : ∀ h, h ∈ commonByClosure G as bs ↔ (∃ b ∈ bs, (G.cut (· ∈ as.flatMap fun a => G.explore fifo [a])).Below h b) ∧
      ∃ a ∈ as, G.Below h a := by
    intro h
    simp only [commonByClosure, mem_filter, mem_reverse, mem_explore, decide_eq_true_eq, hsetA]
  constructor
  · intro h hh
    obtain ⟨⟨b, hb, hhb⟩, ha⟩ := (hmem h).1 hh
    exact ⟨ha, b, hb, below_of_cut hhb⟩
  · intro m hm
    obtain ⟨ha, b, hb, hmb⟩ := hm.1
    refine (hmem m).2 ⟨⟨b, hb, hmb.cut fun x hmx hne hxb => ?_⟩, ha⟩
    -- a commit above a nearest common ancestor is not common itself
    rw [decide_eq_false_iff_not]
    intro hx
    exact hne (hm.2 x ⟨(hsetA x).1 hx, b, hb, hxb⟩ hmx)

/-! ## Dropping candidates -/

omit [LinearOrder H] in
theorem lowest_spec (hr : Reads gen J number) (h : H) (hs : List H) (hgens : J gens) :
    (∀ x ∈ h :: hs, (lowest gen h hs gens).1 ≤ number x) ∧ J (lowest gen h hs gens).2 := by
  have key : ∀ (hs : List H) (floor : ℕ) (gens : σ), J gens →
      let r := hs.foldl (fun (floor, gens) h =>
        let (v, gens) := gen gens h
        (if v < floor then v else floor, gens)) (floor, gens)
      r.1 ≤ floor ∧ (∀ x ∈ hs, r.1 ≤ number x) ∧ J r.2 := by
    intro hs
    induction hs with
    | nil => exact fun floor gens hgens => ⟨le_rfl, nofun, hgens⟩
    | cons y hs ih =>
      intro floor gens hgens
      have hv := hr.value gens y hgens
      obtain ⟨h1, h2, h3⟩ := ih (if (gen gens y).1 < floor then (gen gens y).1 else floor) _ (hr.keeps gens y hgens)
      have hmin : (if (gen gens y).1 < floor then (gen gens y).1 else floor) ≤ floor ∧
          (if (gen gens y).1 < floor then (gen gens y).1 else floor) ≤ number y := by
        split <;> omega
      refine ⟨h1.trans hmin.1, fun x hx => ?_, h3⟩
      rcases mem_cons.1 hx with rfl | hx
      · exact h1.trans hmin.2
      · exact h2 x hx
  obtain ⟨h1, h2, h3⟩ := key hs (gen gens h).1 (gen gens h).2 (hr.keeps gens h hgens)
  refine ⟨fun x hx => ?_, h3⟩
  rcases mem_cons.1 hx with rfl | hx
  · exact h1.trans_eq (hr.value gens x hgens)
  · exact h2 x hx

/-- the descent is a walk over the graph cut at the floor -/
theorem descend_eq (hr : Reads gen J number) (floor n : ℕ) (visited stack : List H) (hgens : J gens) :
    (descend G gen floor n visited stack gens).1 = (G.cut fun h => number h ≤ floor).exploreFuel lifo n visited stack ∧
      J (descend G gen floor n visited stack gens).2 := by
  induction n generalizing visited stack gens with
  | zero => exact ⟨rfl, hgens⟩
  | succ n ih =>
    cases stack with
    | nil => exact ⟨rfl, hgens⟩
    | cons x stack =>
      unfold descend exploreFuel
      split
      · exact ih visited stack hgens
      · have hv := hr.value gens x hgens
        have hnext : (if (gen gens x).1 ≤ floor then stack else lifo.enqueue (G.parents x) stack) =
            lifo.enqueue ((G.cut fun h => number h ≤ floor).parents x) stack := by
          by_cases hle : number x ≤ floor <;> simp [hv, hle, cut, lifo]
        dsimp only
        rw [hnext]
        exact ih _ _ (hr.keeps gens x hgens)

section

variable (hr : ∀ gen, reader = some gen → Reads gen J number ∧ ∀ h, ∀ p ∈ G.parents h, number p < number h)
include hr

/-- of the candidates, the walk visits those properly below another -/
theorem visitBelow_spec (x : H) (hs : List H) (hgens : J gens) :
    (∀ h ∈ x :: hs, h ∈ (visitBelow G reader x hs gens).1 ↔ ∃ c ∈ x :: hs, G.Below h c ∧ h ≠ c) ∧
      J (visitBelow G reader x hs gens).2 := by
  have hbelow : ∀ h, (∃ p ∈ ((x :: hs).flatMap G.parents).reverse, G.Below h p) ↔ ∃ c ∈ x :: hs, G.Below h c ∧ h ≠ c := by
    intro h
    simp only [mem_reverse, mem_flatMap, below_ne_iff]
    constructor
    · rintro ⟨p, ⟨c, hc, hp⟩, hb⟩
      exact ⟨c, hc, p, hp, hb⟩
    · rintro ⟨c, hc, p, hp, hb⟩
      exact ⟨p, ⟨c, hc, hp⟩, hb⟩
  cases reader with
  | none => exact ⟨fun h _ => mem_explore.trans (hbelow h), hgens⟩
  | some gen =>
    obtain ⟨hr, hlt⟩ := hr gen rfl
    obtain ⟨hfloor, hgens'⟩ := lowest_spec hr x hs hgens
    set floor := (lowest gen x hs gens).1 with hfl
    set stack := ((x :: hs).flatMap G.parents).reverse with hstack
    obtain ⟨hvisited, hgens''⟩ := descend_eq (G := G) hr floor (G.paths stack) [] stack hgens'
    refine ⟨fun h hh => ?_, hgens''⟩
    have hsub : ∀ y, ((G.cut fun h => number h ≤ floor).parents y).Sublist (G.parents y) := by
      intro y
      simp only [cut]
      split
      · exact nil_sublist _
      · exact Sublist.refl _
    have hmono : ∀ z, G.Below h z → number h ≤ number z := by
      intro z hz
      induction hz with
      | refl => exact le_rfl
      | step hp _ ih => exact ih.trans (hlt _ _ hp).le
    rw [← hbelow h]
    calc h ∈ (visitBelow G (some gen) x hs gens).1
        ↔ h ∈ (G.cut fun h => number h ≤ floor).exploreFuel lifo (G.paths stack) [] stack := by rw [← hvisited]; rfl
      _ ↔ ∃ p ∈ stack, (G.cut fun h => number h ≤ floor).Below h p := mem_exploreFuel (paths_le hsub stack)
      _ ↔ ∃ p ∈ stack, G.Below h p := by
        constructor
        · rintro ⟨p, hp, hb⟩
          exact ⟨p, hp, below_of_cut hb⟩
        · rintro ⟨p, hp, hb⟩
          refine ⟨p, hp, hb.cut fun y hhy hne _ => ?_⟩
          -- above a candidate the generations are above the floor
          obtain ⟨q, hq, hhq⟩ := below_ne_iff.1 ⟨hhy, hne⟩
          have hlow := hfloor h hh
          have hstrict := (hmono q hhq).trans_lt (hlt y q hq)
          rw [decide_eq_false_iff_not]
          omega

/-- **Trimming the candidates.** Those properly below another one go; the rest stay, each once. -/
theorem removeRedundant_spec (cands : List H) (hgens : J gens) : (removeRedundant G reader cands gens).1.Nodup ∧
      (∀ h, h ∈ (removeRedundant G reader cands gens).1 ↔ h ∈ cands ∧ ∀ c ∈ cands, G.Below h c → h = c) ∧
      J (removeRedundant G reader cands gens).2 := by
  have huniq : ∀ x, x ∈ cands.reverse.dedup.reverse ↔ x ∈ cands := by simp
  have hnodup : cands.reverse.dedup.reverse.Nodup := nodup_reverse.2 (nodup_dedup _)
  unfold removeRedundant
  split
  · rename_i heq
    rw [heq] at huniq
    refine ⟨nodup_nil, fun h => ?_, hgens⟩
    simp [← huniq]
  · rename_i x heq
    rw [heq] at huniq
    refine ⟨nodup_singleton x, fun h => ?_, hgens⟩
    simp only [← huniq, mem_singleton]
    constructor
    · rintro rfl
      exact ⟨rfl, fun c hc _ => hc.symm⟩
    · exact fun hh => hh.1
  · rename_i x hs _ heq
    rw [heq] at huniq hnodup
    obtain ⟨hvisited, hgens'⟩ := visitBelow_spec hr x hs hgens
    dsimp only
    refine ⟨hnodup.filter _, fun h => ?_, hgens'⟩
    simp only [mem_filter, decide_eq_true_eq, ← huniq]
    constructor
    · rintro ⟨hh, hnot⟩
      refine ⟨hh, fun c hc hb => ?_⟩
      by_contra hne
      exact hnot ⟨(hvisited h hh).2 ⟨c, hc, hb, hne⟩, hh⟩
    · rintro ⟨hh, hmax⟩
      refine ⟨hh, fun ⟨hv, _⟩ => ?_⟩
      obtain ⟨c, hc, hb, hne⟩ := (hvisited h hh).1 hv
      exact hne (hmax c hc hb)

end

/-! ## The searches find the nearest common ancestors -/

variable (G as bs) in
/-- in hash order, each once, the nearest common ancestors and nothing else -/
def Exact (out : List H) : Prop := out.Pairwise (· < ·) ∧ ∀ h, h ∈ out ↔ G.Nearest as bs h

theorem exact_sortHashes (hnodup : out.Nodup) (hmem : ∀ h, h ∈ out ↔ G.Nearest as bs h) :
    Exact G as bs (sortHashes out) := by
  have hperm : (sortHashes out).Perm out := perm_insertionSort _ _
  constructor
  · have hle : (sortHashes out).Pairwise (· ≤ ·) := pairwise_insertionSort _ _
    exact (hle.and (hperm.nodup_iff.2 hnodup)).imp fun h => lt_of_le_of_ne h.1 h.2
  · intro h
    rw [hperm.mem_iff]
    exact hmem h

theorem searchBases_spec (hr : Reads gen J number) (hlt : ∀ h, ∀ p ∈ G.parents h, number p < number h)
    (hgens : J gens) : Exact G as bs (searchBases G gen as bs gens).1 ∧ J (searchBases G gen as bs gens).2 := by
  obtain ⟨hsub, hsup, hgens₁⟩ := paintDownToCommon_spec as bs hr hlt hgens
  have hread : ∀ gen', some gen = some gen' → Reads gen' J number ∧ ∀ h, ∀ p ∈ G.parents h, number p < number h := by
    rintro _ ⟨⟩
    exact ⟨hr, hlt⟩
  obtain ⟨hnodup, hmem, hgens₂⟩ := removeRedundant_spec hread (paintDownToCommon G gen as bs gens).1 hgens₁
  refine ⟨exact_sortHashes hnodup fun h => ?_, hgens₂⟩
  rw [nearest_iff_of_between hsub hsup]
  exact hmem h

/-- the numbers of a graph fall along every edge walked -/
def Graph.Falling (L : RankedGraph H) (g : Graph H) : Prop := ∀ h, ∀ p ∈ g.expandParents L h, g.generation p < g.generation h

theorem ensure_falling (hg : g.Falling L) : (g.ensureGenerations L).Falling L := by
  unfold Graph.ensureGenerations
  split
  · intro h p hp
    have hsound : Sound L (g.recomputeGenerations L) := recompute_sound
    by_cases hpn : p ∈ (g.recomputeGenerations L).nodes
    · exact hsound.descending rfl h p hp hpn
    · rw [Graph.generation, AList.lookup_eq_none.2 hpn]
      exact hsound.positive h (mem_expandParents.1 hp).2.2.1
  · exact hg

theorem ensure_walks : (g.ensureGenerations L).walks L = g.walks L := by
  simp only [Graph.walks, ensure_expandParents]

/-- a finder on an unchanged graph: its numbers are right, and the graph's own may only have been made fresh -/
structure MergeBaseFinder.Over (L : RankedGraph H) (g : Graph H) (f : MergeBaseFinder H) : Prop where
  walks : f.d.walks L = g.walks L
  falling : g.Falling L → f.d.Falling L
  numbered : (g.walks L).Numbered (fun _ parents => parents.foldl max 0 + 1) f.gen

/-- **One call of a finder.** -/
theorem MergeBaseFinder.Over.mergeBases {f : MergeBaseFinder H} (hf : f.Over L g) (ancestryPruning : Bool)
    (hg : ancestryPruning = true → g.Falling L) (as bs : List H) :
    Exact (g.walks L) as bs (f.mergeBases L ancestryPruning as bs).1 ∧ (f.mergeBases L ancestryPruning as bs).2.Over L g := by
  cases ancestryPruning with
  | true =>
    have hfall : (f.d.ensureGenerations L).Falling L := ensure_falling (hf.falling (hg rfl))
    have hwalks : (f.d.ensureGenerations L).walks L = g.walks L := ensure_walks.trans hf.walks
    obtain ⟨hexact, -⟩ := searchBases_spec (G := (f.d.ensureGenerations L).walks L)
      (f.d.ensureGenerations L).reads_generation hfall (show True from trivial)
    exact ⟨hwalks ▸ hexact, hwalks, fun _ => hfall, hf.numbered⟩
  | false =>
    obtain ⟨hexact, hnum⟩ := searchBases_spec (finderGeneration_reads (f.d.walks L))
      (fun h p hp => finderNumber_lt hp) (hf.walks ▸ hf.numbered)
    exact ⟨hf.walks ▸ hexact, hf.walks, hf.falling, hf.walks ▸ hnum⟩

/-- **Merge bases are the nearest common ancestors.** Over every graph whose generations fall along the edges walked, with
pruning, without it, and by a finder after any calls, with or without pruning. -/
theorem merge_bases_nearest (L : RankedGraph H) (g : Graph H)
    (hgen : ∀ h p, p ∈ g.expandParents L h → g.generation p < g.generation h) (as bs : List H) :
    Exact (g.walks L) as bs (g.mergeBases L true as bs) ∧
    Exact (g.walks L) as bs (g.mergeBases L false as bs) ∧
    ∀ (ancestryPruning : Bool) (calls : List (List H × List H)),
      Exact (g.walks L) as bs
        ((MergeBaseFinder.after L ⟨g, ∅⟩ ancestryPruning calls).mergeBases L ancestryPruning as bs).1 := by
  have hover : (⟨g, ∅⟩ : MergeBaseFinder H).Over L g := ⟨rfl, id, fun h v hv => by simp at hv⟩
  refine ⟨?_, ?_, fun ancestryPruning calls => ?_⟩
  · exact (hover.mergeBases true (fun _ => hgen) as bs).1
  · obtain ⟨hsub, hsup⟩ := commonByClosure_spec (g.walks L) as bs
    have hnone : ∀ gen : Unit → H → ℕ × Unit, none = some gen →
        Reads gen (fun _ => True) g.generation ∧ ∀ h, ∀ p ∈ (g.walks L).parents h, g.generation p < g.generation h := nofun
    obtain ⟨hnodup, hmem, -⟩ := removeRedundant_spec hnone (commonByClosure (g.walks L) as bs) (show True from trivial)
    refine exact_sortHashes hnodup fun h => ?_
    rw [nearest_iff_of_between hsub hsup]
    exact hmem h
  · have hrun : (MergeBaseFinder.after L ⟨g, ∅⟩ ancestryPruning calls).Over L g :=
      run_of_step_all (I := MergeBaseFinder.Over L g)
        (fun f c hf => (hf.mergeBases ancestryPruning (fun _ => hgen) c.1 c.2).2) calls hover
    exact (hrun.mergeBases ancestryPruning (fun _ => hgen) as bs).1

/-- a criss-cross: 3 and 4 both merge 1 and 2, which branch at 0 -/
def crissCross : RankedGraph ℕ where
  parents := fun n => if n = 0 then [] else if n ≤ 2 then [0] else [1, 2]
  rank := id
  rank_lt := by
    intro n p hp
    split_ifs at hp
    · cases hp
    · simp_all; omega
    · simp only [mem_cons, not_mem_nil, or_false] at hp
      simp only [id]
      omega

/-- all its commits, numbered -/
def crissCrossGraph : Graph ℕ :=
  run (fun g h => g.putCommit crissCross h true) (Graph.new 0) [1, 2, 3, 4]

theorem merge_bases_nearest_crissCross :
    Exact (crissCrossGraph.walks crissCross) [3] [4] (crissCrossGraph.mergeBases crissCross true [3] [4]) ∧
      crissCrossGraph.mergeBases crissCross true [3] [4] = [1, 2] := by
  refine ⟨(merge_bases_nearest crissCross crissCrossGraph ?_ [3] [4]).1, by decide +kernel⟩
  have hnodes : ∀ h ∈ crissCrossGraph.nodes.keys, ∀ p ∈ crissCrossGraph.expandParents crissCross h,
      crissCrossGraph.generation p < crissCrossGraph.generation h := by decide +kernel
  intro h p hp
  exact hnodes h (mem_expandParents.1 hp).2.2.1 p hp

/-- **Both sides agree.** Finders over one graph, asked from opposite sides, give the same list, whether either one prunes and
whatever it was asked before. -/
theorem mergeBases_comm (L : RankedGraph H) (g : Graph H) (hgen : g.Falling L) (as bs : List H) (pruning pruning' : Bool)
    (calls calls' : List (List H × List H)) :
    ((MergeBaseFinder.after L ⟨g, ∅⟩ pruning calls).mergeBases L pruning as bs).1 =
      ((MergeBaseFinder.after L ⟨g, ∅⟩ pruning' calls').mergeBases L pruning' bs as).1 := by
  have hover : (⟨g, ∅⟩ : MergeBaseFinder H).Over L g := ⟨rfl, id, fun h v hv => by simp at hv⟩
  have hexact : ∀ (b : Bool) (cs : List (List H × List H)) (as bs : List H),
      Exact (g.walks L) as bs ((MergeBaseFinder.after L ⟨g, ∅⟩ b cs).mergeBases L b as bs).1 := by
    intro b cs as bs
    have hrun := run_of_step_all (I := MergeBaseFinder.Over L g)
      (fun f c hf => (hf.mergeBases b (fun _ => hgen) c.1 c.2).2) cs hover
    exact (hrun.mergeBases b (fun _ => hgen) as bs).1
  obtain ⟨hlt, hmem⟩ := hexact pruning calls as bs
  obtain ⟨hlt', hmem'⟩ := hexact pruning' calls' bs as
  -- two rising lists with the same members
  refine Perm.eq_of_pairwise (fun a b _ _ hab hba => absurd hab hba.asymm) hlt hlt' ?_
  refine (perm_ext_iff_of_nodup (hlt.imp ne_of_lt) (hlt'.imp ne_of_lt)).2 fun h => ?_
  rw [hmem, hmem', nearest_comm]

theorem mergeBases_comm_crissCross :
    ((MergeBaseFinder.after crissCross ⟨crissCrossGraph, ∅⟩ true [([1], [2])]).mergeBases crissCross true [3] [4]).1 =
      ((MergeBaseFinder.after crissCross ⟨crissCrossGraph, ∅⟩ false []).mergeBases crissCross false [4] [3]).1 := by
  refine mergeBases_comm crissCross crissCrossGraph ?_ [3] [4] true false [([1], [2])] []
  have hnodes : ∀ h ∈ crissCrossGraph.nodes.keys, ∀ p ∈ crissCrossGraph.expandParents crissCross h,
      crissCrossGraph.generation p < crissCrossGraph.generation h := by decide +kernel
  intro h p hp
  exact hnodes h (mem_expandParents.1 hp).2.2.1 p hp

end Kdb.Ancestry
