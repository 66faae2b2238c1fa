/-
The attachment store across crashes and restarts (`storage/attachstore`: `writePointerLocked`, `rebuildIndex`, `Finish`,
`finishJob`, `InflateStep`; `storage/io/os_store.go`: `openFor`, `append`).

The index and the data segments are those of `Kdb.Storage.AttachStore`. Under them stand the pointer segments, one for
each hash and generation: a pointer is written to the segment of the next generation, and once it is there the segment
it supersedes and the bytes it replaces are deleted. A restart forgets the index and rebuilds it from the newest
generation of each hash that reads.

- `acknowledged_blobs_survive`: every blob reported stored reads back, in runs in which no pointer is written to a
  segment that already holds bytes.
- `torn_pointer_retried`: a pointer torn by a crash is appended to by the retry, and the next restart has lost the blob.

A pointer segment is modelled by what landed of each write to it. Its checksum covers all its bytes, so it reads exactly
when it is one complete write (`readPointer`). Data segments have random names and are named by no pointer before they
are complete, so what a crash leaves of one is not kept. A crash inside a collection, the finish times in pointers and
the cache in front of the index are left out; a label says whether a repeated upload renews the pointer (`holdLocked`).
-/
import Kdb.Storage.AttachStore

namespace Kdb.AttachStore

open Kdb.Machine Kdb.PointerChain List Option

variable {H : Type} [DecidableEq H]

deriving instance DecidableEq for Body
deriving instance DecidableEq for Pointer

/-! ## Pointer segments -/

/-- what landed of one write to a pointer segment: all of it, or a part -/
structure Landed (H : Type) where
  pointer : Pointer H
  complete : Bool
  deriving DecidableEq

/-- pointer segments by hash and generation (`pointerName`) -/
abbrev Files (H : Type) := AList fun _ : H × ℕ => List (Landed H)

/-- `readPointer`: the checksum holds for one complete write only -/
def readPointer : List (Landed H) → Option (Pointer H)
  | [⟨p, true⟩] => some p
  | _ => none

variable (files : Files H)

/-- the pointer in the segment of a generation -/
def readAt (h : H) (g : ℕ) : Option (Pointer H) := (files.lookup (h, g)).bind readPointer

/-- the generations of a hash, newest first -/
def generations (h : H) : List ℕ :=
  ((files.keys.filter fun k => k.1 = h).map Prod.snd).insertionSort (· ≥ ·)

/-- the newest generation that reads -/
def newest (h : H) : Option (ℕ × Pointer H) :=
  (generations files h).findSome? fun g => (readAt files h g).map (g, ·)

def rebuildIndex : AList fun _ : H => Pointer H :=
  files.keys.foldl (fun idx k =>
    match newest files k.1 with
    | some (_, p) => idx.insert k.1 p
    | none => idx) ∅

/-- an append goes behind what the segment already holds -/
def appendFile (k : H × ℕ) (x : Landed H) : Files H :=
  files.insert k ((files.lookup k).getD [] ++ [x])

/-- the segments that stay -/
def sweepFiles (kept : H × ℕ → Bool) : Files H :=
  (files.keys.filter fun k => !kept k).foldl (fun files k => files.erase k) files

/-! ## The process and its disk -/

/-- the store with its data segments, the generation of each indexed pointer, the pointer segments, and the hashes an
operation has reported stored -/
structure Node (H : Type) where
  store : Store H
  gen : H → ℕ
  files : Files H
  acked : List H

def Node.init : Node H := ⟨AttachStore.init, fun _ => 0, ∅, []⟩

/-- the next process: the index rebuilt, the jobs gone -/
def Node.restart (d : Node H) : Node H :=
  { d with
    store := { d.store with idx := rebuildIndex d.files, job := none, inflate := none }
    gen := fun h => ((newest d.files h).map Prod.fst).getD 0 }

/-- the generation `writePointerLocked` writes -/
def Node.nextGen (d : Node H) (h : H) : ℕ := if h ∈ d.store.idx then d.gen h + 1 else 0

/-- a pointer write: of which hash, what, and whether the pointer it supersedes goes -/
structure PointerWrite (H : Type) where
  hash : H
  pointer : Pointer H
  retires : Bool

variable (hash : Bytes → H) (cfg : Config)

/-- an upload `Write` and `Finish` accept and store -/
def accepted (c : Bytes) : Bool := !(c = [] || (0 < cfg.maxBytes && cfg.maxBytes < c.length))

/-- the hash whose pointer an operation may write -/
def Node.pointerTarget (d : Node H) (rehold : Bool) : Op H → Option H
  | .upload c => if accepted cfg c && (rehold || hash c ∉ d.store.idx) then some (hash c) else none
  | .deltaStep old _ (.encoded _) => some old
  | .inflateStep h true => some h
  | _ => none

/-- the pointer an operation writes: a new one, or the same again for a repeated upload (`holdLocked`) -/
def Node.pointerWrite (d : Node H) (rehold : Bool) (o : Op H) : Option (PointerWrite H) :=
  match d.pointerTarget hash cfg rehold o with
  | none => none
  | some h =>
    match (step hash cfg d.store o).idx.lookup h with
    | none => none
    | some p =>
      if d.store.idx.lookup h ≠ some p then some ⟨h, p, decide (h ∈ d.store.idx)⟩
      else match o with
        | .upload _ => some ⟨h, p, false⟩
        | _ => none

/-- the pointer segments after the write; `retires` says whether the superseded one is deleted -/
def Node.written (d : Node H) (w : PointerWrite H) (retires : Bool) : Files H :=
  let files := appendFile d.files (w.hash, d.nextGen w.hash) ⟨w.pointer, true⟩
  if retires then files.erase (w.hash, d.gen w.hash) else files

/-- the hash an operation reports stored: `Finish` accepted it, `DeltaStep` swapped it, `InflateStep` found it -/
def acks (s : Store H) : Op H → List H
  | .upload c => if 0 < cfg.maxBytes && cfg.maxBytes < c.length then [] else [hash c]
  | .deltaStep old base w => if (deltaStep hash cfg s old base w).2 = .stored then [old] else []
  | .inflateStep h _ => if h ∈ s.idx then [h] else []
  | .collect _ _ => []

/-- an operation that returns -/
def Node.apply (d : Node H) (rehold : Bool) (o : Op H) : Node H :=
  let s := step hash cfg d.store o
  match o with
  | .collect _ _ =>
    { store := s
      gen := d.gen
      files := sweepFiles d.files fun k => decide (k.1 ∈ s.idx) && k.2 = d.gen k.1
      acked := d.acked.filter fun h => h ∉ d.store.idx || h ∈ s.idx }
  | _ =>
    match d.pointerWrite hash cfg rehold o with
    | none => { d with store := s, acked := acks hash cfg d.store o ++ d.acked }
    | some w =>
      { store := s
        gen := Function.update d.gen w.hash (d.nextGen w.hash)
        files := d.written w w.retires
        acked := acks hash cfg d.store o ++ d.acked }

/-- how far a crash lets an operation come: no byte of its pointer landed, some did, or all did and the superseded pointer
is deleted or not -/
inductive Cut where
  | nothing
  | torn
  | landed (retired : Bool)
  deriving DecidableEq

/-- the process dies inside an operation and the next one starts -/
def Node.crash (d : Node H) (rehold : Bool) (o : Op H) (cut : Cut) : Node H :=
  let s := step hash cfg d.store o
  -- the names it took are not taken again
  let before := { d with store := { d.store with next := max d.store.next s.next } }
  match d.pointerWrite hash cfg rehold o, cut with
  | some w, .torn =>
    { before with files := appendFile d.files (w.hash, d.nextGen w.hash) ⟨w.pointer, false⟩ }.restart
  | some w, .landed retired =>
    -- the bytes the pointer names are complete; those it replaces may still be there
    { d with
      store := { s with segs := fun n => (s.segs n).or (d.store.segs n) }
      files := d.written w (w.retires && retired) }.restart
  | _, _ => before.restart

inductive Event (H : Type) where
  | op (rehold : Bool) (o : Op H)
  | crash (rehold : Bool) (o : Op H) (cut : Cut)
  | restart

def Node.step (d : Node H) : Event H → Node H
  | .op rehold o => d.apply hash cfg rehold o
  | .crash rehold o cut => d.crash hash cfg rehold o cut
  | .restart => d.restart

/-! ## The newest pointer that reads -/

variable {files : Files H} {h : H} {g : ℕ} {p : Pointer H}

theorem mem_generations : g ∈ generations files h ↔ (h, g) ∈ files.keys := by
  simp [generations]

theorem mem_generations_of_readAt (hr : readAt files h g = some p) : g ∈ generations files h := by
  obtain ⟨x, hx, -⟩ := bind_eq_some_iff.1 hr
  rw [mem_generations]
  exact AList.mem_keys.1 (AList.lookup_isSome.1 (by simp [hx]))

theorem newest_some (hn : newest files h = some (g, p)) :
    readAt files h g = some p ∧ ∀ g', g < g' → readAt files h g' = none := by
  obtain ⟨l₁, a, l₂, hl, ha, hbefore⟩ := List.findSome?_eq_some_iff.1 hn
  obtain ⟨q, hq, heq⟩ := map_eq_some_iff.1 ha
  obtain ⟨rfl, rfl⟩ := Prod.mk.inj heq
  refine ⟨hq, ?_⟩
  intro g' hlt
  by_contra hne
  obtain ⟨q', hq'⟩ := ne_none_iff_exists'.1 hne
  have hmem := mem_generations_of_readAt hq'
  have hsorted : (generations files h).Pairwise (· ≥ ·) := pairwise_insertionSort _ _
  rw [hl] at hmem hsorted
  rcases mem_append.1 hmem with hmem | hmem
  · simpa [hq'] using hbefore g' hmem
  · rcases mem_cons.1 hmem with rfl | hmem
    · omega
    · have := (pairwise_cons.1 (pairwise_append.1 hsorted).2.1).1 g' hmem
      omega

theorem newest_none (hn : newest files h = none) (g : ℕ) : readAt files h g = none := by
  by_contra hne
  obtain ⟨q, hq⟩ := ne_none_iff_exists'.1 hne
  have := List.findSome?_eq_none_iff.1 hn g (mem_generations_of_readAt hq)
  simp [hq] at this

theorem newest_eq_some (hr : readAt files h g = some p) (habove : ∀ g', g < g' → readAt files h g' = none) :
    newest files h = some (g, p) := by
  cases hn : newest files h with
  | none => simp [newest_none hn g] at hr
  | some x =>
    obtain ⟨g₁, p₁⟩ := x
    obtain ⟨hr₁, habove₁⟩ := newest_some hn
    rcases lt_trichotomy g₁ g with hlt | rfl | hlt
    · simp [habove₁ g hlt] at hr
    · rw [hr] at hr₁
      cases hr₁
      rfl
    · simp [habove g₁ hlt] at hr₁

theorem newest_eq_none (hr : ∀ g, readAt files h g = none) : newest files h = none := by
  cases hn : newest files h with
  | none => rfl
  | some x => simpa [hr x.1] using (newest_some hn).1

theorem newest_congr {files' : Files H} (hr : ∀ g, readAt files' h g = readAt files h g) :
    newest files' h = newest files h := by
  cases hn : newest files h with
  | none => exact newest_eq_none fun g => (hr g).trans (newest_none hn g)
  | some x =>
    obtain ⟨hread, habove⟩ := newest_some hn
    exact newest_eq_some ((hr _).trans hread) fun g' hlt => (hr g').trans (habove g' hlt)

theorem lookup_rebuildIndex (files : Files H) (h : H) :
    (rebuildIndex files).lookup h = (newest files h).map Prod.snd := by
  have key : ∀ (ks : List (H × ℕ)) (idx : AList fun _ : H => Pointer H),
      (ks.foldl (fun idx k => match newest files k.1 with
        | some (_, p) => idx.insert k.1 p
        | none => idx) idx).lookup h =
        if h ∈ ks.map Prod.fst then ((newest files h).map Prod.snd).or (idx.lookup h) else idx.lookup h := by
    intro ks
    induction ks with
    | nil => simp
    | cons k ks ih =>
      intro idx
      rw [foldl_cons, ih]
      by_cases hk : h = k.1
      · cases hn : newest files h with
        | none => simp [← hk, hn]
        | some x => simp [← hk, hn]
      · have hne : (match newest files k.1 with
            | some (_, p) => idx.insert k.1 p
            | none => idx).lookup h = idx.lookup h := by
          split
          · exact AList.lookup_insert_ne hk
          · rfl
        rw [hne]
        simp only [map_cons, mem_cons, hk, false_or]
  rw [rebuildIndex, key]
  split_ifs with hmem
  · simp
  · have hnone : newest files h = none := by
      refine newest_eq_none fun g => ?_
      by_contra hne
      obtain ⟨q, hq⟩ := ne_none_iff_exists'.1 hne
      exact hmem (mem_map.2 ⟨(h, g), mem_generations.1 (mem_generations_of_readAt hq), rfl⟩)
    simp [hnone]

/-! ## Writing and deleting pointer segments -/

variable {k : H × ℕ} {w : PointerWrite H} {o : Op H} {rehold : Bool}

theorem readAt_append_ne (hk : (h, g) ≠ k) (x : Landed H) : readAt (appendFile files k x) h g = readAt files h g := by
  rw [readAt, appendFile, AList.lookup_insert_ne hk, readAt]

theorem readAt_append_fresh (hf : (files.lookup (h, g)).getD [] = []) (p : Pointer H) :
    readAt (appendFile files (h, g) ⟨p, true⟩) h g = some p := by
  simp [readAt, appendFile, hf, readPointer]

theorem readAt_append_torn (files : Files H) (h : H) (g : ℕ) (p : Pointer H) :
    readAt (appendFile files (h, g) ⟨p, false⟩) h g = none := by
  have key : ∀ l : List (Landed H), readPointer (l ++ [⟨p, false⟩]) = none := by
    intro l
    cases l with
    | nil => rfl
    | cons a l => cases l <;> simp [readPointer]
  simp [readAt, appendFile, key]

theorem readAt_erase_ne (hk : (h, g) ≠ k) : readAt (files.erase k) h g = readAt files h g := by
  rw [readAt, AList.lookup_erase_ne hk, readAt]

/-! ## The index is what a restart would rebuild -/

variable {hash} {cfg : Config} {s s' : Store H} {d : Node H}

/-- every indexed pointer is the newest that reads, at the generation the index records -/
def Linked (d : Node H) : Prop := ∀ h, newest d.files h = (d.store.idx.lookup h).map fun p => (d.gen h, p)

theorem Linked.lookup (hl : Linked d) (h : H) : (rebuildIndex d.files).lookup h = d.store.idx.lookup h := by
  rw [lookup_rebuildIndex, hl h]
  cases d.store.idx.lookup h <;> rfl

theorem linked_restart (d : Node H) : Linked d.restart := by
  intro h
  simp only [Node.restart, lookup_rebuildIndex]
  cases newest d.files h <;> rfl

theorem Linked.unread (hl : Linked d) (h : H) (hg : d.nextGen h ≤ g) : readAt d.files h g = none := by
  have hn := hl h
  unfold Node.nextGen at hg
  by_cases hm : h ∈ d.store.idx
  · obtain ⟨p, hp⟩ := isSome_iff_exists.1 (AList.lookup_isSome.2 hm)
    rw [hp] at hn
    rw [if_pos hm] at hg
    exact (newest_some hn).2 g hg
  · rw [AList.lookup_eq_none.2 hm] at hn
    exact newest_none hn g

/-- the generation the next pointer of `h` goes to holds no bytes -/
def Fresh (d : Node H) (h : H) : Prop := (d.files.lookup (h, d.nextGen h)).getD [] = []
  deriving Decidable

/-- a pointer written to a fresh generation is the newest, whether or not the superseded one is deleted -/
theorem Linked.newest_written (hl : Linked d) (hf : Fresh d w.hash) {retires : Bool}
    (hr : retires = true → w.hash ∈ d.store.idx) (h : H) :
    newest (d.written w retires) h =
      if h = w.hash then some (d.nextGen w.hash, w.pointer) else newest d.files h := by
  have hread : ∀ g, (w.hash, g) ≠ (w.hash, d.nextGen w.hash) →
      readAt (d.written w retires) w.hash g = none ∨
        readAt (d.written w retires) w.hash g = readAt d.files w.hash g := by
    intro g hg
    unfold Node.written
    split
    · by_cases hk : (w.hash, g) = (w.hash, d.gen w.hash)
      · rw [hk.symm]; left; simp [readAt]
      · right; rw [readAt_erase_ne hk, readAt_append_ne hg]
    · right; exact readAt_append_ne hg _
  split_ifs with hne
  · subst_vars
    refine newest_eq_some ?_ fun g' hlt => ?_
    · unfold Node.written
      split
      · have hne : (w.hash, d.nextGen w.hash) ≠ (w.hash, d.gen w.hash) := by
          simp [Node.nextGen, hr ‹_›]
        rw [readAt_erase_ne hne, readAt_append_fresh hf]
      · exact readAt_append_fresh hf _
    · rcases hread g' (by simpa using hlt.ne') with h' | h'
      · exact h'
      · rw [h']; exact hl.unread _ hlt.le
  · refine newest_congr fun g => ?_
    have hk : ∀ g', (h, g) ≠ (w.hash, g') := fun g' he => hne (Prod.mk.inj he).1
    unfold Node.written
    split
    · rw [readAt_erase_ne (hk _), readAt_append_ne (hk _)]
    · exact readAt_append_ne (hk _) _

theorem Linked.newest_torn (hl : Linked d) (h₀ : H) (p : Pointer H) (h : H) :
    newest (appendFile d.files (h₀, d.nextGen h₀) ⟨p, false⟩) h = newest d.files h := by
  refine newest_congr fun g => ?_
  by_cases hk : (h, g) = (h₀, d.nextGen h₀)
  · obtain ⟨rfl, rfl⟩ := Prod.mk.inj hk
    rw [readAt_append_torn, hl.unread _ le_rfl]
  · exact readAt_append_ne hk _

/-! ## What an operation does to the index -/

variable (cfg) in
theorem finishJob_idx (s : Store H) (j : DeltaJob H) :
    ((finishJob cfg s j).1.idx = s.idx ∧ (finishJob cfg s j).2 ≠ .stored) ∨
      ∃ p, (finishJob cfg s j).1.idx = s.idx.insert j.old p := by
  have hdrop : (dropJobLocked s).idx = s.idx := (dropJobLocked_dropped s).idx
  unfold finishJob
  split
  · split
    · right; exact ⟨_, rfl⟩
    · left; exact ⟨hdrop, nofun⟩
  · left; exact ⟨hdrop, nofun⟩

theorem runJob_idx (s : Store H) (j : DeltaJob H) (cBase : Bytes) (w : Work) :
    ((runJob hash cfg s j cBase w).1.idx = s.idx ∧ (runJob hash cfg s j cBase w).2 ≠ .stored) ∨
      ∃ ops p, w = .encoded ops ∧ (runJob hash cfg s j cBase w).1.idx = s.idx.insert j.old p := by
  have hdrop : (dropJobLocked s).idx = s.idx := (dropJobLocked_dropped s).idx
  cases w with
  | pending => left; exact ⟨rfl, nofun⟩
  | tooBig => left; exact ⟨hdrop, nofun⟩
  | encoded ops =>
    simp only [runJob, runEncoded]
    split
    · left; exact ⟨hdrop, nofun⟩
    · split
      · rcases finishJob_idx cfg ((s.writeSegment j.seg (.frames ops)).deleteSegment j.framesSeg) j with h | ⟨p, h⟩
        · left; exact h
        · right; exact ⟨ops, p, rfl, h⟩
      · left; exact ⟨hdrop, nofun⟩

theorem deltaStep_idx (hi : Inv hash cfg s) (old base : H) (w : Work) :
    ((deltaStep hash cfg s old base w).1.idx = s.idx ∧ (deltaStep hash cfg s old base w).2 ≠ .stored) ∨
      ∃ ops p, w = .encoded ops ∧ (deltaStep hash cfg s old base w).1.idx = s.idx.insert old p := by
  unfold deltaStep
  split
  · left; exact ⟨rfl, by simp⟩
  dsimp only
  obtain ⟨-, hidx, hpair⟩ := keepJob_spec hi old base ((s.idx.lookup old).bind Pointer.segment)
    (resolveLocked cfg s base).isOk
  generalize keepJob s old base ((s.idx.lookup old).bind Pointer.segment) (resolveLocked cfg s base).isOk = t at hidx hpair ⊢
  split
  swap
  · left; exact ⟨hidx, by simp⟩
  split
  · left; exact ⟨hidx, by simp⟩
  split
  swap
  · left; exact ⟨hidx, by simp⟩
  rw [← hidx]
  split
  · rename_i j hj
    obtain ⟨rfl, rfl⟩ := hpair j hj
    exact runJob_idx t j _ w
  · exact runJob_idx (startJob t old base _) (newJob t old base _) _ w

theorem inflateStep_idx (hi : Inv hash cfg s) (h : H) (done : Bool) :
    (inflateStep hash cfg s h done).idx = s.idx ∨
      ∃ p, done = true ∧ (inflateStep hash cfg s h done).idx = s.idx.insert h p := by
  unfold inflateStep
  dsimp only
  obtain ⟨hk, hidx⟩ := keepInflate_spec hi h ((s.idx.lookup h).bind Pointer.segment)
  split
  swap
  · left; exact hidx
  rename_i size segment leaves base hp
  obtain ⟨u, hu, -, hidx'⟩ := hk.startInflate h segment
  rw [hu, ← hidx, ← hidx']
  split
  · split
    · right; exact ⟨_, ‹_›, rfl⟩
    · left; rfl
  · left
    exact (dropInflateLocked_dropped u).idx

variable (hash cfg) in
theorem upload_idx (s : Store H) (c : Bytes) :
    ((upload hash cfg s c).idx = s.idx ∧ (accepted cfg c = true → hash c ∈ s.idx)) ∨
      ∃ p, accepted cfg c = true ∧ hash c ∉ s.idx ∧ (upload hash cfg s c).idx = s.idx.insert (hash c) p := by
  unfold upload accepted
  dsimp only
  split_ifs with h1 h2 h3 h4
  · left; simp [h1]
  · left; exact ⟨rfl, fun _ => h3⟩
  · right; exact ⟨_, by simp [h1], h3, rfl⟩
  · left; exact ⟨rfl, fun _ => h4⟩
  · right; exact ⟨_, by simp [h1], h4, rfl⟩

/-- collections apart, an operation leaves the index alone or inserts one pointer at its target -/
theorem step_idx (hi : Inv hash cfg d.store) (ho : ∀ keep held, o ≠ .collect keep held) (rehold : Bool) :
    (step hash cfg d.store o).idx = d.store.idx ∨
      ∃ h p, d.pointerTarget hash cfg rehold o = some h ∧ (step hash cfg d.store o).idx = d.store.idx.insert h p := by
  cases o with
  | upload c =>
    rcases upload_idx hash cfg d.store c with ⟨h, -⟩ | ⟨p, hacc, hnot, h⟩
    · left; exact h
    · right; exact ⟨hash c, p, by simp [Node.pointerTarget, hacc, hnot], h⟩
  | deltaStep old base w =>
    rcases deltaStep_idx hi old base w with ⟨h, -⟩ | ⟨ops, p, rfl, h⟩
    · left; exact h
    · right; exact ⟨old, p, rfl, h⟩
  | inflateStep h done =>
    rcases inflateStep_idx hi h done with h' | ⟨p, rfl, h'⟩
    · left; exact h'
    · right; exact ⟨h, p, rfl, h'⟩
  | collect keep held => exact absurd rfl (ho keep held)

/-- what `pointerWrite` says of the index after the step -/
theorem pointerWrite_some (hw : d.pointerWrite hash cfg rehold o = some w) :
    d.pointerTarget hash cfg rehold o = some w.hash ∧ (step hash cfg d.store o).idx.lookup w.hash = some w.pointer ∧
      (w.retires = true → w.hash ∈ d.store.idx) := by
  unfold Node.pointerWrite at hw
  split at hw
  · cases hw
  rename_i h ht
  split at hw
  · cases hw
  rename_i p hp
  split at hw
  · cases hw
    exact ⟨ht, hp, of_decide_eq_true⟩
  · split at hw
    · cases hw
      exact ⟨ht, hp, nofun⟩
    · cases hw

section Lookup

variable (hi : Inv hash cfg d.store) {o : Op H} (ho : ∀ keep held, o ≠ .collect keep held) {rehold : Bool}
include hi ho

theorem step_mem (hh : h ∈ d.store.idx) : h ∈ (step hash cfg d.store o).idx := by
  rcases step_idx hi ho false with he | ⟨h', p, -, he⟩
  · rwa [he]
  · rw [he, AList.mem_insert]; exact .inr hh

theorem lookup_of_no_write (hw : d.pointerWrite hash cfg rehold o = none) (h : H) :
    (step hash cfg d.store o).idx.lookup h = d.store.idx.lookup h := by
  rcases step_idx hi ho rehold with he | ⟨h', p, ht, he⟩
  · rw [he]
  rw [he]
  by_cases hh : h = h'
  · subst hh
    simp only [Node.pointerWrite, ht, he, AList.lookup_insert] at hw
    by_contra hne
    rw [AList.lookup_insert] at hne
    rw [if_pos (Ne.symm hne)] at hw
    cases hw
  · exact AList.lookup_insert_ne hh

theorem lookup_of_write {w : PointerWrite H} (hw : d.pointerWrite hash cfg rehold o = some w) (h : H) :
    (step hash cfg d.store o).idx.lookup h = if h = w.hash then some w.pointer else d.store.idx.lookup h := by
  obtain ⟨ht, hp, -⟩ := pointerWrite_some hw
  split_ifs with hne
  · subst_vars; exact hp
  · rcases step_idx hi ho rehold with he | ⟨h', p, ht', he⟩
    · rw [he]
    · obtain rfl : h' = w.hash := Option.some.inj (ht'.symm.trans ht)
      rw [he, AList.lookup_insert_ne hne]

end Lookup

theorem acks_mem (hi : Inv hash cfg s) (hh : h ∈ acks hash cfg s o) : h ∈ (step hash cfg s o).idx ∨ h = hash [] := by
  cases o with
  | upload c =>
    by_cases hlim : (0 < cfg.maxBytes && cfg.maxBytes < c.length) = true
    · simp [acks, hlim] at hh
    obtain rfl : h = hash c := by simpa [acks, hlim] using hh
    by_cases hc : c = []
    · exact .inr (by rw [hc])
    have hacc : accepted cfg c = true := by simp [accepted, hc, hlim]
    rcases upload_idx hash cfg s c with ⟨he, hmem⟩ | ⟨p, -, -, he⟩
    · exact .inl (he ▸ hmem hacc)
    · exact .inl (by rw [step, he, AList.mem_insert]; exact .inl rfl)
  | deltaStep old base w =>
    simp only [acks] at hh
    split at hh
    · rcases deltaStep_idx hi old base w with ⟨-, hne⟩ | ⟨_, p, -, he⟩
      · contradiction
      · exact .inl (by rw [step, he, AList.mem_insert]; exact .inl (mem_singleton.1 hh))
    · cases hh
  | inflateStep h' done =>
    simp only [acks] at hh
    split at hh
    · rw [mem_singleton.1 hh]
      exact .inl (step_mem (d := ⟨s, fun _ => 0, ∅, []⟩) hi (fun _ _ he => by cases he) ‹_›)
    · cases hh
  | collect => cases hh

/-! ## Runs with crashes -/

structure Good (hash : Bytes → H) (cfg : Config) (d : Node H) : Prop where
  inv : Inv hash cfg d.store
  linked : Linked d
  acked : ∀ h ∈ d.acked, h ∈ d.store.idx ∨ h = hash []

/-- the guard of a run: no pointer goes to a generation that already holds bytes, and a completed delta respects the
chains above its old version -/
def Guarded (hash : Bytes → H) (cfg : Config) (d : Node H) : Event H → Prop
  | .op rehold o | .crash rehold o _ =>
    Rebases cfg d.store o ∧ ∀ h ∈ d.pointerTarget hash cfg rehold o, Fresh d h
  | .restart => True

instance (d : Node H) : ∀ e, Decidable (Guarded hash cfg d e)
  | .op rehold o => inferInstanceAs (Decidable (Rebases cfg d.store o ∧ ∀ h ∈ d.pointerTarget hash cfg rehold o, Fresh d h))
  | .crash rehold o _ =>
    inferInstanceAs (Decidable (Rebases cfg d.store o ∧ ∀ h ∈ d.pointerTarget hash cfg rehold o, Fresh d h))
  | .restart => inferInstanceAs (Decidable True)

/-- a process that starts over `d'` finds the index of `s`, if that is what the pointer segments say -/
theorem Good.of_restart {d' : Node H} (hi : Inv hash cfg s) (hnewest : ∀ h, (newest d'.files h).map Prod.snd = s.idx.lookup h)
    (hnext : s.next ≤ d'.store.next) (hsegs : ∀ h p, s.idx.lookup h = some p → ∀ n ∈ p.names, d'.store.segs n = s.segs n)
    (hacked : ∀ h ∈ d'.acked, h ∈ s.idx ∨ h = hash []) : Good hash cfg d'.restart := by
  have hidx : ∀ h, d'.restart.store.idx.lookup h = s.idx.lookup h := by
    intro h
    rw [← hnewest h, ← lookup_rebuildIndex]
    rfl
  refine ⟨hi.congr hidx hnext hsegs (nil_sublist _), linked_restart d', ?_⟩
  intro h hh
  refine (hacked h hh).imp_left fun hm => ?_
  rw [← AList.lookup_isSome, hidx, AList.lookup_isSome]
  exact hm

theorem Good.restart (hg : Good hash cfg d) : Good hash cfg d.restart :=
  .of_restart hg.inv (fun h => by rw [← lookup_rebuildIndex, hg.linked.lookup]) le_rfl (fun _ _ _ _ _ => rfl) hg.acked

theorem Good.crash (hinj : Function.Injective hash) (hg : Good hash cfg d) (hr : Rebases cfg d.store o)
    (hf : ∀ h ∈ d.pointerTarget hash cfg rehold o, Fresh d h) (cut : Cut) :
    Good hash cfg (d.crash hash cfg rehold o cut) := by
  have hnewest : ∀ h, (newest d.files h).map Prod.snd = d.store.idx.lookup h := fun h => by
    rw [← lookup_rebuildIndex, hg.linked.lookup]
  unfold Node.crash
  split
  · -- torn: the new bytes do not read
    exact .of_restart hg.inv (fun h => (congrArg _ (hg.linked.newest_torn _ _ h)).trans (hnewest h)) (le_max_left _ _)
      (fun _ _ _ _ _ => rfl) hg.acked
  · -- the pointer landed: its write is the newest, and its data is there whole
    rename_i w retired hw
    obtain ⟨ht, -, hret⟩ := pointerWrite_some hw
    have ho : ∀ keep held, o ≠ .collect keep held := by
      rintro keep held rfl
      simp [Node.pointerTarget] at ht
    have hi := inv_step hinj o hr hg.inv
    refine .of_restart hi (fun h => ?_) le_rfl (fun h p hp n hn => ?_) fun h hh => ?_
    · rw [lookup_of_write hg.inv ho hw, hg.linked.newest_written (hf _ ht) fun h' => hret (Bool.and_eq_true_iff.1 h').1]
      split
      · rfl
      · exact hnewest h
    · exact or_of_isSome ((hi.data h p hp).segs_some hn)
    · exact (hg.acked h hh).imp_left (step_mem hg.inv ho)
  · -- nothing landed
    exact .of_restart hg.inv hnewest (le_max_left _ _) (fun _ _ _ _ _ => rfl) hg.acked

theorem collect_lookup (keep held : H → Bool) (hh : h ∈ (collect cfg s keep held).idx) :
    (collect cfg s keep held).idx.lookup h = s.idx.lookup h := by
  obtain ⟨p, hp⟩ := isSome_iff_exists.1 (AList.lookup_isSome.2 hh)
  rw [hp, ((collect_swept cfg s keep held).old hp).2]

/-- a collection keeps the pointer segment of every blob it keeps, at the generation of its index -/
theorem Linked.newest_sweep (hl : Linked d) (idx : AList fun _ : H => Pointer H) (h : H) :
    newest (sweepFiles d.files fun k => decide (k.1 ∈ idx) && decide (k.2 = d.gen k.1)) h =
      if h ∈ idx then newest d.files h else none := by
  have hread : ∀ g, readAt (sweepFiles d.files fun k => decide (k.1 ∈ idx) && decide (k.2 = d.gen k.1)) h g =
      if h ∈ idx ∧ g = d.gen h then readAt d.files h g else none := by
    intro g
    rw [readAt, sweepFiles, lookup_foldl_erase]
    simp only [Bool.and_eq_true, decide_eq_true_eq]
    split <;> rfl
  by_cases hm : h ∈ idx
  · rw [if_pos hm]
    cases hn : newest d.files h with
    | none => exact newest_eq_none fun g => by rw [hread, newest_none hn, ite_self]
    | some x =>
      obtain ⟨g, p⟩ := x
      obtain ⟨hr, habove⟩ := newest_some hn
      have hgen : g = d.gen h := by
        obtain ⟨q, -, heq⟩ := map_eq_some_iff.1 ((hl h).symm.trans hn)
        exact (Prod.mk.inj heq).1.symm
      refine newest_eq_some (by rw [hread, if_pos ⟨hm, hgen⟩, hr]) fun g' hlt => ?_
      rw [hread, habove g' hlt, ite_self]
  · rw [if_neg hm]
    exact newest_eq_none fun g => by rw [hread, if_neg fun h' => hm h'.1]

theorem Good.collect (hg : Good hash cfg d) (rehold : Bool) (keep held : H → Bool) :
    Good hash cfg (d.apply hash cfg rehold (.collect keep held)) := by
  refine ⟨hg.inv.collect keep held, ?_, ?_⟩
  · intro h
    refine (hg.linked.newest_sweep (AttachStore.collect cfg d.store keep held).idx h).trans ?_
    change _ = ((AttachStore.collect cfg d.store keep held).idx.lookup h).map fun p => (d.gen h, p)
    by_cases hm : h ∈ (AttachStore.collect cfg d.store keep held).idx
    · rw [if_pos hm, collect_lookup keep held hm, hg.linked h]
    · rw [if_neg hm, AList.lookup_eq_none.2 hm]
      rfl
  · intro h hh
    obtain ⟨hh, hkeep⟩ := mem_filter.1 hh
    refine (hg.acked h hh).imp_left fun hm => ?_
    simp only [hm, not_true_eq_false, decide_false, Bool.false_or, decide_eq_true_eq] at hkeep
    exact hkeep

theorem Good.apply (hinj : Function.Injective hash) (hg : Good hash cfg d) (hr : Rebases cfg d.store o)
    (hf : ∀ h ∈ d.pointerTarget hash cfg rehold o, Fresh d h) : Good hash cfg (d.apply hash cfg rehold o) := by
  by_cases ho : ∃ keep held, o = .collect keep held
  · obtain ⟨keep, held, rfl⟩ := ho
    exact hg.collect rehold keep held
  have ho' : ∀ keep held, o ≠ .collect keep held := fun keep held he => ho ⟨keep, held, he⟩
  have hi := inv_step hinj o hr hg.inv
  have hacked : ∀ h ∈ acks hash cfg d.store o ++ d.acked, h ∈ (AttachStore.step hash cfg d.store o).idx ∨ h = hash [] := by
    exact forall_mem_append.2 ⟨fun h => acks_mem hg.inv, fun h hh => (hg.acked h hh).imp_left (step_mem hg.inv ho')⟩
  have happly : d.apply hash cfg rehold o =
      match d.pointerWrite hash cfg rehold o with
      | none => { d with store := AttachStore.step hash cfg d.store o, acked := acks hash cfg d.store o ++ d.acked }
      | some w =>
        { store := AttachStore.step hash cfg d.store o
          gen := Function.update d.gen w.hash (d.nextGen w.hash)
          files := d.written w w.retires
          acked := acks hash cfg d.store o ++ d.acked } := by
    cases o with
    | collect keep held => exact absurd rfl (ho' keep held)
    | _ => rfl
  rw [happly]
  cases hw : d.pointerWrite hash cfg rehold o with
  | none =>
    refine ⟨hi, fun h => ?_, hacked⟩
    exact (hg.linked h).trans (by rw [lookup_of_no_write hg.inv ho' hw])
  | some w =>
    obtain ⟨ht, -, hret⟩ := pointerWrite_some hw
    refine ⟨hi, fun h => ?_, hacked⟩
    refine (hg.linked.newest_written (hf _ ht) hret h).trans ?_
    rw [lookup_of_write hg.inv ho' hw]
    by_cases hh : h = w.hash
    · subst hh; simp
    · simp [hh, hg.linked h]

theorem good_step (hinj : Function.Injective hash) (d : Node H) (e : Event H) (he : Guarded hash cfg d e)
    (hg : Good hash cfg d) : Good hash cfg (d.step hash cfg e) := by
  cases e with
  | op rehold o => exact hg.apply hinj he.1 he.2
  | crash rehold o cut => exact hg.crash hinj he.1 he.2 cut
  | restart => exact hg.restart

theorem good_init : Good hash cfg (Node.init : Node H) :=
  ⟨inv_init, fun h => by simp [Node.init, AttachStore.init, newest, generations], nofun⟩

/-- **Acknowledged blobs survive.** In every run of operations, crashes that leave any part of the pointer write in
flight, and restarts, in which no pointer goes to a segment that already holds bytes and completed deltas respect the
chains above them, every blob an operation reported stored, and no collection removed, reads back as its bytes. -/
theorem acknowledged_blobs_survive (hash : Bytes → H) (hinj : Function.Injective hash) (cfg : Config)
    (events : List (Event H)) (hguard : Along (Node.step hash cfg) (Guarded hash cfg) Node.init events) :
    ∀ h ∈ (run (Node.step hash cfg) Node.init events).acked,
      ∃ c, hash c = h ∧ read hash cfg (run (Node.step hash cfg) Node.init events).store h = .ok c := by
  intro h hh
  have hg := run_of_step (I := Good hash cfg) (good_step hinj) hguard good_init
  rcases hg.acked h hh with hm | rfl
  · exact hg.inv.read_ok hinj hm
  · exact ⟨[], rfl, by simp [read]⟩

/-- a torn upload that a collection sweeps before it is retried, a crash that leaves a complete swap behind, the delta
turned back into a copy, and a last restart -/
def interruptedRun : List (Event Bytes) :=
  [.crash false (.upload (version 1)) .torn, .op false (.collect (fun _ => true) fun _ => false),
    .op false (.upload (version 1)), .op false (.upload (version 2)), .crash false (storeAsDelta 1 2) (.landed false),
    .op false (.inflateStep (version 1) true), .op true (.upload (version 2)), .restart]

theorem acknowledged_blobs_survive_interruptedRun :
    version 1 ∈ (run (Node.step id smallConfig) Node.init interruptedRun).acked ∧
      ∃ c, id c = version 1 ∧
        read id smallConfig (run (Node.step id smallConfig) Node.init interruptedRun).store (version 1) = .ok c :=
  ⟨by decide +kernel,
    acknowledged_blobs_survive id Function.injective_id smallConfig interruptedRun (by decide +kernel) _ (by decide +kernel)⟩

/-- **A retried pointer is lost.** An upload dies with a part of its pointer written; the next process does not see it,
takes the same upload again, appends the pointer behind the torn bytes and reports it stored. The restart after that
does not find it. A swap retried the same way loses a version that was stored before: its old pointer and its bytes are
deleted once the new pointer has been appended. -/
theorem torn_pointer_retried :
    let retried := run (Node.step id smallConfig) Node.init
      [.crash false (.upload (version 1)) .torn, .op false (.upload (version 1)), .restart]
    let swapped := run (Node.step id smallConfig) Node.init
      [.op false (.upload (version 1)), .op false (.upload (version 2)), .crash false (storeAsDelta 1 2) .torn,
        .op false (storeAsDelta 1 2), .restart]
    (version 1 ∈ retried.acked ∧ read id smallConfig retried.store (version 1) = .error .notFound) ∧
      version 1 ∈ swapped.acked ∧ read id smallConfig swapped.store (version 1) = .error .notFound := by
  decide +kernel

end Kdb.AttachStore
