/-
The in-memory blob generation (`storage/memtable/memtable.go` SortedTable and valueArena): records in first-insertion
order, their values in an append-only arena of chunks, and an index from keys to record positions.

Positions, offsets and lengths are stored as 32-bit numbers, so a generation stands for a map only while they fit.
- `SortedTable.put_stands`, `SortedTable.delete_stands`: a generation that stands for a map stands for the updated map
  after a Put or a Delete, through overwrites and the arena's compaction.
- `lookupShared_eq`, `has_eq`: what the two lookups report of that map. A key's empty value is Go's nil slice.
- `lookup_snapshotEntries`: the entries a flush writes hold the map.
Left out: the accounting of `SizeBytes` and `FootprintBytes` beyond what decides a compaction.
-/
import Kdb.Lib.Bytes
import Kdb.Lib.Entries

namespace Kdb.Memtable

open Function (update update_of_ne update_self)
open List

/-! ## The arena -/

def valueArenaMinChunk : ℕ := 4 * 1024

def valueArenaMaxChunk : ℕ := 256 * 1024

def valueArenaLargeValue : ℕ := valueArenaMaxChunk / 4

def valueArenaCompactMin : ℕ := 64 * 1024

/-- conversion to a 32-bit number -/
def u32 (n : ℕ) : ℕ := n % 2 ^ 32

/-- a chunk: its bytes and the capacity it was made with -/
structure Chunk where
  data : Bytes
  cap : ℕ

/-- `valueArena`: chunks that only grow; small values go to chunk `cur` -/
structure ValueArena where
  chunks : List Chunk
  cur : ℕ
  nextChunk : ℕ
  dead : ℤ

variable (a : ValueArena)

namespace ValueArena

/-- the zero value -/
def empty : ValueArena := ⟨[], 0, 0, 0⟩

/-- the current chunk, if there is one, has no room for `n` bytes -/
def full (n : ℕ) : Bool :=
  match a.chunks[a.cur]? with
  | none => true
  | some c => decide (c.cap - c.data.length < n)

/-- a new current chunk for a value of `n` bytes; sizes double up to the limit -/
def grow (n : ℕ) : ValueArena :=
  let next := if a.nextChunk = 0 then valueArenaMinChunk else a.nextChunk
  { a with
    chunks := a.chunks ++ [⟨[], max next n⟩]
    cur := a.chunks.length
    nextChunk := if next < valueArenaMaxChunk then next * 2 else next }

/-- the arena with room for `n` bytes in its current chunk -/
def makeRoom (n : ℕ) : ValueArena := if a.full n then a.grow n else a

/-- the value at the end of the current chunk -/
def push (v : Bytes) : ValueArena × ℕ × ℕ :=
  ({ a with chunks := a.chunks.modify a.cur fun c => { c with data := c.data ++ v } }, u32 a.cur,
    u32 ((a.chunks[a.cur]?.map fun c => c.data.length).getD 0))

/-- `append`: the value's chunk and offset. A large value gets a chunk of its own. -/
def append (v : Bytes) : ValueArena × ℕ × ℕ :=
  if v.length = 0 then (a, 0, 0)
  else if valueArenaLargeValue < v.length then
    ({ a with chunks := a.chunks ++ [⟨v, v.length⟩] }, u32 a.chunks.length, 0)
  else (a.makeRoom v.length).push v

/-- `bytes`: the value at a location -/
def bytes (chunk off n : ℕ) : Bytes :=
  if n = 0 then [] else ((a.chunks[chunk]?.map Chunk.data).getD []).slice off (u32 (off + n))

/-- the value `v` stands at the location -/
def Holds (chunk off n : ℕ) (v : Bytes) : Prop :=
  n = v.length ∧ (v = [] ∨ off + n < 2 ^ 32 ∧
    ∃ c before after, a.chunks[chunk]? = some c ∧ c.data = before ++ v ++ after ∧ before.length = off)

/-- a bound on the size of a shared chunk; the code's own is half of it -/
def chunkBound : ℕ := 2 * valueArenaMaxChunk

/-- a chunk with room left is a small one -/
structure Fits : Prop where
  next : a.nextChunk ≤ chunkBound
  room : ∀ c ∈ a.chunks, c.data.length ≤ c.cap ∧ (c.data.length = c.cap ∨ c.cap ≤ chunkBound)

theorem Fits.empty : Fits .empty := ⟨by decide, by simp [ValueArena.empty]⟩

variable {a b : ValueArena} {chunk n off : ℕ} {v : Bytes}

theorem Holds.bytes_eq (h : a.Holds chunk off n v) : a.bytes chunk off n = v := by
  obtain ⟨rfl, hv⟩ := h
  rcases hv with rfl | ⟨hlt, c, before, after, hc, hdata, rfl⟩
  · rfl
  · unfold bytes
    split_ifs with hn
    · exact (length_eq_zero_iff.1 hn).symm
    · rw [u32, Nat.mod_eq_of_lt hlt, hc]
      simp only [Option.map_some, Option.getD_some, hdata, append_assoc]
      rw [Bytes.slice_mid]

/-- every chunk of `a` is a start of the chunk of `b` in its place -/
def Grows (a b : ValueArena) : Prop :=
  ∀ (i : ℕ) (c : Chunk), a.chunks[i]? = some c → ∃ (c' : Chunk) (w : Bytes), b.chunks[i]? = some c' ∧ c'.data = c.data ++ w

theorem Grows.trans {c : ValueArena} (h₁ : Grows a b) (h₂ : Grows b c) : Grows a c := by
  intro i x hx
  obtain ⟨y, w, hy, hyd⟩ := h₁ i x hx
  obtain ⟨z, w', hz, hzd⟩ := h₂ i y hy
  exact ⟨z, w ++ w', hz, by rw [hzd, hyd, append_assoc]⟩

theorem Holds.mono (hg : Grows a b) (h : a.Holds chunk off n v) : b.Holds chunk off n v := by
  obtain ⟨hn, hv⟩ := h
  refine ⟨hn, hv.imp id ?_⟩
  rintro ⟨hlt, c, before, after, hc, hdata, hoff⟩
  obtain ⟨c', w, hc', hd'⟩ := hg chunk c hc
  exact ⟨hlt, c', before, after ++ w, hc', by rw [hd', hdata, append_assoc], hoff⟩

theorem grows_concat (a : ValueArena) (c : Chunk) (cur next : ℕ) :
    Grows a { a with chunks := a.chunks ++ [c], cur := cur, nextChunk := next } := by
  intro i x hx
  refine ⟨x, [], ?_, by simp⟩
  rw [List.getElem?_append_left (List.getElem?_eq_some_iff.1 hx).1]
  exact hx

theorem grows_modify (a : ValueArena) (i : ℕ) (v : Bytes) :
    Grows a { a with chunks := a.chunks.modify i fun c => { c with data := c.data ++ v } } := by
  intro j x hx
  by_cases h : i = j
  · subst h
    exact ⟨{ x with data := x.data ++ v }, v, by simp [hx], rfl⟩
  · exact ⟨x, [], by simp [hx, h], by simp⟩

/-- what an append does: the arena grows by at most a chunk and the value stands at the location returned -/
structure Appended (a : ValueArena) (v : Bytes) (r : ValueArena × ℕ × ℕ) : Prop where
  fits : r.1.Fits
  grows : Grows a r.1
  dead : r.1.dead = a.dead
  chunks : r.1.chunks.length ≤ a.chunks.length + 1
  holds : r.1.Holds r.2.1 r.2.2 (u32 v.length) v

/-- with room made, the current chunk is there, small, and has the room -/
structure Ready (a b : ValueArena) (n : ℕ) : Prop where
  fits : b.Fits
  grows : Grows a b
  dead : b.dead = a.dead
  chunks : b.chunks.length ≤ a.chunks.length + 1
  current : ∃ c, b.chunks[b.cur]? = some c ∧ c.data.length + n ≤ c.cap ∧ c.cap ≤ chunkBound

theorem Grows.refl (a : ValueArena) : Grows a a := fun _ x hx => ⟨x, [], hx, by simp⟩

theorem grow_ready (h : a.Fits) (hn : n ≤ valueArenaLargeValue) : Ready a (a.grow n) n := by
  have hlarge : valueArenaLargeValue ≤ chunkBound := by decide
  have hmax : valueArenaMaxChunk * 2 = chunkBound := by decide
  have hnext : (if a.nextChunk = 0 then valueArenaMinChunk else a.nextChunk) ≤ chunkBound := by
    split
    · decide
    · exact h.next
  have hsize := max_le hnext (hn.trans hlarge)
  refine ⟨⟨?_, ?_⟩, grows_concat a _ _ _, rfl, by simp [grow], ⟨[], _⟩, List.getElem?_concat_length, ?_, hsize⟩
  · simp only [grow]
    generalize (if a.nextChunk = 0 then valueArenaMinChunk else a.nextChunk) = next at hnext
    split <;> omega
  · exact forall_mem_append.2 ⟨h.room, forall_mem_singleton.2 ⟨Nat.zero_le _, .inr hsize⟩⟩
  · simp

theorem makeRoom_ready (h : a.Fits) (hn : n ≤ valueArenaLargeValue) (hpos : 0 < n) : Ready a (a.makeRoom n) n := by
  unfold makeRoom
  split
  · exact grow_ready h hn
  · rename_i hfull
    unfold full at hfull
    cases hc : a.chunks[a.cur]? with
    | none => simp [hc] at hfull
    | some c =>
      simp only [hc, decide_eq_true_eq] at hfull
      obtain ⟨hle, hsmall⟩ := h.room c (mem_of_getElem? hc)
      refine ⟨h, .refl a, rfl, Nat.le_succ _, c, hc, by omega, ?_⟩
      -- a chunk with room is not one of the large values'
      rcases hsmall with heq | hsmall
      · omega
      · exact hsmall

theorem push_appended (h : Ready a b v.length) (hv : v.length < 2 ^ 32) (hroom : a.chunks.length < 2 ^ 32) :
    Appended a v (b.push v) := by
  obtain ⟨hfits, hgrows, hdead, hlen, c, hc, hfit, hcap⟩ := h
  have hbound : chunkBound < 2 ^ 32 := by decide
  have hcur := (List.getElem?_eq_some_iff.1 hc).1
  have hoff : u32 ((b.chunks[b.cur]?.map fun c => c.data.length).getD 0) = c.data.length := by
    rw [hc]
    exact Nat.mod_eq_of_lt (show c.data.length < 2 ^ 32 by omega)
  have hu : u32 v.length = v.length := Nat.mod_eq_of_lt hv
  refine ⟨⟨hfits.next, ?_⟩, hgrows.trans (grows_modify b b.cur v), hdead, ?_, hu, .inr ?_⟩
  · intro x hx
    obtain ⟨i, hi⟩ := mem_iff_getElem?.1 hx
    by_cases hicur : b.cur = i
    · obtain rfl : { c with data := c.data ++ v } = x := by simpa [push, ← hicur, hc] using hi
      exact ⟨by simpa using hfit, .inr hcap⟩
    · exact hfits.room x (mem_of_getElem? (by simpa [push, hicur] using hi))
  · simpa [push] using hlen
  · simp only [push, hoff]
    refine ⟨by omega, { c with data := c.data ++ v }, c.data, [], ?_, by simp, rfl⟩
    rw [u32, Nat.mod_eq_of_lt (by omega)]
    simp [hc]

theorem append_appended (h : a.Fits) (hv : v.length < 2 ^ 32) (hroom : a.chunks.length < 2 ^ 32) : Appended a v (a.append v) := by
  have hu : u32 v.length = v.length := Nat.mod_eq_of_lt hv
  unfold append
  split
  · rename_i h0
    exact ⟨h, .refl a, rfl, Nat.le_succ _, hu, .inl (length_eq_zero_iff.1 h0)⟩
  · split
    · refine ⟨⟨h.next, ?_⟩, grows_concat a _ _ _, rfl, by simp, hu, .inr ⟨?_, ⟨v, v.length⟩, [], [], ?_, by simp, rfl⟩⟩
      · exact forall_mem_append.2 ⟨h.room, forall_mem_singleton.2 ⟨le_rfl, .inl rfl⟩⟩
      · rw [hu]
        simpa using hv
      · rw [u32, Nat.mod_eq_of_lt hroom]
        exact List.getElem?_concat_length
    · exact push_appended (makeRoom_ready h (by omega) (by omega)) hv hroom

end ValueArena

/-! ## The table -/

/-- `memRec`: where a key's value is, or that the key is deleted -/
structure MemRec (κ : Type) where
  key : κ
  chunk : ℕ
  off : ℕ
  n : ℕ
  deleted : Bool

structure SortedTable (κ : Type) where
  index : κ → Option ℕ
  recs : List (MemRec κ)
  arena : ValueArena
  live : ℤ

/-- Go's slice of a value: the empty one is nil -/
def sliceOf (v : Bytes) : Option Bytes := if v = [] then none else some v

namespace SortedTable

variable {κ : Type} [DecidableEq κ]

/-- `NewSortedTable` -/
def new : SortedTable κ := ⟨fun _ => none, [], .empty, 0⟩

variable (m : SortedTable κ)

/-- `release`: the record's value is dead -/
def release (r : MemRec κ) : SortedTable κ :=
  if r.deleted then m
  else { m with live := m.live - r.n, arena := { m.arena with dead := m.arena.dead + r.n } }

/-- the loop of `maybeCompact`: live values are copied to the fresh arena -/
def recopy (arena : ValueArena) : List (MemRec κ) → ValueArena → List (MemRec κ) × ValueArena
  | [], fresh => ([], fresh)
  | r :: recs, fresh =>
    if r.deleted then
      let rest := recopy arena recs fresh
      (r :: rest.1, rest.2)
    else
      let a := fresh.append (arena.bytes r.chunk r.off r.n)
      let rest := recopy arena recs a.1
      ({ r with chunk := a.2.1, off := a.2.2 } :: rest.1, rest.2)

def maybeCompact : SortedTable κ :=
  if m.arena.dead < valueArenaCompactMin ∨ m.arena.dead < m.live then m
  else
    let r := recopy m.arena m.recs .empty
    { m with recs := r.1, arena := r.2 }

/-- record `i` now holds `v` -/
def overwrite (i : ℕ) (r : MemRec κ) (v : Bytes) : SortedTable κ :=
  let a := m.arena.append v
  { m with
    arena := a.1
    recs := m.recs.set i { r with chunk := a.2.1, off := a.2.2, n := u32 v.length, deleted := false }
    live := m.live + v.length }

variable (key : κ)

def put (value : Bytes) : SortedTable κ :=
  match m.index key with
  | some i =>
    match m.recs[i]? with
    | none => m
    | some r =>
      if r.deleted = false ∧ m.arena.bytes r.chunk r.off r.n = value then m
      else ((m.release r).overwrite i r value).maybeCompact
  | none =>
    let a := m.arena.append value
    { m with
      arena := a.1
      index := update m.index key (some (u32 m.recs.length))
      recs := m.recs ++ [⟨key, a.2.1, a.2.2, u32 value.length, false⟩]
      live := m.live + value.length }

def delete : SortedTable κ :=
  match m.index key with
  | some i =>
    match m.recs[i]? with
    | none => m
    | some r =>
      let m := m.release r
      { m with recs := m.recs.set i { r with chunk := 0, off := 0, n := 0, deleted := true } }.maybeCompact
  | none =>
    { m with
      index := update m.index key (some (u32 m.recs.length))
      recs := m.recs ++ [⟨key, 0, 0, 0, true⟩] }

/-- `lookupShared`: the value, whether the key is deleted, whether the table has seen it -/
def lookupShared : Option Bytes × Bool × Bool :=
  match (m.index key).bind fun i => m.recs[i]? with
  | none => (none, false, false)
  | some r =>
    if r.deleted then (none, true, true)
    else if r.n = 0 then (none, false, true)
    else (some (m.arena.bytes r.chunk r.off r.n), false, true)

def has : Bool × Bool :=
  match (m.index key).bind fun i => m.recs[i]? with
  | none => (false, false)
  | some r => (r.deleted, true)

/-- `snapshotEntries`: each key with its value, `none` for a deleted one, in insertion order -/
def snapshotEntries : List (κ × Option Bytes) :=
  m.recs.map fun r => (r.key, if r.deleted then none else some (m.arena.bytes r.chunk r.off r.n))

/-! ## The map a table stands for -/

/-- the record stands for a value, or for a deletion -/
def Records (a : ValueArena) (r : MemRec κ) : Option Bytes → Prop
  | none => r.deleted = true
  | some v => r.deleted = false ∧ a.Holds r.chunk r.off r.n v

/-- the table stands for the partial map `f`; `some none` is a deletion -/
structure Stands (f : κ → Option (Option Bytes)) : Prop where
  fits : m.arena.Fits
  index : ∀ (k : κ) (i : ℕ), m.index k = some i ↔ ∃ r, m.recs[i]? = some r ∧ r.key = k
  recs : ∀ (i : ℕ) (r : MemRec κ), m.recs[i]? = some r → ∃ o, f r.key = some o ∧ Records m.arena r o
  other : ∀ k, m.index k = none → f k = none

/-- positions of records and chunks fit in 32 bits -/
def Roomy : Prop := m.recs.length < 2 ^ 32 ∧ m.arena.chunks.length < 2 ^ 32
  deriving Decidable

variable {a arena : ValueArena} {o : Option Bytes} {r : MemRec κ} {v : Bytes}
  {m : SortedTable κ} {f : κ → Option (Option Bytes)}

section

omit [DecidableEq κ]

theorem new_stands : (new : SortedTable κ).Stands fun _ => none :=
  ⟨.empty, by simp [new], by simp [new], fun _ _ => rfl⟩

theorem Records.mono {b : ValueArena} (hg : a.Grows b) (h : Records a r o) : Records b r o := by
  cases o with
  | none => exact h
  | some v => exact ⟨h.1, h.2.mono hg⟩

theorem release_recs (m : SortedTable κ) (r : MemRec κ) : (m.release r).recs = m.recs := by
  unfold release
  split <;> rfl

theorem Stands.release {m : SortedTable κ} {f : κ → Option (Option Bytes)} (h : m.Stands f) (r : MemRec κ) :
    (m.release r).Stands f := by
  unfold SortedTable.release
  split
  · exact h
  · exact ⟨⟨h.fits.next, h.fits.room⟩, h.index, h.recs, h.other⟩

theorem Stands.index_key (h : m.Stands f) {i : ℕ} (hr : m.recs[i]? = some r) : m.index r.key = some i :=
  (h.index r.key i).2 ⟨r, hr, rfl⟩

/-! ### Compaction of the arena -/

theorem Records.length_lt (h : Records a r (some v)) : v.length < 2 ^ 32 := by
  obtain ⟨-, hn, hv⟩ := h
  rcases hv with rfl | ⟨hlt, -⟩
  · simp
  · omega

/-- the copy loop: each record keeps its key and what it stands for -/
theorem recopy_records (arena : ValueArena) {recs : List (MemRec κ)} (hrecs : ∀ r ∈ recs, ∃ o, Records arena r o)
    {fresh : ValueArena} (hf : fresh.Fits) (hroom : fresh.chunks.length + recs.length ≤ 2 ^ 32) :
    (recopy arena recs fresh).2.Fits ∧ fresh.Grows (recopy arena recs fresh).2 ∧ ∀ i : ℕ, Option.Rel
        (fun r r' => r'.key = r.key ∧ ∀ o, Records arena r o → Records (recopy arena recs fresh).2 r' o)
        recs[i]? (recopy arena recs fresh).1[i]? := by
  induction recs generalizing fresh with
  | nil => exact ⟨hf, .refl fresh, fun _ => .none⟩
  | cons r recs ih =>
    have htail : ∀ r ∈ recs, ∃ o, Records arena r o := fun x hx => hrecs x (.tail _ hx)
    simp only [length_cons] at hroom
    obtain ⟨o, ho⟩ := hrecs r (.head _)
    cases o with
    | none =>
      have hdel : r.deleted = true := ho
      obtain ⟨h1, h2, h3⟩ := ih htail hf (by omega)
      simp only [recopy, hdel]
      refine ⟨h1, h2, fun i => ?_⟩
      cases i with
      | succ i => exact h3 i
      | zero =>
        refine .some ⟨rfl, fun o' ho' => ?_⟩
        cases o' with
        | none => exact hdel
        | some v => exact absurd (ho'.1.symm.trans hdel) (by decide)
    | some v =>
      have hdel : r.deleted = false := ho.1
      have happ := ValueArena.append_appended hf (v := v) ho.length_lt (by omega)
      have hbytes : arena.bytes r.chunk r.off r.n = v := ho.2.bytes_eq
      obtain ⟨h1, h2, h3⟩ := ih htail happ.fits (by have := happ.chunks; omega)
      simp only [recopy, hdel, hbytes]
      refine ⟨h1, happ.grows.trans h2, fun i => ?_⟩
      cases i with
      | succ i => exact h3 i
      | zero =>
        refine .some ⟨rfl, fun o' ho' => ?_⟩
        cases o' with
        | none => exact absurd (hdel.symm.trans ho') (by decide)
        | some w =>
          obtain rfl : v = w := ho.2.bytes_eq.symm.trans ho'.2.bytes_eq
          have hn : u32 v.length = r.n := (Nat.mod_eq_of_lt ho.length_lt).trans ho.2.1.symm
          have hholds := happ.holds.mono h2
          rw [hn] at hholds
          exact ⟨rfl, hholds⟩

theorem Stands.maybeCompact (h : m.Stands f) (hroom : m.recs.length ≤ 2 ^ 32) : m.maybeCompact.Stands f := by
  unfold SortedTable.maybeCompact
  split
  · exact h
  · have hrecs : ∀ r ∈ m.recs, ∃ o, Records m.arena r o := by
      intro r hr
      obtain ⟨i, hi⟩ := mem_iff_getElem?.1 hr
      obtain ⟨o, -, ho⟩ := h.recs i r hi
      exact ⟨o, ho⟩
    obtain ⟨hfits, -, hall⟩ := recopy_records m.arena hrecs ValueArena.Fits.empty (by simpa [ValueArena.empty] using hroom)
    have hforth : ∀ {i : ℕ} {r : MemRec κ}, m.recs[i]? = some r →
        ∃ r', (recopy m.arena m.recs .empty).1[i]? = some r' ∧ r'.key = r.key := by
      intro i r hr
      have hrel := hall i
      rw [hr] at hrel
      cases hrel' : (recopy m.arena m.recs .empty).1[i]? with
      | none => rw [hrel'] at hrel; cases hrel
      | some r' =>
        rw [hrel'] at hrel
        cases hrel with
        | some hsame => exact ⟨r', rfl, hsame.1⟩
    have hback : ∀ {i : ℕ} {r' : MemRec κ}, (recopy m.arena m.recs .empty).1[i]? = some r' →
        ∃ r, m.recs[i]? = some r ∧ r'.key = r.key ∧
          ∀ o, Records m.arena r o → Records (recopy m.arena m.recs .empty).2 r' o := by
      intro i r' hr'
      have hrel := hall i
      rw [hr'] at hrel
      cases hold : m.recs[i]? with
      | none => rw [hold] at hrel; cases hrel
      | some r =>
        rw [hold] at hrel
        cases hrel with
        | some hsame => exact ⟨r, rfl, hsame⟩
    refine ⟨hfits, fun k i => ?_, fun i r' hr' => ?_, h.other⟩
    · rw [h.index k i]
      constructor
      · rintro ⟨r, hr, rfl⟩
        exact hforth hr
      · rintro ⟨r', hr', rfl⟩
        obtain ⟨r, hr, hkey, -⟩ := hback hr'
        exact ⟨r, hr, hkey.symm⟩
    · obtain ⟨r, hr, hkey, hrec⟩ := hback hr'
      obtain ⟨o, ho, hro⟩ := h.recs i r hr
      exact ⟨o, by rw [hkey, ho], hrec o hro⟩

end

/-! ### Put and Delete -/

/-- a record replaced: the map changes at its key -/
theorem Stands.set (h : m.Stands f) {i : ℕ} (hr : m.recs[i]? = some r) (r' : MemRec κ) (hkey : r'.key = r.key)
    (hfits : arena.Fits) (hgrows : m.arena.Grows arena) (ho : Records arena r' o) (live : ℤ) :
    SortedTable.Stands { m with arena := arena, recs := m.recs.set i r', live := live }
      (update f r.key (some o)) := by
  have hget : ∀ (j : ℕ) (x : MemRec κ), (m.recs.set i r')[j]? = some x ↔
      j = i ∧ x = r' ∨ j ≠ i ∧ m.recs[j]? = some x := by
    intro j x
    have hi := (List.getElem?_eq_some_iff.1 hr).1
    by_cases hij : i = j
    · subst hij
      simp [List.getElem?_set_self hi, eq_comm]
    · simp [List.getElem?_set_ne hij, Ne.symm hij]
  have hother : ∀ {j : ℕ} {x : MemRec κ}, j ≠ i → m.recs[j]? = some x → x.key ≠ r.key := by
    intro j x hij hx he
    have hsame := (h.index_key hx).symm.trans ((congrArg m.index he).trans (h.index_key hr))
    exact hij (Option.some.inj hsame)
  refine ⟨hfits, fun k j => ?_, fun j x hx => ?_, fun k hk => ?_⟩
  · rw [h.index k j]
    simp only [hget]
    by_cases hij : j = i
    · subst hij
      simp [hr, hkey]
    · simp [hij]
  · rcases (hget j x).1 hx with ⟨rfl, rfl⟩ | ⟨hij, hx⟩
    · exact ⟨o, by rw [hkey, update_self], ho⟩
    · obtain ⟨o', ho', hrec⟩ := h.recs j x hx
      exact ⟨o', by rw [update_of_ne (hother hij hx), ho'], hrec.mono hgrows⟩
  · have hne : k ≠ r.key := by
      rintro rfl
      rw [h.index_key hr] at hk
      cases hk
    rw [update_of_ne hne]
    exact h.other k hk

/-- a record added under a key not seen before -/
theorem Stands.concat (h : m.Stands f) (hnew : m.index r.key = none) (hroom : m.recs.length < 2 ^ 32)
    (hfits : arena.Fits) (hgrows : m.arena.Grows arena) (ho : Records arena r o) (live : ℤ) :
    SortedTable.Stands ⟨update m.index r.key (some (u32 m.recs.length)), m.recs ++ [r], arena, live⟩
      (update f r.key (some o)) := by
  have hget : ∀ (j : ℕ) (x : MemRec κ), (m.recs ++ [r])[j]? = some x ↔
      m.recs[j]? = some x ∨ j = m.recs.length ∧ x = r := by
    intro j x
    rcases lt_trichotomy j m.recs.length with hj | rfl | hj
    · simp [List.getElem?_append_left hj, hj.ne]
    · simp [eq_comm]
    · simp [List.getElem?_eq_none, hj.le, hj.ne', Nat.succ_le_of_lt hj]
  have hother : ∀ {j : ℕ} {x : MemRec κ}, m.recs[j]? = some x → x.key ≠ r.key := by
    intro j x hx he
    rw [← he, h.index_key hx] at hnew
    cases hnew
  have hlen : u32 m.recs.length = m.recs.length := Nat.mod_eq_of_lt hroom
  refine ⟨hfits, fun k j => ?_, fun j x hx => ?_, fun k hk => ?_⟩
  · simp only [hget, hlen]
    by_cases hk : k = r.key
    · subst hk
      rw [update_self]
      constructor
      · intro he
        exact ⟨r, .inr ⟨(Option.some.inj he).symm, rfl⟩, rfl⟩
      · rintro ⟨x, hx | ⟨rfl, rfl⟩, hxk⟩
        · exact absurd hxk (hother hx)
        · rfl
    · rw [update_of_ne hk, h.index k j]
      constructor
      · rintro ⟨x, hx, hxk⟩
        exact ⟨x, .inl hx, hxk⟩
      · rintro ⟨x, hx | ⟨-, rfl⟩, hxk⟩
        · exact ⟨x, hx, hxk⟩
        · exact absurd hxk.symm hk
  · rcases (hget j x).1 hx with hx | ⟨-, rfl⟩
    · obtain ⟨o', ho', hrec⟩ := h.recs j x hx
      exact ⟨o', by rw [update_of_ne (hother hx), ho'], hrec.mono hgrows⟩
    · exact ⟨o, update_self .., ho⟩
  · have hne : k ≠ r.key := by
      rintro rfl
      simp at hk
    rw [update_of_ne hne]
    exact h.other k (by simpa only [update_of_ne hne] using hk)

/-- **Put.** -/
theorem put_stands (h : m.Stands f) (hroom : m.Roomy) (k : κ) (hv : v.length < 2 ^ 32) :
    (m.put k v).Stands (update f k (some (some v))) := by
  unfold put
  cases hidx : m.index k with
  | none =>
    have happ := ValueArena.append_appended h.fits hv hroom.2
    exact h.concat (r := ⟨k, _, _, _, false⟩) hidx hroom.1 happ.fits happ.grows (o := some v) ⟨rfl, happ.holds⟩ _
  | some i =>
    obtain ⟨r, hr, rfl⟩ := (h.index k i).1 hidx
    simp only [hr]
    split
    · -- the bytes the key already holds
      rename_i hsame
      obtain ⟨o, ho, hrec⟩ := h.recs i r hr
      have ho' : o = some v := by
        cases o with
        | none => exact absurd (hsame.1.symm.trans hrec) (by decide)
        | some w => rw [← hrec.2.bytes_eq, hsame.2]
      rw [← ho', ← ho, Function.update_eq_self]
      exact h
    · have hrel := h.release r
      have happ : ValueArena.Appended (m.release r).arena v ((m.release r).arena.append v) := by
        apply ValueArena.append_appended hrel.fits hv
        rw [SortedTable.release]
        split <;> exact hroom.2
      have hr' : (m.release r).recs[i]? = some r := by rwa [release_recs]
      have hset := hrel.set hr' ⟨r.key, _, _, _, false⟩ rfl happ.fits happ.grows (o := some v) ⟨rfl, happ.holds⟩
        ((m.release r).live + v.length)
      apply Stands.maybeCompact hset
      simpa [release_recs] using hroom.1.le

/-- **Delete.** -/
theorem delete_stands (h : m.Stands f) (hroom : m.Roomy) (k : κ) : (m.delete k).Stands (update f k (some none)) := by
  unfold delete
  cases hidx : m.index k with
  | none => exact h.concat (r := ⟨k, 0, 0, 0, true⟩) hidx hroom.1 h.fits (.refl _) (o := none) rfl m.live
  | some i =>
    obtain ⟨r, hr, rfl⟩ := (h.index k i).1 hidx
    simp only [hr]
    have hr' : (m.release r).recs[i]? = some r := by rwa [release_recs]
    have hset := (h.release r).set hr' ⟨r.key, 0, 0, 0, true⟩ rfl (h.release r).fits (.refl _) (o := none) rfl
      (m.release r).live
    apply Stands.maybeCompact hset
    simpa [release_recs] using hroom.1.le

/-! ### Reading -/

section

variable (h : m.Stands f)
include h

section

omit [DecidableEq κ]

theorem Stands.find (k : κ) : (((m.index k).bind fun i => m.recs[i]?) = none ∧ f k = none) ∨
      ∃ r o, ((m.index k).bind fun i => m.recs[i]?) = some r ∧ f k = some o ∧ Records m.arena r o := by
  cases hidx : m.index k with
  | none => exact .inl ⟨rfl, h.other k hidx⟩
  | some i =>
    obtain ⟨r, hr, rfl⟩ := (h.index k i).1 hidx
    obtain ⟨o, ho, hrec⟩ := h.recs i r hr
    exact .inr ⟨r, o, hr, ho, hrec⟩

theorem lookupShared_eq (k : κ) : m.lookupShared k = match f k with
      | none => (none, false, false)
      | some none => (none, true, true)
      | some (some v) => (sliceOf v, false, true) := by
  unfold lookupShared
  rcases h.find k with ⟨hr, hk⟩ | ⟨r, o, hr, hk, hrec⟩
  · rw [hr, hk]
  · rw [hr, hk]
    cases o with
    | none => simp [show r.deleted = true from hrec]
    | some v =>
      obtain ⟨hdel, hholds⟩ := hrec
      have hn : r.n = 0 ↔ v = [] := by rw [hholds.1, length_eq_zero_iff]
      simp only [hdel, Bool.false_eq_true, if_false, hn, hholds.bytes_eq, sliceOf]
      split <;> rfl

theorem has_eq (k : κ) : m.has k = match f k with
      | none => (false, false)
      | some none => (true, true)
      | some (some _) => (false, true) := by
  unfold has
  rcases h.find k with ⟨hr, hk⟩ | ⟨r, o, hr, hk, hrec⟩
  · rw [hr, hk]
  · rw [hr, hk]
    cases o with
    | none => simp [show r.deleted = true from hrec]
    | some v => simp [hrec.1]

theorem nodup_snapshotEntries : (m.snapshotEntries.map Prod.fst).Nodup := by
  have hmap : m.snapshotEntries.map Prod.fst = m.recs.map MemRec.key := by
    simp [snapshotEntries]
  rw [hmap, List.Nodup, pairwise_map, pairwise_iff_getElem]
  intro i j hi hj hij he
  have hsame := (h.index_key (List.getElem?_eq_getElem hi)).symm.trans
    ((congrArg m.index he).trans (h.index_key (List.getElem?_eq_getElem hj)))
  exact hij.ne (Option.some.inj hsame)

end

/-- **What a flush writes.** The entries of a snapshot hold the map. -/
theorem lookup_snapshotEntries (k : κ) : m.snapshotEntries.lookup k = f k := by
  have hentry : ∀ {i : ℕ} {r : MemRec κ}, m.recs[i]? = some r → ∃ o, f r.key = some o ∧ (r.key, o) ∈ m.snapshotEntries := by
    intro i r hr
    obtain ⟨o, ho, hrec⟩ := h.recs i r hr
    refine ⟨o, ho, mem_map.2 ⟨r, mem_of_getElem? hr, ?_⟩⟩
    cases o with
    | none => simp [show r.deleted = true from hrec]
    | some v => simp [hrec.1, hrec.2.bytes_eq]
  cases hidx : m.index k with
  | some i =>
    obtain ⟨r, hr, rfl⟩ := (h.index k i).1 hidx
    obtain ⟨o, ho, hmem⟩ := hentry hr
    rw [ho, Entries.lookup_eq_some_iff (nodup_snapshotEntries h)]
    exact hmem
  | none =>
    rw [h.other k hidx, Entries.lookup_eq_none_iff]
    intro hmem
    obtain ⟨e, he, rfl⟩ := mem_map.1 hmem
    obtain ⟨r, hr, rfl⟩ := mem_map.1 he
    obtain ⟨i, hi⟩ := mem_iff_getElem?.1 hr
    rw [h.index_key hi] at hidx
    cases hidx

end

end SortedTable

end Kdb.Memtable
