/-
Uploads and garbage collection side by side (`storage/attachstore/store.go`: `Upload`, `writeLeaves`, `holdLocked`,
`Committed`, `Collect`).

The index and the segments are those of `Kdb.Storage.AttachStore`. Any number of uploads are under way, each cut into
the steps between which another upload or a collection can run: a `Write` fills the chunk at hand, names and claims the
segment, appends to it; `Finish` appends the rest, seals, claims and writes the leaves, gives that claim up, names both
segments in a pointer, and gives up its other claim. A collection spares what a pointer names and what is claimed.

- `finished_upload_readable`: a finished upload reads back until its hold ends, when no collection runs while some
  `Finish` is between the end of `writeLeaves` and its pointer.
- `leaves_collected_before_pointer`: in that window a collection deletes the leaves.
A hold ends with its grace, when a commit is durable, or when a collection sees the blob referenced. A collection reads the
clock before it takes the lock, so its time may be in the past. Pointer segments are written and swept under the lock, and
are left out, as are open readers; a step that fails is `fail`, whatever made it fail.
-/
import Kdb.Storage.AttachStore

namespace Kdb.AttachUpload

open Machine AttachStore List Option

variable {H : Type} [DecidableEq H]

/-! ## The steps -/

/-- where an upload is. `leavesDone` is between the return of `writeLeaves` and the pointer. -/
inductive Phase where
  | writing
  | finishing
  | closed
  | leavesClaimed
  | leavesWritten
  | leavesDone
  | published
  | done
  deriving DecidableEq

/-- `Upload`: the chunk being filled, and what its segment holds -/
structure Upload where
  cur : AttachStore.Bytes
  stored : AttachStore.Bytes
  segment : Option Name
  leaves : Option Name
  phase : Phase

variable (u : Upload)

/-- the bytes written so far -/
def Upload.content : AttachStore.Bytes := u.stored ++ u.cur

def Upload.names : List Name := u.segment.toList ++ u.leaves.toList

/-- the store with the uploads under way. `finished` is every upload whose `Finish` returned success, with the time. -/
structure Server (H : Type) where
  store : Store H
  claims : List Name
  held : H → Option ℕ
  clock : ℕ
  ups : List Upload
  finished : List (AttachStore.Bytes × ℕ)

/-- a store nobody is uploading to -/
def Server.new (s : Store H) : Server H := ⟨s, [], fun _ => none, 0, [], []⟩

inductive Label (H : Type) where
  | begin
  | fill (t : ℕ) (p : AttachStore.Bytes)
  | claim (t : ℕ)
  | flush (t : ℕ)
  | finish (t : ℕ)
  | close (t : ℕ)
  | claimLeaves (t : ℕ)
  | writeLeaves (t : ℕ)
  | unclaimLeaves (t : ℕ)
  | publishSmall (t : ℕ)
  | publish (t : ℕ)
  | release (t : ℕ)
  | fail (t : ℕ)
  | committed (hashes : List H)
  | tick (d : ℕ)
  | collect (keep : H → Bool) (lag : ℕ)

/-- `AppendToSegment` -/
def appendTo (s : Store H) (n : Name) (b : AttachStore.Bytes) : Store H :=
  s.writeSegment n (.whole (match s.segs n with
    | some (.whole c) => c ++ b
    | _ => b))

/-- a claim given up -/
def unclaim (claims : List Name) (n : Option Name) : List Name := claims.filter fun m => n ≠ some m

/-- `DeleteSegment` of a segment that may not have been named yet -/
def deleteNamed (s : Store H) : Option Name → Store H
  | none => s
  | some n => s.deleteSegment n

/-- `newSegmentName` and the claim on it -/
def Server.newName (n : Server H) : Server H :=
  { n with store := { n.store with next := n.store.next + 1 }, claims := n.store.next :: n.claims }

/-- an upload's next state -/
def Server.put (n : Server H) (t : ℕ) (u : Upload) : Server H := { n with ups := n.ups.set t u }

variable (hash : AttachStore.Bytes → H)

/-- `Finish` returns success, and the blob is held from now -/
def Server.succeed (n : Server H) (t : ℕ) (u : Upload) (s : Store H) : Server H :=
  { n with
    store := s
    held := Function.update n.held (hash u.content) (some n.clock)
    ups := n.ups.set t { u with phase := .published }
    finished := (u.content, n.clock) :: n.finished }

variable (cfg : Config)

/-- the flushes that are due: a full chunk while writing, the rest while finishing -/
def Upload.due : Prop :=
  (u.phase = .writing ∧ u.cur.length = chunk) ∨
    (u.phase = .finishing ∧ u.cur ≠ [] ∧ (u.segment ≠ none ∨ cfg.smallMaxBytes < u.cur.length))
  deriving Decidable

/-- `Finish` has not yet come to its pointer -/
def Upload.pending : Prop := u.phase ≠ .published ∧ u.phase ≠ .done
  deriving Decidable

/-- one step of upload `t`; a step that is not due changes nothing -/
def Server.act (n : Server H) (t : ℕ) (u : Upload) : Label H → Server H
  | .fill _ p =>
    if u.phase = .writing ∧ u.cur.length + p.length ≤ chunk ∧
        (cfg.maxBytes = 0 ∨ u.content.length + p.length ≤ cfg.maxBytes) then n.put t { u with cur := u.cur ++ p }
    else n
  | .claim _ => if u.segment = none ∧ u.due cfg then n.newName.put t { u with segment := some n.store.next } else n
  | .flush _ =>
    match u.segment with
    | none => n
    | some m =>
      if u.due cfg then
        { n with store := appendTo n.store m u.cur }.put t { u with stored := u.stored ++ u.cur, cur := [] }
      else n
  | .finish _ => if u.phase = .writing ∧ u.cur.length < chunk then n.put t { u with phase := .finishing } else n
  | .close _ =>
    if u.phase = .finishing ∧ u.segment ≠ none ∧ u.cur = [] then n.put t { u with phase := .closed } else n
  | .claimLeaves _ =>
    if u.phase = .closed then n.newName.put t { u with leaves := some n.store.next, phase := .leavesClaimed } else n
  | .writeLeaves _ =>
    match u.leaves with
    | none => n
    | some m =>
      if u.phase = .leavesClaimed then
        { n with store := n.store.writeSegment m (.leaves (hash u.content)) }.put t { u with phase := .leavesWritten }
      else n
  | .unclaimLeaves _ =>
    if u.phase = .leavesWritten then
      { n with claims := unclaim n.claims u.leaves }.put t { u with phase := .leavesDone }
    else n
  | .publishSmall _ =>
    if u.phase = .finishing ∧ u.segment = none ∧ u.cur.length ≤ cfg.smallMaxBytes then
      -- an empty attachment is never stored
      if u.content = [] then
        { n.put t { u with phase := .published } with finished := (u.content, n.clock) :: n.finished }
      else if hash u.content ∈ n.store.idx then n.succeed hash t u n.store
      else n.succeed hash t u (n.store.setPointer (hash u.content) ⟨u.content.length, .inline u.content⟩)
    else n
  | .publish _ =>
    match u.segment, u.leaves with
    | some m, some l =>
      if u.phase = .leavesDone then
        -- already stored: keep the one copy
        if hash u.content ∈ n.store.idx then n.succeed hash t u ((n.store.deleteSegment m).deleteSegment l)
        else n.succeed hash t u (n.store.setPointer (hash u.content) ⟨u.content.length, .whole m l⟩)
      else n
    | _, _ => n
  | .release _ =>
    if u.phase = .published then { n with claims := unclaim n.claims u.segment }.put t { u with phase := .done } else n
  | .fail _ =>
    if u.pending then
      { n with
        store := if u.phase = Phase.leavesDone then n.store else deleteNamed n.store u.segment
        claims := unclaim (unclaim n.claims u.segment) u.leaves }.put t { u with phase := .done }
    else n
  | _ => n

/-- the upload a step belongs to -/
def Label.upload : Label H → Option ℕ
  | .fill t _ | .claim t | .flush t | .finish t | .close t | .claimLeaves t | .writeLeaves t | .unclaimLeaves t
  | .publishSmall t | .publish t | .release t | .fail t => some t
  | _ => none

variable (grace : ℕ)

def heldAt (held : H → Option ℕ) (now : ℕ) (h : H) : Bool := (held h).any fun t => now < t + grace

/-- `Collect`, with the time it read `lag` ago: claimed segments stay as well -/
def Server.collect (n : Server H) (keep : H → Bool) (lag : ℕ) : Server H :=
  let isHeld := heldAt grace n.held (n.clock - lag)
  let swept := AttachStore.collect cfg n.store keep isHeld
  { n with
    store := { swept with segs := fun m => if m ∈ n.claims then n.store.segs m else swept.segs m }
    held := fun h => if keep h || !isHeld h then none else n.held h
    -- a blob seen referenced is no longer held
    finished := n.finished.filter fun f => !keep (hash f.1) }

def step (n : Server H) (l : Label H) : Server H :=
  match l with
  | .begin => { n with ups := n.ups ++ [⟨[], [], none, none, .writing⟩] }
  | .committed hashes =>
    { n with
      held := fun h => if h ∈ hashes then none else n.held h
      finished := n.finished.filter fun f => hash f.1 ∉ hashes }
  | .tick d => { n with clock := n.clock + d }
  | .collect keep lag => n.collect hash cfg grace keep lag
  | l =>
    match l.upload.bind fun t => (n.ups[t]?).map fun u => (t, u) with
    | none => n
    | some (t, u) => n.act hash cfg t u l

/-- no collection while a `Finish` has given up its leaves and not yet named them -/
def Sound (n : Server H) : Label H → Prop
  | .collect _ _ => ∀ u ∈ n.ups, u.phase ≠ .leavesDone
  | _ => True

instance (n : Server H) (l : Label H) : Decidable (Sound n l) := by
  unfold Sound
  split <;> infer_instance

/-! ## What an upload relies on -/

/-- what a segment holds after these bytes were appended to it -/
def shown (b : AttachStore.Bytes) : Option (Segment H) := if b = [] then none else some (.whole b)

/-- the segments an upload has a claim on -/
def Upload.claims : List Name :=
  u.segment.toList ++ if u.phase = .leavesClaimed ∨ u.phase = .leavesWritten then u.leaves.toList else []

/-- the upload's segments are its own and hold what it wrote -/
structure Ok (n : Server H) (u : Upload) : Prop where
  nodup : u.names.Nodup
  bounded : ∀ m ∈ u.names, m < n.store.next ∧ m ∉ n.store.uploads
  unnamed : u.pending → ∀ m ∈ u.names, ∀ h p, n.store.idx.lookup h = some p → m ∉ p.names
  claimed : u.pending → ∀ m ∈ u.claims, m ∈ n.claims
  data : u.pending → ∀ m, u.segment = some m → n.store.segs m = shown u.stored
  unsegmented : u.segment = none → u.stored = []
  content : u.segment ≠ none → u.content ≠ []
  whole : u.phase ≠ .writing → u.phase ≠ .finishing → u.pending → u.cur = []
  leaves : u.phase = .leavesWritten ∨ u.phase = .leavesDone →
    ∀ m, u.leaves = some m → n.store.segs m = some (.leaves (hash u.content))

/-- a finished upload is held in the store until its grace is over -/
def HeldOk (n : Server H) (f : AttachStore.Bytes × ℕ) : Prop :=
  f.2 ≤ n.clock ∧ (f.1 = [] ∨ f.2 + grace ≤ n.clock ∨
    hash f.1 ∈ n.store.idx ∧ ∃ t, n.held (hash f.1) = some t ∧ f.2 ≤ t)

structure Good (n : Server H) : Prop where
  inv : AttachStore.Inv hash cfg n.store
  unused : ∀ m, n.store.next ≤ m → n.store.segs m = none
  apart : ∀ (i j : ℕ) (u v : Upload), n.ups[i]? = some u → n.ups[j]? = some v → ∀ m ∈ u.names, m ∈ v.names → i = j
  ok : ∀ (i : ℕ) (u : Upload), n.ups[i]? = some u → Ok hash n u
  held : ∀ f ∈ n.finished, HeldOk hash grace n f

variable {hash} {cfg : Config} {grace : ℕ} {n n' : Server H} {t : ℕ} {u u' : Upload}

theorem Upload.claims_subset (u : Upload) : ∀ m ∈ u.claims, m ∈ u.names := by
  intro m hm
  rcases mem_append.1 hm with hm | hm
  · exact mem_append_left _ hm
  · split at hm
    · exact mem_append_right _ hm
    · exact absurd hm not_mem_nil

omit [DecidableEq H] in
theorem getElem?_put {v : Upload} {i : ℕ} (h : (n.ups.set t u')[i]? = some v) :
    (i = t ∧ v = u') ∨ (i ≠ t ∧ n.ups[i]? = some v) := by
  by_cases hi : i = t
  · subst hi
    rw [List.getElem?_set_self'] at h
    obtain ⟨_, _, hv⟩ := map_eq_some_iff.1 h
    exact .inl ⟨rfl, hv.symm⟩
  · rw [List.getElem?_set_ne (Ne.symm hi)] at h
    exact .inr ⟨hi, h⟩

/-- **Frame.** What an upload relies on stays when its segments, its claims and the pointers beside it do. -/
theorem Ok.frame (ho : Ok hash n u) (hnext : n.store.next ≤ n'.store.next)
    (hup : ∀ m ∈ n'.store.uploads, m ∈ n.store.uploads)
    (hidx : ∀ h p, n'.store.idx.lookup h = some p → ∀ m ∈ p.names, m ∈ u.names →
      ∃ h' q, n.store.idx.lookup h' = some q ∧ m ∈ q.names) (hclaims : u.pending → ∀ m ∈ u.claims, m ∈ n'.claims)
    (hsegs : u.pending → ∀ m ∈ u.names, n'.store.segs m = n.store.segs m) : Ok hash n' u := by
  refine ⟨ho.nodup, ?_, ?_, hclaims, ?_, ho.unsegmented, ho.content, ho.whole, ?_⟩
  · intro m hm
    exact ⟨(ho.bounded m hm).1.trans_le hnext, fun h => (ho.bounded m hm).2 (hup m h)⟩
  · intro hp m hm h p hlook hmp
    obtain ⟨h', q, hq, hmq⟩ := hidx h p hlook m hmp hm
    exact ho.unnamed hp m hm h' q hq hmq
  · intro hp m hm
    rw [hsegs hp m (by simp [Upload.names, hm])]
    exact ho.data hp m hm
  · intro hphase m hm
    have hp : u.pending := by rcases hphase with h | h <;> simp [Upload.pending, h]
    rw [hsegs hp m (by simp [Upload.names, hm])]
    exact ho.leaves hphase m hm

/-- **One upload's step.** It touches its own segments, its own claims and names never used, and it puts no segment of
another upload in a pointer. -/
theorem Good.act (hg : Good hash cfg grace n) (hu : n.ups[t]? = some u) (hups : n'.ups = n.ups.set t u')
    (hinv : AttachStore.Inv hash cfg n'.store) (hnext : n.store.next ≤ n'.store.next)
    (hunused : ∀ m, n'.store.next ≤ m → n'.store.segs m = none) (hup : n'.store.uploads = n.store.uploads)
    (hnames : ∀ m ∈ u'.names, m ∈ u.names ∨ n.store.next ≤ m)
    (hidx : ∀ h p, n'.store.idx.lookup h = some p → ∀ m ∈ p.names, m ∈ u.names ∨
      ∃ h' q, n.store.idx.lookup h' = some q ∧ m ∈ q.names) (hclaims : ∀ m ∈ n.claims, m ∉ u.names → m ∈ n'.claims)
    (hsegs : ∀ m < n.store.next, m ∉ u.names → n'.store.segs m = n.store.segs m)
    (hok : Ok hash n' u') (hheld : ∀ f ∈ n'.finished, HeldOk hash grace n' f) : Good hash cfg grace n' := by
  -- a segment of another upload is none of this one's, old or new
  have hother : ∀ i v, i ≠ t → n.ups[i]? = some v → ∀ m ∈ v.names, m ∉ u.names ∧ m ∉ u'.names := by
    intro i v hi hv m hm
    have hmu : m ∉ u.names := fun hmu => hi (hg.apart i t v u hv hu m hm hmu)
    refine ⟨hmu, fun hmu' => ?_⟩
    rcases hnames m hmu' with h | h
    · exact hmu h
    · exact absurd ((hg.ok i v hv).bounded m hm).1 (not_lt.2 h)
  refine ⟨hinv, hunused, ?_, ?_, hheld⟩
  · intro i j v w hv hw m hmv hmw
    rw [hups] at hv hw
    rcases getElem?_put hv with ⟨hi, hvu⟩ | ⟨hi, hv'⟩ <;> rcases getElem?_put hw with ⟨hj, hwu⟩ | ⟨hj, hw'⟩
    · exact hi.trans hj.symm
    · exact absurd (hvu ▸ hmv) (hother j w hj hw' m hmw).2
    · exact absurd (hwu ▸ hmw) (hother i v hi hv' m hmv).2
    · exact hg.apart i j v w hv' hw' m hmv hmw
  · intro i v hv
    rw [hups] at hv
    rcases getElem?_put hv with ⟨rfl, rfl⟩ | ⟨hi, hv⟩
    · exact hok
    · have hv' := hg.ok i v hv
      refine hv'.frame hnext (fun m hm => hup ▸ hm) ?_ ?_ ?_
      · intro h p hlook m hmp hmv
        exact (hidx h p hlook m hmp).resolve_left (hother i v hi hv m hmv).1
      · intro hp m hm
        exact hclaims m (hv'.claimed hp m hm) (hother i v hi hv m (v.claims_subset m hm)).1
      · intro _ m hm
        exact hsegs m (hv'.bounded m hm).1 (hother i v hi hv m hm).1

/-! ## The steps of an upload -/

theorem Ok.congr (ho : Ok hash n u) (hstore : n'.store = n.store) (hclaims : n'.claims = n.claims) : Ok hash n' u := by
  refine ho.frame (hstore ▸ le_rfl) (fun m hm => hstore ▸ hm) ?_ ?_ ?_
  · intro h p hlook m hmp _
    exact ⟨h, p, hstore ▸ hlook, hmp⟩
  · intro hp m hm
    rw [hclaims]
    exact ho.claimed hp m hm
  · intro _ m _
    rw [hstore]

variable {ph : Phase} {claims : List Name} {m : Name} {p : Pointer H} {s : Store H}

/-- the store `s` differs from the server's in segments of an upload's own, as long as it has no pointer -/
structure Touches (n : Server H) (u : Upload) (s : Store H) : Prop where
  idx : s.idx = n.store.idx
  next : s.next = n.store.next
  uploads : s.uploads = n.store.uploads
  segs : ∀ m, s.segs m = n.store.segs m ∨ (u.pending ∧ m ∈ u.names)

omit [DecidableEq H] in
theorem Touches.refl : Touches n u n.store := ⟨rfl, rfl, rfl, fun _ => .inl rfl⟩

omit [DecidableEq H] in
theorem Touches.update (h : Touches n u s) (hp : u.pending) (hm : m ∈ u.names) (x : Option (Segment H)) :
    Touches n u { s with segs := Function.update s.segs m x } := by
  refine ⟨h.idx, h.next, h.uploads, fun k => ?_⟩
  by_cases hk : k = m
  · exact .inr ⟨hp, hk ▸ hm⟩
  · exact (h.segs k).imp_left (Function.update_of_ne hk _ _).trans

section Steps

variable (hg : Good hash cfg grace n) (hu : n.ups[t]? = some u)
include hg hu

/-- a step that touches nothing but the upload's own segments and claims -/
theorem Good.own (hups : n'.ups = n.ups.set t u') (hs : Touches n u n'.store)
    (hclaims : ∀ m ∈ n.claims, m ∉ u.names → m ∈ n'.claims) (hnames : u'.names = u.names) (hok : Ok hash n' u')
    (hheld : ∀ f ∈ n'.finished, HeldOk hash grace n' f) : Good hash cfg grace n' := by
  have ho := hg.ok t u hu
  have hinv : AttachStore.Inv hash cfg n'.store := by
    refine hg.inv.congr (fun h => by rw [hs.idx]) hs.next.ge ?_ (hs.uploads ▸ Sublist.refl _)
    intro h p hlook m hm
    exact (hs.segs m).resolve_right fun hown => ho.unnamed hown.1 m hown.2 h p hlook hm
  refine hg.act hu hups hinv hs.next.ge ?_ hs.uploads ?_ ?_ hclaims ?_ hok hheld
  · intro m hm
    rw [hs.next] at hm
    rcases hs.segs m with h | h
    · exact h.trans (hg.unused m hm)
    · exact absurd (ho.bounded m h.2).1 (not_lt.2 hm)
  · intro m hm
    exact .inl (hnames ▸ hm)
  · intro h p hlook m hm
    exact .inr ⟨h, p, hs.idx ▸ hlook, hm⟩
  · intro m _ hm
    exact (hs.segs m).resolve_right fun hown => hm hown.2

/-- a step inside the upload -/
theorem Good.put (hnames : u'.names = u.names) (hok : Ok hash n u') : Good hash cfg grace (n.put t u') :=
  hg.own hu rfl .refl (fun _ hm _ => hm) hnames (hok.congr rfl rfl) hg.held

end Steps

/-- the next phase of an upload that has no pointer yet -/
theorem Ok.rephase (ho : Ok hash n u) (hp : u.pending)
    (hclaims : ∀ m ∈ ({ u with phase := ph } : Upload).claims, m ∈ n.claims)
    (hwhole : ph ≠ .writing → ph ≠ .finishing → u.cur = [])
    (hleaves : ph = .leavesWritten ∨ ph = .leavesDone → ∀ m, u.leaves = some m → n.store.segs m = some (.leaves (hash u.content))) :
    Ok hash n { u with phase := ph } :=
  ⟨ho.nodup, ho.bounded, fun _ => ho.unnamed hp, fun _ => hclaims, fun _ => ho.data hp, ho.unsegmented, ho.content,
    fun h1 h2 _ => hwhole h1 h2, hleaves⟩

/-- an upload that has its pointer, or failed, relies on nothing but its names being its own -/
theorem Ok.settle (ho : Ok hash n u) (hph : ph = .published ∨ ph = .done) (hnext : n.store.next ≤ n'.store.next)
    (hup : n'.store.uploads = n.store.uploads) : Ok hash n' { u with phase := ph } := by
  have hnot : ¬ ({ u with phase := ph } : Upload).pending := by
    rcases hph with rfl | rfl <;> simp [Upload.pending]
  refine ⟨ho.nodup, ?_, fun h => absurd h hnot, fun h => absurd h hnot, fun h => absurd h hnot, ho.unsegmented, ho.content,
    fun _ _ h => absurd h hnot, ?_⟩
  · intro m hm
    exact ⟨(ho.bounded m hm).1.trans_le hnext, hup ▸ (ho.bounded m hm).2⟩
  · intro h
    rcases hph with rfl | rfl <;> simp at h

theorem Upload.due.pending (h : u.due cfg) : u.pending ∧ (u.phase = .writing ∨ u.phase = .finishing) ∧ u.cur ≠ [] := by
  rcases h with ⟨hphase, hlen⟩ | ⟨hphase, hcur, -⟩
  · refine ⟨by simp [Upload.pending, hphase], .inl hphase, fun hnil => ?_⟩
    rw [hnil] at hlen
    exact absurd hlen (by decide)
  · exact ⟨by simp [Upload.pending, hphase], .inr hphase, hcur⟩

theorem mem_unclaim {o : Option Name} : m ∈ unclaim claims o ↔ m ∈ claims ∧ o ≠ some m := by
  simp [unclaim]

theorem Good.next_unnamed (hg : Good hash cfg grace n) {h : H} (hlook : n.store.idx.lookup h = some p) :
    n.store.next ∉ p.names := fun hm => absurd ((hg.inv.names h p hlook).2 _ hm).1 (lt_irrefl _)

theorem Good.next_notMem_uploads (hg : Good hash cfg grace n) : n.store.next ∉ n.store.uploads :=
  fun hm => absurd (hg.inv.uploads.2 _ hm) (lt_irrefl _)

section Steps

variable (hg : Good hash cfg grace n) (hu : n.ups[t]? = some u)
include hg hu

/-- naming a segment -/
theorem Good.newName (hp : u.pending) (hnames : ∀ m ∈ u'.names, m ∈ u.names ∨ m = n.store.next)
    (hok : (∀ m ∈ u'.names, m < n.newName.store.next ∧ m ∉ n.store.uploads) →
      (∀ m ∈ u'.names, ∀ h p, n.store.idx.lookup h = some p → m ∉ p.names) → Ok hash n.newName u') :
    Good hash cfg grace (n.newName.put t u') := by
  have ho := hg.ok t u hu
  have hok : Ok hash n.newName u' := by
    refine hok (fun m hm => ?_) fun m hm h p hlook => ?_
    · rcases hnames m hm with hm | rfl
      · exact ⟨(ho.bounded m hm).1.trans (Nat.lt_succ_self _), (ho.bounded m hm).2⟩
      · exact ⟨Nat.lt_succ_self _, hg.next_notMem_uploads⟩
    · rcases hnames m hm with hm | rfl
      · exact ho.unnamed hp m hm h p hlook
      · exact hg.next_unnamed hlook
  have hinv : AttachStore.Inv hash cfg n.newName.store :=
    hg.inv.congr (fun _ => rfl) (Nat.le_succ _) (fun _ _ _ _ _ => rfl) (Sublist.refl _)
  refine hg.act hu rfl hinv (Nat.le_succ _) ?_ rfl ?_ ?_ ?_ (fun m _ _ => rfl) (hok.congr rfl rfl) hg.held
  · intro m hm
    exact hg.unused m ((Nat.le_succ _).trans hm)
  · intro m hm
    rcases hnames m hm with h | rfl
    · exact .inl h
    · exact .inr le_rfl
  · intro h p hlook m hm
    exact .inr ⟨h, p, hlook, hm⟩
  · intro m hm _
    exact .tail _ hm

theorem Good.claim (hseg : u.segment = none) (hdue : u.due cfg) :
    Good hash cfg grace (n.newName.put t { u with segment := some n.store.next }) := by
  have ho := hg.ok t u hu
  obtain ⟨hp, hphase, hcur⟩ := hdue.pending
  have hmem : ∀ m ∈ ({ u with segment := some n.store.next } : Upload).names, m ∈ u.names ∨ m = n.store.next := by
    simp [Upload.names, hseg, or_comm]
  refine hg.newName hu hp hmem fun hbounded hunnamed => ⟨?_, hbounded, fun _ => hunnamed, ?_, ?_, ?_, ?_, ?_, ?_⟩
  · have hnot : n.store.next ∉ u.leaves.toList := fun hm =>
      absurd (ho.bounded _ (mem_append_right _ hm)).1 (lt_irrefl _)
    have hnodup : u.leaves.toList.Nodup := by simpa [Upload.names, hseg] using ho.nodup
    exact nodup_cons.2 ⟨hnot, hnodup⟩
  · intro _ m hm
    have hclaims : m = n.store.next := by
      rcases hphase with hph | hph <;> simpa [Upload.claims, hph] using hm
    rw [hclaims]
    exact .head _
  · intro _ m hm
    rw [← Option.some.inj hm, ho.unsegmented hseg]
    exact hg.unused _ le_rfl
  · intro h
    cases h
  · intro _ h
    exact hcur (append_eq_nil_iff.1 h).2
  · intro h1 h2
    exact absurd hphase (not_or.2 ⟨h1, h2⟩)
  · intro h
    rcases hphase with hph | hph <;> simp [hph] at h

theorem Good.claimLeaves (hphase : u.phase = .closed) :
    Good hash cfg grace (n.newName.put t { u with leaves := some n.store.next, phase := .leavesClaimed }) := by
  have ho := hg.ok t u hu
  have hp : u.pending := by simp [Upload.pending, hphase]
  have hmem : ∀ m ∈ ({ u with leaves := some n.store.next, phase := .leavesClaimed } : Upload).names,
      m ∈ u.names ∨ m = n.store.next := by
    intro m hm
    rcases mem_append.1 hm with hm | hm
    · exact .inl (mem_append_left _ hm)
    · exact .inr (by simpa using hm)
  have hnot : ∀ m ∈ u.segment.toList, m ≠ n.store.next := fun m hm =>
    (ho.bounded m (mem_append_left _ hm)).1.ne
  refine hg.newName hu hp hmem fun hbounded hunnamed => ⟨?_, hbounded, fun _ => hunnamed, ?_, fun _ => ho.data hp,
    ho.unsegmented, ho.content, ?_, ?_⟩
  · refine nodup_append.2 ⟨(nodup_append.1 ho.nodup).1, by simp, fun a ha b hb => ?_⟩
    rw [show b = n.store.next by simpa using hb]
    exact hnot a ha
  · intro _ m hm
    rcases mem_append.1 hm with hm | hm
    · -- the claim on the data segment is the one it had
      exact .tail _ (ho.claimed hp m (mem_append_left _ hm))
    · rw [show m = n.store.next by simpa using hm]
      exact .head _
  · intro _ _ _
    exact ho.whole (by simp [hphase]) (by simp [hphase]) hp
  · intro h
    simp at h

theorem Good.flush (hseg : u.segment = some m) (hdue : u.due cfg) :
    Good hash cfg grace ({ n with store := appendTo n.store m u.cur }.put t
      { u with stored := u.stored ++ u.cur, cur := [] }) := by
  have ho := hg.ok t u hu
  obtain ⟨hp, hphase, hcur⟩ := hdue.pending
  have hm : m ∈ u.names := by simp [Upload.names, hseg]
  -- the segment holds what was stored before, or is not there yet
  have happend : appendTo n.store m u.cur = n.store.writeSegment m (.whole (u.stored ++ u.cur)) := by
    rw [appendTo, ho.data hp m hseg, shown]
    by_cases hnil : u.stored = [] <;> simp [hnil]
  rw [happend]
  refine hg.own hu rfl (Touches.refl.update hp hm _) (fun _ hm _ => hm) rfl
    ⟨ho.nodup, ho.bounded, fun _ => ho.unnamed hp, fun _ => ho.claimed hp, ?_, ?_, ?_, ?_, ?_⟩ hg.held
  · intro _ k hk
    obtain rfl : m = k := Option.some.inj (hseg.symm.trans hk)
    have hne : u.stored ++ u.cur ≠ [] := ho.content (by simp [hseg])
    rw [shown, if_neg hne]
    exact Function.update_self _ _ _
  · intro h
    exact absurd (hseg.symm.trans h) (some_ne_none m)
  · intro h
    rw [Upload.content, append_nil]
    exact ho.content h
  · intro _ _ _
    rfl
  · intro h
    rcases hphase with hph | hph <;> simp [hph] at h

theorem Good.writeLeaves (hl : u.leaves = some m) (hphase : u.phase = .leavesClaimed) :
    Good hash cfg grace ({ n with store := n.store.writeSegment m (.leaves (hash u.content)) }.put t
      { u with phase := .leavesWritten }) := by
  have ho := hg.ok t u hu
  have hp : u.pending := by simp [Upload.pending, hphase]
  have hm : m ∈ u.names := by simp [Upload.names, hl]
  have hclaims : ({ u with phase := .leavesWritten } : Upload).claims = u.claims := by simp [Upload.claims, hphase]
  refine hg.own hu rfl (Touches.refl.update hp hm _) (fun _ hm _ => hm) rfl ⟨ho.nodup, ho.bounded,
    fun _ => ho.unnamed hp, fun _ => hclaims ▸ ho.claimed hp, ?_, ho.unsegmented, ho.content, ?_, ?_⟩ hg.held
  · intro _ k hk
    -- the leaves are a segment of their own
    have hne : k ≠ m := by
      rintro rfl
      have hnodup := ho.nodup
      rw [Upload.names, show u.segment = some k from hk, hl] at hnodup
      simp at hnodup
    exact (Function.update_of_ne hne _ _).trans (ho.data hp k hk)
  · intro _ _ _
    exact ho.whole (by simp [hphase]) (by simp [hphase]) hp
  · intro _ k hk
    obtain rfl : m = k := Option.some.inj (hl.symm.trans hk)
    exact Function.update_self _ _ _

theorem Good.unclaimLeaves (hphase : u.phase = .leavesWritten) :
    Good hash cfg grace ({ n with claims := unclaim n.claims u.leaves }.put t { u with phase := .leavesDone }) := by
  have ho := hg.ok t u hu
  have hp : u.pending := by simp [Upload.pending, hphase]
  refine hg.own hu rfl .refl ?_ rfl ?_ hg.held
  · intro m hm hnot
    exact mem_unclaim.2 ⟨hm, fun hl => hnot (by simp [Upload.names, hl])⟩
  · have hclaimed : ∀ m ∈ ({ u with phase := .leavesDone } : Upload).claims, m ∈ unclaim n.claims u.leaves := by
      intro m hm
      have hseg : m ∈ u.segment.toList := by simpa [Upload.claims] using hm
      refine mem_unclaim.2 ⟨ho.claimed hp m (mem_append_left _ hseg), fun hl => ?_⟩
      exact (nodup_append.1 ho.nodup).2.2 m hseg m (by simp [hl]) rfl
    exact ⟨ho.nodup, ho.bounded, fun _ => ho.unnamed hp, fun _ => hclaimed, fun _ => ho.data hp, ho.unsegmented, ho.content,
      fun _ _ _ => ho.whole (by simp [hphase]) (by simp [hphase]) hp, fun _ => ho.leaves (.inl hphase)⟩

theorem Good.release :
    Good hash cfg grace ({ n with claims := unclaim n.claims u.segment }.put t { u with phase := .done }) := by
  refine hg.own hu rfl .refl ?_ rfl ((hg.ok t u hu).settle (.inr rfl) le_rfl rfl) hg.held
  intro m hm hnot
  exact mem_unclaim.2 ⟨hm, fun hs => hnot (by simp [Upload.names, hs])⟩

theorem Good.fail (hp : u.pending) (hs : s = n.store ∨ s = deleteNamed n.store u.segment) :
    Good hash cfg grace ({ n with store := s, claims := unclaim (unclaim n.claims u.segment) u.leaves }.put t
      { u with phase := .done }) := by
  have htouch : Touches n u s := by
    rcases hs with rfl | rfl
    · exact .refl
    · cases hseg : u.segment with
      | none => exact .refl
      | some k => exact Touches.refl.update hp (by simp [Upload.names, hseg]) none
  refine hg.own hu rfl htouch ?_ rfl ((hg.ok t u hu).settle (.inr rfl) htouch.next.ge htouch.uploads) fun f hf => ?_
  · intro m hm hnot
    refine mem_unclaim.2 ⟨mem_unclaim.2 ⟨hm, fun h => hnot ?_⟩, fun h => hnot ?_⟩ <;> simp [Upload.names, h]
  · have hold := hg.held f hf
    rw [HeldOk] at hold ⊢
    exact htouch.idx ▸ hold

/-! ## Finish -/

omit hu in
/-- every hold, once `Finish` of an upload has returned -/
theorem heldOk_succeed (hmono : ∀ h ∈ n.store.idx, h ∈ s.idx) (hnew : hash u.content ∈ s.idx) :
    ∀ f ∈ (n.succeed hash t u s).finished, HeldOk hash grace (n.succeed hash t u s) f := by
  intro f hf
  rcases mem_cons.1 hf with rfl | hf
  · exact ⟨le_rfl, .inr (.inr ⟨hnew, n.clock, Function.update_self _ _ _, le_rfl⟩)⟩
  · obtain ⟨hle, hcase⟩ := hg.held f hf
    refine ⟨hle, hcase.imp_right (Or.imp_right ?_)⟩
    rintro ⟨hmem, k, hk, hfk⟩
    refine ⟨hmono _ hmem, ?_⟩
    by_cases hsame : hash f.1 = hash u.content
    · -- the same blob again: the hold starts anew
      refine ⟨n.clock, ?_, hle⟩
      rw [hsame]
      exact Function.update_self _ _ _
    · exact ⟨k, (Function.update_of_ne hsame _ _).trans hk, hfk⟩

/-- the blob is there already: what the upload wrote is dropped -/
theorem Good.deduplicated (hmem : hash u.content ∈ n.store.idx) (hs : Touches n u s) :
    Good hash cfg grace (n.succeed hash t u s) :=
  hg.own hu rfl hs (fun _ hm _ => hm) rfl ((hg.ok t u hu).settle (.inl rfl) hs.next.ge hs.uploads)
    (heldOk_succeed hg (fun _ hh => hs.idx ▸ hh) (hs.idx ▸ hmem))

/-- a pointer to what the upload wrote -/
theorem Good.pointed (hp : u.pending) (hmem : hash u.content ∉ n.store.idx) (hbase : p.base = none) (hnames : ∀ m ∈ p.names, m ∈ u.names)
    (hnodup : p.names.Nodup) (hdata : DataOk hash n.store (hash u.content) p) :
    Good hash cfg grace (n.succeed hash t u (n.store.setPointer (hash u.content) p)) := by
  have ho := hg.ok t u hu
  have hinv : AttachStore.Inv hash cfg (n.store.setPointer (hash u.content) p) := by
    refine hg.inv.insertOwned hmem hbase rfl le_rfl (fun _ _ _ _ _ => rfl) rfl (hdata.congr fun _ _ => rfl) hnodup ?_
    intro m hm
    have hmu := hnames m hm
    exact ⟨(ho.bounded m hmu).1, (ho.bounded m hmu).2, ho.unnamed hp m hmu⟩
  refine hg.act hu rfl hinv le_rfl hg.unused rfl (fun m hm => .inl hm) ?_ (fun m hm _ => hm) (fun m _ _ => rfl)
    (ho.settle (.inl rfl) le_rfl rfl) (heldOk_succeed hg ?_ ?_)
  · intro h q hlook m hm
    obtain ⟨-, rfl⟩ | ⟨-, hq⟩ := lookup_of_insert rfl hlook
    · exact .inl (hnames m hm)
    · exact .inr ⟨h, q, hq, hm⟩
  · intro h hh
    exact (AList.mem_insert _).2 (.inr hh)
  · exact (AList.mem_insert _).2 (.inl rfl)

theorem Good.publishSmall : Good hash cfg grace (n.act hash cfg t u (.publishSmall t)) := by
  rw [Server.act]
  split
  · rename_i hcond
    have ho := hg.ok t u hu
    have hp : u.pending := by simp [Upload.pending, hcond.1]
    split
    · rename_i hempty
      refine hg.own hu rfl .refl (fun _ hm _ => hm) rfl (ho.settle (.inl rfl) le_rfl rfl) fun f hf => ?_
      rcases mem_cons.1 hf with rfl | hf
      · exact ⟨le_rfl, .inl hempty⟩
      · exact hg.held f hf
    · split
      · rename_i hmem
        exact hg.deduplicated hu hmem .refl
      · rename_i hmem
        refine hg.pointed hu hp hmem rfl ?_ nodup_nil ⟨u.content, rfl, rfl, rfl⟩
        intro m hm
        cases hm
  · exact hg

theorem Good.publish : Good hash cfg grace (n.act hash cfg t u (.publish t)) := by
  rw [Server.act]
  split
  · rename_i m l hseg hl
    split
    · rename_i hphase
      have ho := hg.ok t u hu
      have hp : u.pending := by simp [Upload.pending, hphase]
      have hunames : u.names = [m, l] := by simp [Upload.names, hseg, hl]
      split
      · rename_i hmem
        have hs : Touches n u (n.store.deleteSegment m) := Touches.refl.update hp (by simp [hunames]) none
        exact hg.deduplicated hu hmem (hs.update hp (by simp [hunames]) none)
      · rename_i hmem
        have hcur : u.cur = [] := ho.whole (by simp [hphase]) (by simp [hphase]) hp
        have hcontent : u.content = u.stored := by rw [Upload.content, hcur, append_nil]
        have hne : u.stored ≠ [] := hcontent ▸ ho.content (by simp [hseg])
        have hsegm : n.store.segs m = some (.whole u.content) := by
          rw [ho.data hp m hseg, shown, if_neg hne, hcontent]
        refine hg.pointed hu hp hmem rfl ?_ ?_ ⟨u.content, rfl, rfl, hsegm, ho.leaves (.inr hphase) l hl⟩
        · intro k hk
          rw [hunames]
          exact hk
        · have hnodup := ho.nodup
          rw [hunames] at hnodup
          exact hnodup
    · exact hg
  · exact hg

/-- **Every step of an upload.** -/
theorem good_act (l : Label H) (hl : l.upload = some t) : Good hash cfg grace (n.act hash cfg t u l) := by
  have ho := hg.ok t u hu
  cases l with
  | fill t' p =>
    rw [Server.act]
    split_ifs with hcond
    · refine hg.put hu rfl ⟨ho.nodup, ho.bounded, ho.unnamed, ho.claimed, ho.data, ho.unsegmented, ?_, ?_, ?_⟩
      · intro hseg hnil
        rw [Upload.content, ← append_assoc] at hnil
        exact ho.content hseg (append_eq_nil_iff.1 hnil).1
      · intro h
        exact absurd hcond.1 h
      · intro h
        simp [hcond.1] at h
    · exact hg
  | claim t' =>
    rw [Server.act]
    split_ifs with hcond
    · exact hg.claim hu hcond.1 hcond.2
    · exact hg
  | flush t' =>
    rw [Server.act]
    split
    · exact hg
    · rename_i m hseg
      split_ifs with hdue
      · exact hg.flush hu hseg hdue
      · exact hg
  | finish t' =>
    rw [Server.act]
    split_ifs with hcond
    · have hp : u.pending := by simp [Upload.pending, hcond.1]
      have hclaims : ({ u with phase := .finishing } : Upload).claims = u.claims := by simp [Upload.claims, hcond.1]
      exact hg.put hu rfl (ho.rephase hp (hclaims ▸ ho.claimed hp) (fun _ h => absurd rfl h) fun h => by simp at h)
    · exact hg
  | close t' =>
    rw [Server.act]
    split_ifs with hcond
    · have hp : u.pending := by simp [Upload.pending, hcond.1]
      have hclaims : ({ u with phase := .closed } : Upload).claims = u.claims := by simp [Upload.claims, hcond.1]
      exact hg.put hu rfl (ho.rephase hp (hclaims ▸ ho.claimed hp) (fun _ _ => hcond.2.2) fun h => by simp at h)
    · exact hg
  | claimLeaves t' =>
    rw [Server.act]
    split_ifs with hphase
    · exact hg.claimLeaves hu hphase
    · exact hg
  | writeLeaves t' =>
    rw [Server.act]
    split
    · exact hg
    · rename_i m hleaves
      split_ifs with hphase
      · exact hg.writeLeaves hu hleaves hphase
      · exact hg
  | unclaimLeaves t' =>
    rw [Server.act]
    split
    · rename_i hphase
      exact hg.unclaimLeaves hu hphase
    · exact hg
  | publishSmall t' =>
    exact hg.publishSmall hu
  | publish t' =>
    exact hg.publish hu
  | release t' =>
    rw [Server.act]
    split
    · exact hg.release hu
    · exact hg
  | fail t' =>
    rw [Server.act]
    split
    · rename_i hp
      refine hg.fail hu hp ?_
      split
      · exact .inl rfl
      · exact .inr rfl
    · exact hg
  | _ => cases hl

end Steps

/-! ## Collections -/

section Collect

variable {s s' : Store H} {keep isHeld : H → Bool}

/-- **A collection.** Claimed segments stay, and so do the blobs that are held. -/
theorem Good.collect (hg : Good hash cfg grace n) (hsound : ∀ u ∈ n.ups, u.phase ≠ .leavesDone) (keep : H → Bool) (lag : ℕ) :
    Good hash cfg grace (n.collect hash cfg grace keep lag) := by
  set isHeld := heldAt grace n.held (n.clock - lag) with hisHeld
  have hswept := collect_swept cfg n.store keep isHeld
  set lv := live n.store keep isHeld (rescuedBy cfg n.store keep isHeld n.store.idx.keys) with hlv
  set swept := AttachStore.collect cfg n.store keep isHeld with hsw
  have hstore : (n.collect hash cfg grace keep lag).store =
      { swept with segs := fun m => if m ∈ n.claims then n.store.segs m else swept.segs m } := rfl
  have hold : ∀ h p, swept.idx.lookup h = some p → n.store.idx.lookup h = some p := fun h p hp => (hswept.old hp).2
  refine ⟨?_, ?_, hg.apart, ?_, ?_⟩
  · rw [hstore]
    refine (hg.inv.collect keep isHeld).congr (fun _ => rfl) le_rfl (fun h p hlook m hm => ?_) (Sublist.refl _)
    dsimp only
    split
    · exact (hswept.named h p hlook m hm ((hg.inv.names h p (hold h p hlook)).2 m hm).2).symm
    · rfl
  · intro m hm
    have hnone : n.store.segs m = none := hg.unused m (hswept.next ▸ hm)
    rw [hstore]
    dsimp only
    split
    · exact hnone
    · rcases hswept.segs m with h | h
      · exact h.trans hnone
      · exact h
  · intro i u hu
    have ho := hg.ok i u hu
    have hclaimed : u.pending → ∀ m ∈ u.claims, (n.collect hash cfg grace keep lag).store.segs m = n.store.segs m := by
      intro hp m hm
      exact if_pos (ho.claimed hp m hm)
    have hseg : ∀ m, u.segment = some m → m ∈ u.claims := fun m hm => by simp [Upload.claims, hm]
    refine ⟨ho.nodup, ?_, ?_, ho.claimed, ?_, ho.unsegmented, ho.content, ho.whole, ?_⟩
    · intro m hm
      exact ⟨hswept.next ▸ (ho.bounded m hm).1, fun h => (ho.bounded m hm).2 (hswept.uploads.subset h)⟩
    · intro hp m hm h p hlook
      exact ho.unnamed hp m hm h p (hold h p hlook)
    · intro hp m hm
      rw [hclaimed hp m (hseg m hm)]
      exact ho.data hp m hm
    · intro hphase m hm
      -- the leaves of an upload that gave their claim up are what a collection would take
      have hwritten : u.phase = .leavesWritten := hphase.resolve_right (hsound u (mem_of_getElem? hu))
      have hp : u.pending := by simp [Upload.pending, hwritten]
      rw [hclaimed hp m (by simp [Upload.claims, hwritten, hm])]
      exact ho.leaves hphase m hm
  · intro f hf
    obtain ⟨hf, hnotkept⟩ := mem_filter.1 hf
    have hkeep : keep (hash f.1) = false := by simpa using hnotkept
    obtain ⟨hle, hcase⟩ := hg.held f hf
    refine ⟨hle, hcase.imp_right ?_⟩
    rintro (hover | ⟨hmem, k, hk, hfk⟩)
    · exact .inl hover
    · by_cases hover : f.2 + grace ≤ n.clock
      · exact .inl hover
      · -- the hold is on now, so it was on when the collection read the clock
        have hon : isHeld (hash f.1) = true := by
          rw [hisHeld, heldAt, hk]
          exact decide_eq_true (by omega)
        have hlive : lv (hash f.1) = true := by simp [hlv, live, hmem, hon]
        refine .inr ⟨?_, k, ?_, hfk⟩
        · have hlook := hswept.lookup (hash f.1)
          rw [if_pos hlive] at hlook
          exact AList.lookup_isSome.1 (hlook ▸ AList.lookup_isSome.2 hmem)
        · have hheld : (n.collect hash cfg grace keep lag).held (hash f.1) =
              if keep (hash f.1) || !isHeld (hash f.1) then none else n.held (hash f.1) := rfl
          rw [hheld, hkeep, hon]
          exact hk

end Collect

/-! ## Interleavings -/

theorem Good.begin (hg : Good hash cfg grace n) :
    Good hash cfg grace { n with ups := n.ups ++ [⟨[], [], none, none, .writing⟩] } := by
  have hmem : ∀ (i : ℕ) (u : Upload), (n.ups ++ [⟨[], [], none, none, .writing⟩])[i]? = some u →
      n.ups[i]? = some u ∨ u = ⟨[], [], none, none, .writing⟩ := by
    intro i u hu
    rcases Nat.lt_or_ge i n.ups.length with hi | hi
    · rw [List.getElem?_append_left hi] at hu
      exact .inl hu
    · rw [List.getElem?_append_right hi] at hu
      exact .inr (mem_singleton.1 (mem_of_getElem? hu))
  refine ⟨hg.inv, hg.unused, ?_, ?_, hg.held⟩
  · intro i j u v hu hv m hmu hmv
    rcases hmem i u hu with hu | rfl
    · rcases hmem j v hv with hv | rfl
      · exact hg.apart i j u v hu hv m hmu hmv
      · cases hmv
    · cases hmu
  · intro i u hu
    rcases hmem i u hu with hu | rfl
    · exact (hg.ok i u hu).congr rfl rfl
    · refine ⟨nodup_nil, ?_, ?_, ?_, ?_, fun _ => rfl, fun h => absurd rfl h, fun h => absurd rfl h, ?_⟩
      · intro m hm
        cases hm
      · intro _ m hm
        cases hm
      · intro _ m hm
        cases hm
      · intro _ m hm
        cases hm
      · intro h
        simp at h

theorem good_step (n : Server H) (l : Label H) (hsound : Sound n l) (hg : Good hash cfg grace n) :
    Good hash cfg grace (step hash cfg grace n l) := by
  have hact : Good hash cfg grace (match l.upload.bind fun t => (n.ups[t]?).map fun u => (t, u) with
        | none => n
        | some (t, u) => n.act hash cfg t u l) := by
    split
    · exact hg
    · rename_i t u hfound
      obtain ⟨t', ht', hu⟩ := bind_eq_some_iff.1 hfound
      obtain ⟨u', hu', heq⟩ := map_eq_some_iff.1 hu
      obtain ⟨rfl, rfl⟩ := Prod.mk.inj heq
      exact good_act hg hu' l ht'
  cases l with
  | begin => exact hg.begin
  | committed hashes =>
    refine ⟨hg.inv, hg.unused, hg.apart, fun i u hu => (hg.ok i u hu).congr rfl rfl, ?_⟩
    intro f hf
    obtain ⟨hf, hnot⟩ := mem_filter.1 hf
    have hnot' : hash f.1 ∉ hashes := by simpa using hnot
    obtain ⟨hle, hcase⟩ := hg.held f hf
    refine ⟨hle, hcase.imp_right (Or.imp_right ?_)⟩
    rintro ⟨hmem, k, hk, hfk⟩
    exact ⟨hmem, k, (if_neg hnot').trans hk, hfk⟩
  | tick d =>
    refine ⟨hg.inv, hg.unused, hg.apart, fun i u hu => (hg.ok i u hu).congr rfl rfl, ?_⟩
    intro f hf
    obtain ⟨hle, hcase⟩ := hg.held f hf
    refine ⟨hle.trans (Nat.le_add_right _ _), hcase.imp_right (Or.imp_left ?_)⟩
    intro hover
    exact hover.trans (Nat.le_add_right _ _)
  | collect keep lag => exact hg.collect hsound keep lag
  | _ => exact hact

theorem good_new (hs : AttachStore.Inv hash cfg s) (hunused : ∀ m, s.next ≤ m → s.segs m = none) :
    Good hash cfg grace (Server.new s) := by
  refine ⟨hs, hunused, ?_, ?_, ?_⟩
  · intro i j u v hu
    simp [Server.new] at hu
  · intro i u hu
    simp [Server.new] at hu
  · intro f hf
    cases hf

/-- **A finished upload stays readable while it is held.** Over any store in order, in every interleaving of uploads and
collections in which no collection runs between the end of some `writeLeaves` and its pointer: a blob whose `Finish`
returned at `f.2` and whose hold has not ended is in the store, every segment its pointer names exists, and it reads back
as the uploaded bytes. -/
theorem finished_upload_readable (hinj : Function.Injective hash) (cfg : Config) (grace : ℕ) (s : Store H)
    (hs : AttachStore.Inv hash cfg s) (hunused : ∀ m, s.next ≤ m → s.segs m = none) (labels : List (Label H))
    (hsound : Along (step hash cfg grace) Sound (Server.new s) labels) (f : AttachStore.Bytes × ℕ)
    (hf : f ∈ (run (step hash cfg grace) (Server.new s) labels).finished)
    (hheld : (run (step hash cfg grace) (Server.new s) labels).clock < f.2 + grace) :
    (f.1 ≠ [] → ∃ p, (run (step hash cfg grace) (Server.new s) labels).store.idx.lookup (hash f.1) = some p ∧
        ∀ m ∈ p.names, ((run (step hash cfg grace) (Server.new s) labels).store.segs m).isSome) ∧
      read hash cfg (run (step hash cfg grace) (Server.new s) labels).store (hash f.1) = .ok f.1 := by
  have hg : Good hash cfg grace (run (step hash cfg grace) (Server.new s) labels) :=
    run_of_step good_step hsound (good_new hs hunused)
  obtain ⟨-, hcase⟩ := hg.held f hf
  by_cases hempty : f.1 = []
  · refine ⟨fun h => absurd hempty h, ?_⟩
    rw [hempty, AttachStore.read, if_pos rfl]
  · rcases hcase with h | hover | ⟨hmem, -⟩
    · exact absurd h hempty
    · exact absurd hheld (not_lt.2 hover)
    · obtain ⟨p, hp⟩ := isSome_iff_exists.1 (AList.lookup_isSome.2 hmem)
      obtain ⟨c, hc, hread⟩ := hg.inv.read_ok hinj hmem
      refine ⟨fun _ => ⟨p, hp, fun m hm => (hg.inv.data _ p hp).segs_some hm⟩, ?_⟩
      rw [hread, hinj hc]

/-- attachments over one byte go to segments -/
def tinyConfig : Config := { smallMaxBytes := 1 }

/-- an upload of three bytes up to the end of its `writeLeaves` -/
def leavesWrittenRun (t : ℕ) : List (Label AttachStore.Bytes) :=
  [.begin, .fill t [1, 2, 3], .finish t, .claim t, .flush t, .close t, .claimLeaves t, .writeLeaves t, .unclaimLeaves t]

/-- collections before the leaves are claimed, while they are, and after the pointer; a second upload finds the copy -/
def soundRun : List (Label AttachStore.Bytes) :=
  [.begin, .fill 0 [1, 2, 3], .finish 0, .claim 0, .flush 0, .collect (fun _ => false) 0, .close 0, .claimLeaves 0,
    .writeLeaves 0, .collect (fun _ => false) 0, .unclaimLeaves 0, .publish 0, .tick 8, .collect (fun _ => false) 3,
    .release 0] ++ leavesWrittenRun 1 ++ [.publish 1, .tick 5, .collect (fun _ => false) 0]

theorem finished_upload_readable_soundRun :
    ((run (step id tinyConfig 10) (Server.new init) soundRun).finished = [([1, 2, 3], 8), ([1, 2, 3], 0)] ∧
      (run (step id tinyConfig 10) (Server.new init) soundRun).clock = 13) ∧
      read id tinyConfig (run (step id tinyConfig 10) (Server.new init) soundRun).store [1, 2, 3] = .ok [1, 2, 3] :=
  ⟨by decide +kernel, (finished_upload_readable Function.injective_id tinyConfig 10 init inv_init (fun _ _ => rfl) soundRun
    (by decide +kernel) ([1, 2, 3], 8) (by decide +kernel) (by decide +kernel)).2⟩

/-- **The leaves are nobody's for a moment.** `writeLeaves` gives up its claim before `Finish` takes the lock to write the
pointer. A collection in between deletes the leaves; `Finish` returns success, its pointer names them, and the blob does not
read though its hold has just begun. -/
theorem leaves_collected_before_pointer :
    let n := run (step id tinyConfig 10) (Server.new init)
      (leavesWrittenRun 0 ++ [.collect (fun _ => false) 0, .publish 0])
    n.finished = [([1, 2, 3], 0)] ∧ n.clock < 0 + 10 ∧
      (n.store.idx.lookup [1, 2, 3]).map Pointer.names = some [0, 1] ∧ (n.store.segs 1).isNone ∧
      read id tinyConfig n.store [1, 2, 3] = .error .corrupt := by
  decide +kernel

end Kdb.AttachUpload
