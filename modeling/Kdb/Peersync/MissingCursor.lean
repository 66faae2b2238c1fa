/-
Paged transfer of what a peer is missing (`peersync/refs.go`, `missingCursor`; `peersync/ingest.go`, `StoreCommits`).

The host works out once which commits the wanted heads reach and the peer's haves do not, and orders them parents first, ties by
hash. A page is the start of what is left of that order, cut by bytes; it carries the stubs of archived parents that were not sent
yet. The peer stores a page and the cursor advances.

- `paged_transfer`: every page is stored, the pages are consecutive pieces of one order, and at the end the peer holds
  every commit the wanted heads reach.
- `transfer_refused`: what the peer refuses, and what the host leaves out.

Graphs are those of `Kdb.Dag.Generations`: `L` gives the parents a hash names. A transfer's requests are any page sizes at any
times of the peer's clock. Loading evicted operations, and refilling those of commits the peer holds without them, are left out.
-/
import Kdb.Lib.Kahn
import Kdb.Dag.Generations

namespace Kdb.MissingCursor

open Ancestry RankedGraph List

variable {H : Type} [LinearOrder H] (L : RankedGraph H)

local instance lawfulBEq : LawfulBEq H := inferInstance

/-! ## The missing commits -/

/-- what a transfer reads of a commit besides its parents -/
structure Contents (H : Type) where
  messageBytes : H → ℕ
  /-- the bytes of a write's patch; nothing for other operations -/
  operations : H → List (Option ℕ)
  /-- microseconds -/
  timestamp : H → ℤ
  /-- the bytes of the payload in the log, when it is there -/
  loggedPayload : H → Option ℕ

def commitSize (C : Contents H) (h : H) : ℕ :=
  256 + C.messageBytes h + 32 * (L.parents h).length + ((C.operations h).map fun patch => 48 + patch.getD 0).sum

variable (g : Graph H)

def ancestorSetOf (hashes : List H) : List H := (g.walks L).explore fifo hashes

/-- where the collecting walk turns back -/
def turnsBack (had : List H) (h : H) : Bool := h ∈ had || h ∈ g.stubs || h ∉ g.nodes

/-- what the collecting walk meets -/
def met (wants had : List H) : List H := (L.cut (turnsBack g had)).explore fifo wants

/-- the commits collected -/
def missing (wants had : List H) : List H := (met L g wants had).filter fun h => !turnsBack g had h

def metStubs (wants had : List H) : List H := (met L g wants had).filter fun h => h ∉ had && h ∈ g.stubs

/-- `missingCursor` -/
structure Cursor (H : Type) where
  wants : List H
  order : List H
  stubs : List H
  pageLen : ℕ := 0
  pageTips : List H := []
  pageStubs : List H := []
  held : List H := []

def newMissingCursor (wants haves : List H) : Cursor H where
  wants := wants
  order := L.kahn (missing L g wants (ancestorSetOf L g haves))
  stubs := metStubs L g wants (ancestorSetOf L g haves)

/-! ## Pages -/

def defaultPageBytes : ℤ := 4 * 2 ^ 20

def maxCursorHeld : ℕ := 64

/-- the stubs among a commit's parents, each once -/
def addStubs (stubs sent parents : List H) : List H :=
  parents.foldl (fun sent p => if p ∈ stubs ∧ p ∉ sent then sent ++ [p] else sent) sent

/-- the loop of `pageFrom`; nothing when a commit is gone (`errCursorStale`) -/
def pageLoop (g : Graph H) (count : H → ℕ) (maxBytes : ℤ) (stubs : List H) :
    ℕ → List H → List H → List H → Option (List H × List H)
  | _, commits, sent, [] => some (commits, sent)
  | size, commits, sent, h :: rest =>
    if h ∉ g.nodes then none
    else if commits ≠ [] ∧ maxBytes < (size + count h : ℕ) then some (commits, sent)
    else pageLoop g count maxBytes stubs (size + count h) (commits ++ [h]) (addStubs stubs sent (L.parents h)) rest

structure Page (H : Type) where
  commits : List H
  stubs : List H
  done : Bool

/-- `pageTips`, `tipsOf`: the commits no other commit of the page names -/
def tipsOf (page : List H) : List H := page.filter fun h => !page.any fun c => h ∈ L.parents c

variable (C : Contents H)

/-- what a commit counts for: its payload in the log if one is asked for and there, else the estimate -/
def counts (wantPayloads : Bool) (h : H) : ℕ :=
  if wantPayloads then (C.loggedPayload h).getD (commitSize L C h) else commitSize L C h

variable (c : Cursor H)

def Cursor.pageFrom (g : Graph H) (maxBytes : ℤ) (wantPayloads : Bool) : Option (Page H × Cursor H) :=
  (pageLoop L g (counts L C wantPayloads) (if maxBytes ≤ 0 then defaultPageBytes else maxBytes) c.stubs 0 [] [] c.order).map
    fun p => (⟨p.1, p.2, p.1.length = c.order.length⟩,
      { c with pageLen := p.1.length, pageTips := tipsOf L p.1, pageStubs := p.2 })

def Cursor.page (g : Graph H) (maxBytes : ℤ) : Option (Page H × Cursor H) := c.pageFrom L C g maxBytes false

def Cursor.advance : Cursor H where
  wants := c.wants
  order := c.order.drop c.pageLen
  stubs := c.stubs.filter (· ∉ c.pageStubs)
  held := (c.held ++ c.pageTips).drop ((c.held ++ c.pageTips).length - maxCursorHeld)

/-! ## Storing -/

inductive StoreError (H : Type) where
  | clockSkew (commit : H)
  | missingParent (commit parent : H)
  deriving DecidableEq

/-- `DefaultMaxClockSkew`, in nanoseconds -/
def defaultMaxClockSkew : ℤ := 5 * 60 * 10 ^ 9

/-- `checkSkew` passes; `now` is in microseconds -/
def skewOk (maxClockSkew now : ℤ) (h : H) : Bool :=
  maxClockSkew < 0 ||
    (C.timestamp h - now) * 1000 ≤ if maxClockSkew = 0 then defaultMaxClockSkew else maxClockSkew

/-- the loop of `StoreCommits`: the graph, how many commits were new, and what stopped it -/
def storeLoop (maxClockSkew now : ℤ) : Graph H → ℕ → List H → Graph H × ℕ × Option (StoreError H)
  | g, stored, [] => (g, stored, none)
  | g, stored, h :: rest =>
    if h ∈ g.nodes then storeLoop maxClockSkew now g stored rest
    else if !skewOk C maxClockSkew now h then (g, stored, some (.clockSkew h))
    else match (L.parents h).find? fun p => !g.present p with
      | some p => (g, stored, some (.missingParent h p))
      | none => storeLoop maxClockSkew now (g.putCommit L h true) (stored + 1) rest

def storeCommits (maxClockSkew now : ℤ) (g : Graph H) (commits stubs : List H) : Graph H × ℕ × Option (StoreError H) :=
  storeLoop L C maxClockSkew now (stubs.foldl Graph.putStub g) 0 commits

/-! ## A transfer -/

/-- a request for a page -/
structure Request where
  maxBytes : ℤ
  /-- the peer's clock when it stores the page -/
  now : ℤ

structure Transfer (H : Type) where
  cursor : Cursor H
  receiver : Graph H
  pages : List (List H) := []
  done : Bool := false

inductive TransferError (H : Type) where
  | stale
  | store (e : StoreError H)
  deriving DecidableEq

variable (host : Graph H) (maxClockSkew : ℤ)

/-- a page, stored by the peer, and the cursor moved past it -/
def Transfer.next (t : Transfer H) (r : Request) : Except (TransferError H) (Transfer H) :=
  match t.cursor.page L C host r.maxBytes with
  | none => .error .stale
  | some (page, cursor) =>
    match storeCommits L C maxClockSkew r.now t.receiver page.commits page.stubs with
    | (_, _, some e) => .error (.store e)
    | (receiver, _, none) => .ok ⟨cursor.advance, receiver, t.pages ++ [page.commits], page.done⟩

def transfer : Transfer H → List Request → Except (TransferError H) (Transfer H)
  | t, [] => .ok t
  | t, r :: rs =>
    match t.next L C host maxClockSkew r with
    | .error e => .error e
    | .ok t' => transfer t' rs

def begin (wants haves : List H) (receiver : Graph H) : Transfer H := ⟨newMissingCursor L host wants haves, receiver, [], false⟩

/-- a host without shallow roots, which keeps every parent of a commit and no commit twice -/
structure Whole : Prop where
  shallow : host.shallow = ∅
  parents : ∀ h ∈ host.nodes, ∀ p ∈ L.parents h, host.present p
  once : ∀ h ∈ host.nodes, h ∉ host.stubs

variable {L C host maxClockSkew}

/-! ## The order -/

section Order

variable {wants had haves : List H} {x p : H}

theorem mem_missing : x ∈ missing L host wants had ↔
    turnsBack host had x = false ∧ ∃ w ∈ wants, (L.cut (turnsBack host had)).Below x w := by
  rw [missing, met, mem_filter, mem_explore, Bool.not_eq_true', and_comm]

theorem turnsBack_eq_false : turnsBack host had x = false ↔ x ∉ had ∧ x ∉ host.stubs ∧ x ∈ host.nodes := by
  simp [turnsBack, and_assoc]

theorem missing_nodup : (missing L host wants had).Nodup := (explore_nodup _).filter _

theorem mem_order : x ∈ (newMissingCursor L host wants haves).order ↔ x ∈ missing L host wants (ancestorSetOf L host haves) :=
  (kahn_perm missing_nodup).mem_iff

theorem order_nodup : (newMissingCursor L host wants haves).order.Nodup := (kahn_perm missing_nodup).nodup_iff.2 missing_nodup

/-- a missing commit's parents are had, met as stubs or missing too -/
theorem parent_cases (hw : Whole L host) (hx : x ∈ missing L host wants had) (hp : p ∈ L.parents x) :
    p ∈ had ∨ p ∈ metStubs L host wants had ∨ p ∈ missing L host wants had := by
  obtain ⟨hback, w, hwant, hbelow⟩ := mem_missing.1 hx
  have hpb : (L.cut (turnsBack host had)).Below p w := (Below.parent (mem_cut_parents.2 ⟨hback, hp⟩)).trans hbelow
  by_cases hhave : p ∈ had
  · exact .inl hhave
  by_cases hstub : p ∈ host.stubs
  · refine .inr (.inl (mem_filter.2 ⟨mem_explore.2 ⟨w, hwant, hpb⟩, ?_⟩))
    simp [hhave, hstub]
  · have hnode : p ∈ host.nodes := by
      have hpresent := hw.parents x (turnsBack_eq_false.1 hback).2.2 p hp
      simpa [Graph.present, hstub] using hpresent
    exact .inr (.inr (mem_missing.2 ⟨turnsBack_eq_false.2 ⟨hhave, hstub, hnode⟩, w, hwant, hpb⟩))

/-- the parents of a commit that the order has come before it -/
theorem order_parents : DepOrdered (fun h => (L.parents h).filter (· ∈ (newMissingCursor L host wants haves).order))
    (newMissingCursor L host wants haves).order := by
  refine (kahn_ordered missing_nodup).weaken ?_
  intro h _ p hp
  obtain ⟨hp, hin⟩ := mem_filter.1 hp
  exact mem_inside.2 ⟨hp, mem_order.1 (by simpa using hin)⟩

end Order

/-! ## A page -/

section Page

variable {stubs sent : List H} {s : H}

theorem mem_addStubs (ps : List H) : s ∈ addStubs stubs sent ps ↔ s ∈ sent ∨ s ∈ stubs ∧ s ∈ ps := by
  unfold addStubs
  induction ps generalizing sent with
  | nil => simp
  | cons p ps ih =>
    rw [foldl_cons]
    by_cases hp : p ∈ stubs ∧ p ∉ sent
    · grind
    · grind

/-- a page is the start of the order, at least one commit of it, with the stubs its commits name -/
theorem pageLoop_spec (count : H → ℕ) (maxBytes : ℤ) (stubs : List H) {order : List H} (hheld : ∀ h ∈ order, h ∈ host.nodes)
    (size : ℕ) (commits sent : List H) : ∃ k sent', pageLoop L host count maxBytes stubs size commits sent order =
      some (commits ++ order.take k, sent') ∧ k ≤ order.length ∧ (commits = [] → order ≠ [] → 0 < k) ∧
      ∀ s, s ∈ sent' ↔ s ∈ sent ∨ s ∈ stubs ∧ ∃ h ∈ order.take k, s ∈ L.parents h := by
  induction order generalizing size commits sent with
  | nil => exact ⟨0, sent, by simp [pageLoop], le_rfl, by simp, by simp⟩
  | cons h rest ih =>
    rw [pageLoop, if_neg (not_not.2 (hheld h mem_cons_self))]
    split_ifs with hfull
    · exact ⟨0, sent, by simp, Nat.zero_le _, fun hnil => absurd hnil hfull.1, by simp⟩
    · obtain ⟨k, sent', hloop, hk, -, hsent⟩ := ih (fun x hx => hheld x (.tail _ hx)) (size + count h)
        (commits ++ [h]) (addStubs stubs sent (L.parents h))
      refine ⟨k + 1, sent', ?_, by simpa using hk, fun _ _ => Nat.succ_pos k, ?_⟩
      · rw [hloop, take_succ_cons, append_assoc, singleton_append]
      · intro s
        rw [hsent, mem_addStubs, take_succ_cons]
        simp only [mem_cons, exists_eq_or_imp]
        tauto

/-- a page and the cursor past it -/
theorem Cursor.page_spec (hheld : ∀ h ∈ c.order, h ∈ host.nodes) (maxBytes : ℤ) : ∃ k sent c',
    c.page L C host maxBytes = some (⟨c.order.take k, sent, k = c.order.length⟩, c') ∧
      c'.advance.order = c.order.drop k ∧ c'.advance.stubs = c.stubs.filter (· ∉ sent) ∧ k ≤ c.order.length ∧
      (c.order ≠ [] → 0 < k) ∧ ∀ s, s ∈ sent ↔ s ∈ c.stubs ∧ ∃ h ∈ c.order.take k, s ∈ L.parents h := by
  obtain ⟨k, sent, hloop, hk, hpos, hsent⟩ := pageLoop_spec (L := L) (counts L C false)
    (if maxBytes ≤ 0 then defaultPageBytes else maxBytes) c.stubs hheld 0 [] []
  have hlen : ([] ++ c.order.take k).length = k := by simp [Nat.min_eq_left hk]
  refine ⟨k, sent, { c with pageLen := k, pageTips := tipsOf L (c.order.take k), pageStubs := sent }, ?_, rfl, rfl, hk,
    hpos rfl, ?_⟩
  · rw [Cursor.page, Cursor.pageFrom, hloop, Option.map_some, hlen]
    rfl
  · intro s
    rw [hsent]
    simp

end Page

/-! ## Storing a page -/

section Store

variable {g : Graph H} {h x : H} {now : ℤ}

theorem mem_putCommit (hall : (L.parents h).all g.present) : x ∈ (g.putCommit L h true).nodes ↔ x = h ∨ x ∈ g.nodes := by
  unfold Graph.putCommit
  split_ifs with hin hno
  · exact ⟨.inr, Or.rec (· ▸ hin) id⟩
  · simp [hall] at hno
  · simp [Graph.storeCommit]

theorem putCommit_stubs : (g.putCommit L h true).stubs = g.stubs := by
  unfold Graph.putCommit Graph.storeCommit
  split_ifs <;> rfl

theorem present_putStub : (g.putStub h).present x = (g.present x || x = h) := by
  unfold Graph.putStub
  split_ifs <;> by_cases hx : x = h <;> simp_all [Graph.present]

theorem mem_putStub : x ∈ (g.putStub h).nodes ↔ x ∈ g.nodes := by
  unfold Graph.putStub
  split_ifs <;> rfl

theorem putStubs_spec (stubs : List H) (x : H) :
    ((stubs.foldl Graph.putStub g).present x = true ↔ g.present x = true ∨ x ∈ stubs) ∧
      (x ∈ (stubs.foldl Graph.putStub g).nodes ↔ x ∈ g.nodes) := by
  induction stubs generalizing g with
  | nil => simp
  | cons s stubs ih =>
    rw [foldl_cons, (ih (g := g.putStub s)).1, (ih (g := g.putStub s)).2, present_putStub, mem_putStub]
    simp [or_assoc]

/-- commits whose parents are there, or come before them, are all stored -/
theorem storeLoop_spec {commits : List H} (stored : ℕ)
    (hskew : ∀ h ∈ commits, h ∉ g.nodes → skewOk C maxClockSkew now h = true)
    (hparents : ∀ pre h post, commits = pre ++ h :: post → ∀ p ∈ L.parents h, g.present p = true ∨ p ∈ pre) :
    (storeLoop L C maxClockSkew now g stored commits).2.2 = none ∧
      (∀ x, g.present x = true → (storeLoop L C maxClockSkew now g stored commits).1.present x = true) ∧
      ∀ x, x ∈ g.nodes ∨ x ∈ commits → x ∈ (storeLoop L C maxClockSkew now g stored commits).1.nodes := by
  induction commits generalizing g stored with
  | nil => exact ⟨rfl, fun _ hx => hx, fun x hx => hx.resolve_right not_mem_nil⟩
  | cons h rest ih =>
    have hskew' : ∀ x ∈ rest, x ∉ g.nodes → skewOk C maxClockSkew now x = true :=
      fun x hx => hskew x (.tail _ hx)
    -- what came before a later commit is the first one, or comes before it in the rest
    have hlater : ∀ g' : Graph H, (∀ x, g.present x = true → g'.present x = true) → g'.present h = true →
        ∀ pre x post, rest = pre ++ x :: post → ∀ p ∈ L.parents x, g'.present p = true ∨ p ∈ pre := by
      intro g' hmono hself pre x post heq p hp
      rcases hparents (h :: pre) x post (by rw [heq]; rfl) p hp with hpres | hin
      · exact .inl (hmono p hpres)
      · rcases mem_cons.1 hin with rfl | hin
        · exact .inl hself
        · exact .inr hin
    rw [storeLoop]
    by_cases hin : h ∈ g.nodes
    · rw [if_pos hin]
      obtain ⟨h₁, h₂, h₃⟩ := ih stored hskew' (hlater g (fun _ hx => hx) (by simp [Graph.present, hin]))
      refine ⟨h₁, h₂, fun x hx => h₃ x ?_⟩
      rw [mem_cons] at hx
      rcases hx with hx | rfl | hx
      exacts [.inl hx, .inl hin, .inr hx]
    · rw [if_neg hin, hskew h (.head _) hin]
      have hall : ∀ p ∈ L.parents h, g.present p = true := by
        intro p hp
        exact (hparents [] h rest rfl p hp).resolve_right not_mem_nil
      have hnone : (L.parents h).find? (fun p => !g.present p) = none := by
        rw [List.find?_eq_none]
        intro p hp
        simp [hall p hp]
      rw [hnone]
      have hmem : ∀ x, x ∈ (g.putCommit L h true).nodes ↔ x = h ∨ x ∈ g.nodes :=
        fun x => mem_putCommit (all_eq_true.2 hall)
      have hmono : ∀ x, g.present x = true → (g.putCommit L h true).present x = true := by
        intro x hx
        rw [Graph.present, Bool.or_eq_true, decide_eq_true_eq, decide_eq_true_eq, hmem, putCommit_stubs]
        rw [Graph.present, Bool.or_eq_true, decide_eq_true_eq, decide_eq_true_eq] at hx
        tauto
      have hself : (g.putCommit L h true).present h = true := by
        rw [Graph.present, Bool.or_eq_true, decide_eq_true_eq]
        exact .inl ((hmem h).2 (.inl rfl))
      obtain ⟨h₁, h₂, h₃⟩ := ih (stored + 1) (fun x hx hno => hskew' x hx fun hx' => hno ((hmem x).2 (.inr hx')))
        (hlater _ hmono hself)
      refine ⟨h₁, fun x hx => h₂ x (hmono x hx), fun x hx => h₃ x ?_⟩
      rw [mem_cons] at hx
      rcases hx with hx | rfl | hx
      exacts [.inl ((hmem x).2 (.inr hx)), .inl ((hmem x).2 (.inl rfl)), .inr hx]

end Store

/-! ## The transfer -/

variable (L host) in
/-- a transfer under way: what was sent and what is left make up the order, and the peer holds what was sent -/
structure Sending (wants haves : List H) (receiver : Graph H) (t : Transfer H) : Prop where
  split : t.pages.flatten ++ t.cursor.order = (newMissingCursor L host wants haves).order
  had : ∀ h ∈ ancestorSetOf L host haves, t.receiver.present h = true
  grown : ∀ h ∈ receiver.nodes, h ∈ t.receiver.nodes
  stored : ∀ h ∈ t.pages.flatten, h ∈ t.receiver.nodes
  stubs : ∀ s ∈ metStubs L host wants (ancestorSetOf L host haves), s ∉ t.cursor.stubs → t.receiver.present s = true

section Transfer

variable {wants haves : List H} {receiver : Graph H} {t : Transfer H}

theorem Sending.begin (hheld : ∀ h ∈ ancestorSetOf L host haves, receiver.present h = true) :
    Sending L host wants haves receiver (begin L host wants haves receiver) where
  split := rfl
  had := hheld
  grown _ hh := hh
  stored _ hh := absurd hh (by simp [MissingCursor.begin])
  stubs _ hs hno := absurd hs hno

/-- **One page.** It is stored, and the transfer goes on. -/
theorem Sending.next (hw : Whole L host) (hs : Sending L host wants haves receiver t) {r : Request}
    (hskew : ∀ h ∈ (newMissingCursor L host wants haves).order, h ∉ receiver.nodes → skewOk C maxClockSkew r.now h = true) :
    ∃ t', t.next L C host maxClockSkew r = .ok t' ∧ Sending L host wants haves receiver t' ∧
      (t'.done = true ↔ t'.cursor.order = []) ∧ t'.cursor.order.length ≤ t.cursor.order.length - 1 := by
  have hsub : ∀ h ∈ t.cursor.order, h ∈ (newMissingCursor L host wants haves).order := by
    intro h hh
    rw [← hs.split]
    exact mem_append_right _ hh
  have hnodes : ∀ h ∈ t.cursor.order, h ∈ host.nodes := by
    intro h hh
    exact (turnsBack_eq_false.1 (mem_missing.1 (mem_order.1 (hsub h hh))).1).2.2
  obtain ⟨k, sent, c', hpage, horder', hstubs', hk, hpos, hsent⟩ := t.cursor.page_spec (L := L) (C := C) hnodes r.maxBytes
  have hstubbed := fun x => (putStubs_spec (g := t.receiver) sent x).1
  have hresident := fun x => (putStubs_spec (g := t.receiver) sent x).2
  -- every parent of a commit of the page is there, or comes before it in the page
  have hparents : ∀ pre h post, t.cursor.order.take k = pre ++ h :: post → ∀ p ∈ L.parents h,
      (sent.foldl Graph.putStub t.receiver).present p = true ∨ p ∈ pre := by
    intro pre h post heq p hp
    have hin : h ∈ t.cursor.order.take k := by simp [heq]
    have hmiss := mem_order.1 (hsub h (mem_of_mem_take hin))
    rw [hstubbed]
    rcases parent_cases hw hmiss hp with hhad | hstub | hmissing
    · exact .inl (.inl (hs.had p hhad))
    · by_cases hleft : p ∈ t.cursor.stubs
      · exact .inl (.inr ((hsent p).2 ⟨hleft, h, hin, hp⟩))
      · exact .inl (.inl (hs.stubs p hstub hleft))
    · have horder : (newMissingCursor L host wants haves).order =
          (t.pages.flatten ++ pre) ++ h :: (post ++ t.cursor.order.drop k) := by
        calc (newMissingCursor L host wants haves).order
            = t.pages.flatten ++ (t.cursor.order.take k ++ t.cursor.order.drop k) := by rw [take_append_drop, hs.split]
          _ = _ := by rw [heq]; simp
      have hbefore := order_parents _ h _ horder p (mem_filter.2 ⟨hp, by simpa using mem_order.2 hmissing⟩)
      rcases mem_append.1 hbefore with hsentp | hpre
      · exact .inl (.inl (by simp [Graph.present, hs.stored p hsentp]))
      · exact .inr hpre
  have hskew' : ∀ h ∈ t.cursor.order.take k, h ∉ (sent.foldl Graph.putStub t.receiver).nodes →
      skewOk C maxClockSkew r.now h = true := by
    intro h hh hno
    refine hskew h (hsub h (mem_of_mem_take hh)) ?_
    exact fun hold => hno ((hresident h).2 (hs.grown h hold))
  obtain ⟨hnone, hpresent, hstored⟩ := storeLoop_spec (L := L) 0 hskew' hparents
  rcases hres : storeLoop L C maxClockSkew r.now (sent.foldl Graph.putStub t.receiver) 0 (t.cursor.order.take k) with ⟨g', n, e⟩
  rw [hres] at hnone hpresent hstored
  obtain rfl : e = none := hnone
  refine ⟨⟨c'.advance, g', t.pages ++ [t.cursor.order.take k], k = t.cursor.order.length⟩, ?_, ⟨?_, ?_, ?_, ?_, ?_⟩, ?_, ?_⟩
  · rw [Transfer.next, hpage]
    dsimp only
    rw [storeCommits, hres]
  · simp [horder', hs.split]
  · intro h hh
    exact hpresent h ((hstubbed h).2 (.inl (hs.had h hh)))
  · intro h hh
    exact hstored h (.inl ((hresident h).2 (hs.grown h hh)))
  · intro h hh
    rw [flatten_append, mem_append] at hh
    rcases hh with hh | hh
    · exact hstored h (.inl ((hresident h).2 (hs.stored h hh)))
    · exact hstored h (.inr (by simpa using hh))
  · -- a stub the cursor no longer has was sent with this page or before
    intro s hmet hno
    rw [hstubs', mem_filter] at hno
    refine hpresent s ((hstubbed s).2 ?_)
    by_cases hleft : s ∈ t.cursor.stubs
    · refine .inr ?_
      by_contra hunsent
      exact hno ⟨hleft, by simpa using hunsent⟩
    · exact .inl (hs.stubs s hmet hleft)
  · rw [horder', drop_eq_nil_iff]
    rw [decide_eq_true_eq]
    omega
  · rw [horder', length_drop]
    by_cases hne : t.cursor.order = []
    · simp [hne]
    · have := hpos hne
      omega

/-- **Whole transfers.** -/
theorem Sending.transfer (hw : Whole L host) {rs : List Request}
    (hskew : ∀ r ∈ rs, ∀ h ∈ (newMissingCursor L host wants haves).order, h ∉ receiver.nodes →
      skewOk C maxClockSkew r.now h = true) (hs : Sending L host wants haves receiver t)
    (hdone : t.done = true → t.cursor.order = []) :
    ∃ t', MissingCursor.transfer L C host maxClockSkew t rs = .ok t' ∧ Sending L host wants haves receiver t' ∧
      (t'.done = true → t'.cursor.order = []) ∧ t'.cursor.order.length ≤ t.cursor.order.length - rs.length ∧
      (rs ≠ [] → t'.cursor.order = [] → t'.done = true) := by
  induction rs generalizing t with
  | nil => exact ⟨t, rfl, hs, hdone, by simp, fun h => absurd rfl h⟩
  | cons r rs ih =>
    obtain ⟨t₁, hnext, hs₁, hdone₁, hlen₁⟩ := hs.next hw (hskew r mem_cons_self)
    obtain ⟨t', hrun, hs', hdone', hlen', hlast⟩ := ih (fun r' hr' => hskew r' (.tail _ hr')) hs₁ hdone₁.1
    refine ⟨t', ?_, hs', hdone', ?_, ?_⟩
    · rw [MissingCursor.transfer, hnext]
      exact hrun
    · rw [length_cons]
      omega
    · intro _ hnil
      cases rs with
      | nil =>
        cases hrun
        exact hdone₁.2 hnil
      | cons r' rs => exact hlast (by simp) hnil

theorem Whole.walks (hw : Whole L host) {x y : H} (hb : (host.links L).Below x y) : (host.walks L).Below x y := by
  induction hb with
  | refl => exact .refl
  | @step y p hp _ ih =>
    refine .step ?_ ih
    by_cases hy : y ∈ host.nodes
    · have hp : p ∈ L.parents y := by simpa [Graph.links, hy] using hp
      simpa [Graph.walks, Graph.expandParents, hy, hw.once y hy, hw.shallow] using hp
    · simp [Graph.links, hy] at hp

theorem mem_ancestorSetOf {hashes : List H} {x : H} :
    x ∈ ancestorSetOf L host hashes ↔ ∃ h ∈ hashes, (host.walks L).Below x h := mem_explore

/-- what the wanted heads reach on the host is had or missing -/
theorem had_or_missing (hw : Whole L host) {x w : H} (hx : x ∈ host.nodes) (hwant : w ∈ wants)
    (hb : (host.links L).Below x w) :
    x ∈ ancestorSetOf L host haves ∨ x ∈ missing L host wants (ancestorSetOf L host haves) := by
  by_cases hhad : x ∈ ancestorSetOf L host haves
  · exact .inl hhad
  refine .inr (mem_missing.2 ⟨turnsBack_eq_false.2 ⟨hhad, hw.once x hx, hx⟩, w, hwant, ?_⟩)
  clear hwant
  induction hb with
  | refl => exact .refl
  | @step y p hp hb ih =>
    refine .step ?_ ih
    have hy : y ∈ host.nodes := by
      by_contra hno
      simp [Graph.links, hno] at hp
    -- a had commit has everything below it had
    have hnot : y ∉ ancestorSetOf L host haves := by
      intro hin
      obtain ⟨h, hh, hyh⟩ := mem_ancestorSetOf.1 hin
      exact hhad (mem_ancestorSetOf.2 ⟨h, hh, (hw.walks (.step hp hb)).trans hyh⟩)
    refine mem_cut_parents.2 ⟨turnsBack_eq_false.2 ⟨hnot, hw.once y hy, hy⟩, ?_⟩
    simpa [Graph.links, hy] using hp

end Transfer

/-! ## Working the order out again -/

section Resume

variable {wants haves haves' : List H} {k : ℕ} {x y p : H}

/-- the start of the order has, with a commit, its missing parents -/
theorem parent_mem_take (hy : y ∈ (newMissingCursor L host wants haves).order.take k) (hp : p ∈ L.parents y)
    (hmem : p ∈ (newMissingCursor L host wants haves).order) : p ∈ (newMissingCursor L host wants haves).order.take k := by
  have hl : DepOrdered _ (_ ++ _) := (take_append_drop k (newMissingCursor L host wants haves).order).symm ▸ order_parents
  exact hl.of_append.dep_mem hy (mem_filter.2 ⟨hp, decide_eq_true (by rwa [take_append_drop])⟩)

/-- what a commit of the start of the order reaches is had, a stub, or in the start too -/
theorem below_take (hw : Whole L host) (hy : y ∈ (newMissingCursor L host wants haves).order.take k)
    (hb : (host.walks L).Below x y) :
    x ∈ ancestorSetOf L host haves ∨ x ∈ host.stubs ∨ x ∈ (newMissingCursor L host wants haves).order.take k := by
  induction hb with
  | refl => exact .inr (.inr hy)
  | @step y p hp hb ih =>
    have hmiss := mem_order.1 (mem_of_mem_take hy)
    obtain ⟨-, hstub, hnode⟩ := turnsBack_eq_false.1 (mem_missing.1 hmiss).1
    have hp : p ∈ L.parents y := by simpa [Graph.walks, Graph.expandParents, hstub, hw.shallow, hnode] using hp
    rcases parent_cases hw hmiss hp with hhad | hstub | hmissing
    · obtain ⟨h, hh, hph⟩ := mem_ancestorSetOf.1 hhad
      exact .inl (mem_ancestorSetOf.2 ⟨h, hh, hb.trans hph⟩)
    · have hstub : p ∈ host.stubs := by
        have := (mem_filter.1 hstub).2
        simp only [Bool.and_eq_true, decide_eq_true_eq] at this
        exact this.2
      -- a walk stops at a stub
      cases hb with
      | refl => exact .inr (.inl hstub)
      | step hq _ => simp [Graph.walks, Graph.expandParents, hstub] at hq
    · exact ih (parent_mem_take hy hp (mem_order.2 hmissing))

/-- the haves of a peer that holds the first commits of the order besides -/
structure Holding (L : RankedGraph H) (host : Graph H) (wants haves : List H) (k : ℕ) (haves' : List H) : Prop where
  kept : ∀ h ∈ haves, h ∈ haves'
  only : ∀ h ∈ haves', h ∈ haves ∨ h ∈ (newMissingCursor L host wants haves).order.take k
  covers : ∀ h ∈ (newMissingCursor L host wants haves).order.take k, ∃ h' ∈ haves', (host.walks L).Below h h'

theorem Holding.had (hh : Holding L host wants haves k haves') (hx : x ∈ ancestorSetOf L host haves) :
    x ∈ ancestorSetOf L host haves' := by
  obtain ⟨h, hmem, hb⟩ := mem_ancestorSetOf.1 hx
  exact mem_ancestorSetOf.2 ⟨h, hh.kept h hmem, hb⟩

theorem Holding.mem_missing_iff (hw : Whole L host) (hh : Holding L host wants haves k haves') :
    x ∈ missing L host wants (ancestorSetOf L host haves') ↔
      x ∈ missing L host wants (ancestorSetOf L host haves) ∧ x ∉ (newMissingCursor L host wants haves).order.take k := by
  constructor
  · intro hx
    obtain ⟨hback, w, hwant, hb⟩ := mem_missing.1 hx
    obtain ⟨hnot, hstub, hnode⟩ := turnsBack_eq_false.1 hback
    refine ⟨mem_missing.2 ⟨turnsBack_eq_false.2 ⟨fun h => hnot (hh.had h), hstub, hnode⟩, w, hwant, ?_⟩, ?_⟩
    · clear hwant
      induction hb with
      | refl => exact .refl
      | @step y p hp _ ih =>
        obtain ⟨hgo, hp⟩ := mem_cut_parents.1 hp
        obtain ⟨hy, hys, hyn⟩ := turnsBack_eq_false.1 hgo
        exact .step (mem_cut_parents.2 ⟨turnsBack_eq_false.2 ⟨fun h => hy (hh.had h), hys, hyn⟩, hp⟩) ih
    · intro hin
      obtain ⟨h', hmem, hb'⟩ := hh.covers x hin
      exact hnot (mem_ancestorSetOf.2 ⟨h', hmem, hb'⟩)
  · rintro ⟨hx, hout⟩
    -- what was missing is had now only if it is in the start of the order
    have hstill : ∀ y ∈ missing L host wants (ancestorSetOf L host haves),
        y ∉ (newMissingCursor L host wants haves).order.take k → turnsBack host (ancestorSetOf L host haves') y = false := by
      intro y hy hyout
      obtain ⟨hnot, hstub, hnode⟩ := turnsBack_eq_false.1 (mem_missing.1 hy).1
      refine turnsBack_eq_false.2 ⟨?_, hstub, hnode⟩
      intro hin
      obtain ⟨h, hmem, hb⟩ := mem_ancestorSetOf.1 hin
      rcases hh.only h hmem with hold | htake
      · exact hnot (mem_ancestorSetOf.2 ⟨h, hold, hb⟩)
      · rcases below_take hw htake hb with h | h | h
        · exact hnot h
        · exact hstub h
        · exact hyout h
    obtain ⟨hback, w, hwant, hb⟩ := mem_missing.1 hx
    refine mem_missing.2 ⟨hstill x hx hout, w, hwant, ?_⟩
    -- the path from a wanted head meets missing commits only, and none of them is in the start of the order
    have key : ∀ y, (L.cut (turnsBack host (ancestorSetOf L host haves))).Below y w →
        (L.cut (turnsBack host (ancestorSetOf L host haves))).Below x y →
        (L.cut (turnsBack host (ancestorSetOf L host haves'))).Below x y ∧
          y ∈ missing L host wants (ancestorSetOf L host haves) ∧ y ∉ (newMissingCursor L host wants haves).order.take k := by
      intro y hyw hxy
      induction hxy with
      | refl => exact ⟨.refl, hx, hout⟩
      | @step y p hp _ ih =>
        obtain ⟨hbelow, hpmiss, hpout⟩ := ih ((Below.parent hp).trans hyw)
        obtain ⟨hgo, hp⟩ := mem_cut_parents.1 hp
        have hymiss := mem_missing.2 ⟨hgo, w, hwant, hyw⟩
        have hyout : y ∉ (newMissingCursor L host wants haves).order.take k :=
          fun hy => hpout (parent_mem_take hy hp (mem_order.2 hpmiss))
        exact ⟨.step (mem_cut_parents.2 ⟨hstill y hymiss hyout, hp⟩) hbelow, hymiss, hyout⟩
    exact (key w .refl hb).1

/-- **Resuming.** The order worked out again is the rest of the order. -/
theorem Holding.order (hw : Whole L host) (hh : Holding L host wants haves k haves') :
    (newMissingCursor L host wants haves').order = (newMissingCursor L host wants haves).order.drop k :=
  kahn_drop missing_nodup missing_nodup k fun _ => hh.mem_missing_iff hw

end Resume

/-- **Paged transfer.** For a whole host, any wants and haves, a peer that has what the haves reach on the host, and any requests
at times of the peer's clock from which no commit it does not hold is too far ahead: the missing commits are in an order without
repetitions, parents first, in which a parent that is not itself missing is had or met as a stub. Every requested page is stored;
the pages sent and what is left make up the order; with enough requests nothing is left. When the last page is stored, the peer
holds every commit the wanted heads reach on the host, and holds as commits those that the haves do not reach. A cursor worked out
for a peer that besides holds the first commits of the order has the rest of the order. -/
theorem paged_transfer (hw : Whole L host) (wants haves : List H) (receiver : Graph H)
    (hheld : ∀ h ∈ ancestorSetOf L host haves, receiver.present h = true) (rs : List Request)
    (hskew : ∀ r ∈ rs, ∀ h ∈ (newMissingCursor L host wants haves).order, h ∉ receiver.nodes →
      skewOk C maxClockSkew r.now h = true) :
    (newMissingCursor L host wants haves).order.Nodup ∧
    DepOrdered (fun h => (L.parents h).filter (· ∈ (newMissingCursor L host wants haves).order))
      (newMissingCursor L host wants haves).order ∧
    (∀ h ∈ (newMissingCursor L host wants haves).order, ∀ p ∈ L.parents h, p ∈ ancestorSetOf L host haves ∨
      p ∈ (newMissingCursor L host wants haves).stubs ∨ p ∈ (newMissingCursor L host wants haves).order) ∧
    (∃ t, transfer L C host maxClockSkew (begin L host wants haves receiver) rs = .ok t ∧
      t.pages.flatten ++ t.cursor.order = (newMissingCursor L host wants haves).order ∧
      (rs ≠ [] → (newMissingCursor L host wants haves).order.length ≤ rs.length → t.done = true) ∧
      (t.done = true → t.cursor.order = [] ∧ ∀ x ∈ host.nodes, ∀ w ∈ wants, (host.links L).Below x w →
        t.receiver.present x = true ∧ (x ∉ ancestorSetOf L host haves → x ∈ t.receiver.nodes))) ∧
    ∀ k haves', Holding L host wants haves k haves' →
      (newMissingCursor L host wants haves').order = (newMissingCursor L host wants haves).order.drop k := by
  refine ⟨order_nodup, order_parents, ?_, ?_, fun k haves' hh => hh.order hw⟩
  · intro h hh p hp
    rw [mem_order]
    exact parent_cases hw (mem_order.1 hh) hp
  have hbegin : Sending L host wants haves receiver (begin L host wants haves receiver) := .begin hheld
  obtain ⟨t, hrun, hs, hdone, hlen, hlast⟩ := hbegin.transfer hw hskew nofun
  refine ⟨t, hrun, hs.split, ?_, ?_⟩
  · intro hne hmany
    refine hlast hne (eq_nil_of_length_eq_zero ?_)
    change t.cursor.order.length ≤ (newMissingCursor L host wants haves).order.length - rs.length at hlen
    omega
  · intro hend
    refine ⟨hdone hend, ?_⟩
    intro x hx w hwant hb
    have hall : t.pages.flatten = (newMissingCursor L host wants haves).order := by
      rw [← hs.split, hdone hend, append_nil]
    have hsent : x ∈ missing L host wants (ancestorSetOf L host haves) → x ∈ t.receiver.nodes := by
      intro hmiss
      refine hs.stored x ?_
      rw [hall]
      exact mem_order.2 hmiss
    have hcases : x ∈ ancestorSetOf L host haves ∨ _ := had_or_missing hw hx hwant hb
    rcases hcases with hhad | hmiss
    · exact ⟨hs.had x hhad, fun hnot => absurd hhad hnot⟩
    · exact ⟨by simp [Graph.present, hsent hmiss], fun _ => hsent hmiss⟩

/-- a fork and its join over an archived commit -/
def joined : RankedGraph ℕ where
  parents := fun h => match h with
    | 1 => [0]
    | 2 => [1]
    | 3 => [1]
    | 4 => [2, 3]
    | _ => []
  rank := id
  rank_lt := by
    intro h p hp
    split at hp <;> simp at hp <;> simp [id] <;> omega

/-- commits of one size, all from the start of time -/
def plain : Contents ℕ := ⟨fun _ => 0, fun _ => [], fun _ => 0, fun _ => none⟩

def joinedHost : Graph ℕ := { nodes := ⟨[⟨4, 4⟩, ⟨3, 3⟩, ⟨2, 3⟩, ⟨1, 2⟩], by simp [List.NodupKeys, List.keys]⟩, stubs := {0}, main := 4 }

theorem joinedHost_whole : Whole joined joinedHost where
  shallow := rfl
  parents := by
    have hall : ∀ h ∈ joinedHost.nodes.keys, ∀ p ∈ joined.parents h, joinedHost.present p = true := by decide
    exact fun h hh => hall h hh
  once := by
    have hall : ∀ h ∈ joinedHost.nodes.keys, h ∉ joinedHost.stubs := by decide
    exact fun h hh => hall h hh

/-- a peer with another commit takes the join over the archived commit, one commit a page -/
theorem paged_transfer_joined : (newMissingCursor joined joinedHost [4] []).order = [1, 2, 3, 4] ∧
    (∃ t, transfer joined plain joinedHost 0 (begin joined joinedHost [4] [] (Graph.new 9))
      [⟨1, 0⟩, ⟨1, 0⟩, ⟨1, 0⟩, ⟨1, 0⟩] = .ok t ∧ ∀ x ∈ joinedHost.nodes, (joinedHost.links joined).Below x 4 →
        x ∈ t.receiver.nodes) ∧
    (newMissingCursor joined joinedHost [4] [2]).order = [3, 4] := by
  have horder : (newMissingCursor joined joinedHost [4] []).order = [1, 2, 3, 4] := by decide +kernel
  have hno : ∀ h, h ∉ ancestorSetOf joined joinedHost [] := by
    intro h hh
    obtain ⟨h', hmem, -⟩ := mem_ancestorSetOf.1 hh
    exact absurd hmem not_mem_nil
  have hskew : ∀ r ∈ [(⟨1, 0⟩ : Request), ⟨1, 0⟩, ⟨1, 0⟩, ⟨1, 0⟩], ∀ h ∈ (newMissingCursor joined joinedHost [4] []).order,
      h ∉ (Graph.new 9).nodes → skewOk plain 0 r.now h = true := by
    decide
  obtain ⟨-, -, -, ⟨t, hrun, hsplit, hdone, hend⟩, hresume⟩ := paged_transfer joinedHost_whole [4] [] (Graph.new 9)
    (fun h hh => absurd hh (hno h)) _ hskew
  refine ⟨horder, ⟨t, hrun, ?_⟩, ?_⟩
  · intro x hx hb
    obtain ⟨-, hall⟩ := hend (hdone (by simp) (by simp [horder]))
    exact (hall x hx 4 mem_cons_self hb).2 (hno x)
  · rw [hresume 2 [2]]
    · rfl
    · constructor
      · simp
      · simp [horder]
      · decide +kernel

/-- commit 2 is from six minutes ahead -/
def ahead : Contents ℕ := { plain with timestamp := fun h => if h = 2 then 360000000 else 0 }

/-- a host that got a stub of commit 2 before the commit -/
def stubbedFirst : Graph ℕ := (((Graph.new 1).putStub 0).putStub 2).putCommit joined 2 true

/-- a host whose shallow root was unmarked while its parent was not there -/
def unmarked : Graph ℕ := ((Graph.new 9).putShallowCommit joined 2).unshallow joined 2

/-- **Refused and left out.** A peer that holds commit 1 asks for commit 2. It refuses it when the commit is from ahead of its
clock. A host that keeps a stub of the commit besides the commit answers with one empty page that is the last. A peer that holds
nothing of it refuses it from a host that does not hold its parent. None of the hosts has a shallow root. -/
theorem transfer_refused :
    joinedHost.shallow = ∅ ∧
    (∀ h ∈ ancestorSetOf joined joinedHost [1], ((Graph.new 1).putStub 0).present h = true) ∧
    transfer joined ahead joinedHost 0 (begin joined joinedHost [2] [1] ((Graph.new 1).putStub 0)) [⟨0, 0⟩] =
      .error (.store (.clockSkew 2)) ∧
    stubbedFirst.shallow = ∅ ∧ 2 ∈ stubbedFirst.nodes ∧
    (∀ h ∈ ancestorSetOf joined stubbedFirst [1], ((Graph.new 1).putStub 0).present h = true) ∧
    (∃ t, transfer joined plain stubbedFirst 0 (begin joined stubbedFirst [2] [1] ((Graph.new 1).putStub 0)) [⟨0, 0⟩] = .ok t ∧
      t.done = true ∧ t.receiver.present 2 = false) ∧
    unmarked.shallow = ∅ ∧
    transfer joined plain unmarked 0 (begin joined unmarked [2] [] (Graph.new 9)) [⟨0, 0⟩] =
      .error (.store (.missingParent 2 1)) := by
  refine ⟨rfl, by decide +kernel, rfl, by decide +kernel, by decide +kernel, by decide +kernel, ⟨_, rfl, by decide +kernel,
    by decide +kernel⟩, by decide +kernel, rfl⟩

end Kdb.MissingCursor
