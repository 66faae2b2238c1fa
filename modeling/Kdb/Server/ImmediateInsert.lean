/-
INSERT ... ON CONFLICT at the write gate (`server/immediate_insert.go`, `CommitImmediate` of `server/immediate_update.go`,
`sql/upsert.go`).

The statement is decided at the front of the gate: the unique-key registry names the document that holds the row's values of the
conflict constraint, if any. Without a holder the row is inserted, with one that document is updated or left alone.

- `upserts_exact`: a statement inserts where its tuple is free and updates the one document that has it, in every run
  whose transactions settle their keys.
- `upsert_of_phantom`: otherwise it may update a document that no longer has the tuple.

The row and the UPDATE of DO UPDATE are given by what they compute: the row's body, and the write made of the holder's body (none
when its WHERE does not match). Document locks, admission and authorisation, which refuse a statement before it commits, and
attachments are left out. The transaction id is the caller's; the code draws it at random.
-/
import Kdb.Transaction.Registry
import Kdb.Transaction.BranchMerge
import Kdb.Server.WriteGate

namespace Kdb

open Machine

variable {σ : Type}

/-! ## The statement -/

/-- why a statement is refused before it commits -/
inductive InsertError where
  | idExists (id : DocId)
  | manyHolders
  | update (message : String)
  deriving DecidableEq

/-- `sql.InsertRow` with the statement's ON CONFLICT action: the UPDATE of `DO UPDATE`, nothing for `DO NOTHING` -/
structure InsertRow where
  id : DocId
  json : Fields
  conflict : Option (List FieldPath)
  update : Option (DocId → Fields → Except String (Option (Json × Bool)))

/-- which branch a statement took -/
inductive InsertBranch where
  | inserts
  | updates (holder : DocId)
  | doesNothing (holder : DocId)
  deriving DecidableEq

/-- `ImmediateInsertResult`: the branch and the commit made -/
structure InsertResult where
  branch : InsertBranch
  commit : Option Hash
  deriving DecidableEq

def InsertRow.conflictKeys (row : InsertRow) (tuples : List (List FieldPath)) : List UniqueKey :=
  match row.conflict with
  | none => []
  | some fields => (uniqueKeysFor tuples row.json).filter fun key => key.fields = fields

/-- the loop of `conflictHolder`: the one document that holds a key of the row -/
def holderAmong (owners : Owners) : Option DocId → List UniqueKey → Except InsertError (Option DocId)
  | holder, [] => .ok holder
  | holder, key :: keys =>
    match owners key with
    | none => holderAmong owners holder keys
    | some owner =>
      match holder with
      | none => holderAmong owners (some owner) keys
      | some other => if owner ≠ other then .error .manyHolders else holderAmong owners (some owner) keys

section Statement

variable (S : SchemaOps σ)

def conflictHolder (ns : Namespace σ) (row : InsertRow) : Except InsertError (Option DocId) :=
  holderAmong ns.owners none (row.conflictKeys (S.uniqueTuples ns.schema))

/-- what the statement does at the live tree: its branch and its operations -/
def decideInsert (ns : Namespace σ) (live : Tree) (row : InsertRow) : Except InsertError (InsertBranch × List Op) :=
  if live[row.id]?.isSome then .error (.idExists row.id)
  else match conflictHolder S ns row with
    | .error e => .error e
    | .ok none => .ok (.inserts, [.write row.id (.obj row.json) true])
    | .ok (some holder) =>
      match row.update, live[holder]? with
      | none, _ => .ok (.doesNothing holder, [])
      | some _, none => .ok (.updates holder, [])
      | some update, some body =>
        match update holder body with
        | .error message => .error (.update message)
        | .ok none => .ok (.updates holder, [])
        | .ok (some (patch, replace)) => .ok (.updates holder, [.write holder patch replace])

/-- `CommitImmediate`: a transaction on the live head, unless there is nothing to write -/
def commitImmediate (E : Engine) (ns : Namespace σ) (ops : List Op) (txID : TxId) (timestamp : ℕ) (author : NodeId)
    (message : String) : Namespace σ × Except EngineError (Option TransactionResult) :=
  if ops = [] then (ns, .ok none)
  else
    let r := E.commit S ns ⟨txID, ns.dag.main, ops, timestamp, author, []⟩ message
    (r.1, r.2.map some)

/-- `ExecImmediateInsert`; a statement that the engine refuses has no result -/
def execImmediateInsert (E : Engine) (ns : Namespace σ) (row : InsertRow) (txID : TxId) (timestamp : ℕ) (author : NodeId)
    (message : String) : Namespace σ × Except InsertError (Option InsertResult) :=
  let live := ((ns.dag.get ns.dag.main).map Commit.tree).getD ∅
  match decideInsert S ns live row with
  | .error e => (ns, .error e)
  | .ok (branch, ops) =>
    let r := commitImmediate S E ns ops txID timestamp author message
    (r.1, .ok (match r.2 with
      | .ok none => some ⟨branch, none⟩
      | .ok (some (.success h)) => some ⟨branch, some h⟩
      | _ => none))

end Statement

/-! ## Runs -/

/-- what reaches the front of the gate -/
inductive GateCall where
  | call (c : Call)
  | insert (E : Engine) (row : InsertRow) (txID : TxId) (timestamp : ℕ) (author : NodeId) (message : String)

variable (S : SchemaOps σ)

def gateStep (hexLe : Hash → Hash → Bool) (ns : Namespace σ) : GateCall → Namespace σ
  | .call c => callStep S hexLe ns c
  | .insert E row txID timestamp author message => (execImmediateInsert S E ns row txID timestamp author message).1

/-- commits and replays settle their keys, and the statement's engine shares the registry -/
def GateCall.Settles (ns : Namespace σ) : GateCall → Prop
  | .call c => c.Settles S ns
  | .insert E _ _ _ _ _ => E.uniqueKeys = true

instance (S : SchemaOps σ) (ns : Namespace σ) (c : GateCall) : Decidable (c.Settles S ns) := by
  cases c <;> unfold GateCall.Settles <;> infer_instance

/-- the document has the key at main's head -/
def Held (ns : Namespace σ) (k : UniqueKey) (d : DocId) : Prop :=
  ∃ c, ns.dag.get ns.dag.main = some c ∧ k ∈ keysOf (S.uniqueTuples ns.schema) c.tree[d]?

/-! ## The holder -/

section Holder

variable {S : SchemaOps σ} {E : Engine} {ns : Namespace σ} {row : InsertRow} {owners : Owners}

variable {holder : Option DocId} {keys : List UniqueKey} {d : DocId} {branch : InsertBranch} {patch : Json}
  {replace : Bool} {schema : σ}

theorem holderAmong_none (h : holderAmong owners holder keys = .ok none) :
    holder = none ∧ ∀ k ∈ keys, owners k = none := by
  induction keys generalizing holder with
  | nil => exact ⟨Except.ok.inj h, by simp⟩
  | cons key keys ih =>
    unfold holderAmong at h
    cases ho : owners key with
    | none =>
      simp only [ho] at h
      obtain ⟨hh, hk⟩ := ih h
      exact ⟨hh, by simpa [ho] using hk⟩
    | some owner =>
      simp only [ho] at h
      cases holder with
      | none => exact absurd (ih h).1 (by simp)
      | some other =>
        dsimp only at h
        split at h
        · cases h
        · exact absurd (ih h).1 (by simp)

theorem holderAmong_some (h : holderAmong owners holder keys = .ok (some d)) :
    holder = some d ∨ ∃ k ∈ keys, owners k = some d := by
  induction keys generalizing holder with
  | nil => exact .inl (Except.ok.inj h)
  | cons key keys ih =>
    have later : ∀ {holder'}, holderAmong owners holder' keys = .ok (some d) → (holder' = some d → owners key = some d) →
        ∃ k ∈ key :: keys, owners k = some d := by
      intro holder' h' hkey
      rcases ih h' with hh | ⟨k, hk, ho⟩
      · exact ⟨key, .head _, hkey hh⟩
      · exact ⟨k, .tail _ hk, ho⟩
    unfold holderAmong at h
    cases ho : owners key with
    | none =>
      simp only [ho] at h
      rcases ih h with hh | ⟨k, hk, hko⟩
      · exact .inl hh
      · exact .inr ⟨k, .tail _ hk, hko⟩
    | some owner =>
      simp only [ho] at h
      right
      cases holder with
      | none => exact later h fun hh => by rw [ho, hh]
      | some other =>
        dsimp only at h
        split at h
        · cases h
        · exact later h fun hh => by rw [ho, hh]

theorem mem_conflictKeys {tuples : List (List FieldPath)} {k : UniqueKey} (h : k ∈ row.conflictKeys tuples) :
    k ∈ uniqueKeysFor tuples row.json := by
  unfold InsertRow.conflictKeys at h
  split at h
  · cases h
  · exact (List.mem_filter.1 h).1

/-! ## What the statement writes -/

/-- what a statement that goes through writes: its row where nothing holds the tuple, or one write of the holder -/
inductive Decided (S : SchemaOps σ) (ns : Namespace σ) (live : Tree) (row : InsertRow) : InsertBranch → List Op → Prop
  | inserts (hid : live[row.id]? = none) (hfree : conflictHolder S ns row = .ok none) :
    Decided S ns live row .inserts [.write row.id (.obj row.json) true]
  | updates {holder : DocId} {update : DocId → Fields → Except String (Option (Json × Bool))} {body : Fields} {patch : Json}
    {replace : Bool} (hholder : conflictHolder S ns row = .ok (some holder)) (hrow : row.update = some update)
    (hbody : live[holder]? = some body) (hupdate : update holder body = .ok (some (patch, replace))) :
    Decided S ns live row (.updates holder) [.write holder patch replace]
  | nothing {branch : InsertBranch} (hbranch : branch ≠ .inserts) : Decided S ns live row branch []

theorem decideInsert_spec {live : Tree} {ops : List Op} (h : decideInsert S ns live row = .ok (branch, ops)) :
    Decided S ns live row branch ops := by
  unfold decideInsert at h
  split at h
  · cases h
  rename_i hid
  cases hh : conflictHolder S ns row with
  | error e => simp only [hh] at h; cases h
  | ok holder =>
    simp only [hh] at h
    cases holder with
    | none =>
      cases h
      exact .inserts (by simpa using hid) hh
    | some holder =>
      dsimp only at h
      split at h
      · cases h
        exact .nothing (by simp)
      · cases h
        exact .nothing (by simp)
      · rename_i update body hrow hbody
        split at h
        · cases h
        · cases h
          exact .nothing (by simp)
        · rename_i hupdate
          cases h
          exact .updates hh hrow hbody hupdate

/-- a transaction of one write settles its keys on any base -/
theorem TxSettles.single (hu : E.uniqueKeys = true) (tx : Transaction)
    (hops : tx.operations = [.write d patch replace]) (hbase : tx.baseVersion = ns.dag.main) :
    TxSettles S ns E tx tx.baseVersion := by
  refine ⟨hu, ?_, ?_⟩
  · simp [hops, Op.isMigration]
  · intro b hb a ha
    have hab : b = a := by
      rw [hbase, ha] at hb
      exact (Option.some.inj hb).symm
    refine ⟨?_, ?_⟩
    · intro i hi e he k hk
      have hi0 : i = 0 := by simpa [hops] using hi
      simpa [hops] using hk
    · intro _ op _ e _
      rw [hab]

/-- the registry is main's and nothing stands on main's head -/
structure GateInv (S : SchemaOps σ) (schema : σ) (ns : Namespace σ) : Prop where
  registry : RegistryInv S schema ns
  line : LineInv ns

/-- the one commit of a statement -/
theorem GateInv.commitOne (hinv : GateInv S schema ns) (hu : E.uniqueKeys = true) (tx : Transaction)
    (hops : tx.operations = [.write d patch replace]) (hbase : tx.baseVersion = ns.dag.main) (message : String) :
    GateInv S schema (E.commit S ns tx message).1 ∧ ∀ h, (E.commit S ns tx message).2 = .ok (.success h) →
        ∃ a c, ns.dag.get ns.dag.main = some a ∧
          (E.commit S ns tx message).1.dag.get (E.commit S ns tx message).1.dag.main = some c ∧
          (E.commit S ns tx message).1.dag.main = h ∧ c.parents = [ns.dag.main] ∧
          c.tree[d]? = candidate a.tree[d]? patch replace ∧ ∀ e, e ≠ d → c.tree[e]? = a.tree[e]? := by
  have ho := commit_outcome (S := S) E hinv.line.clean tx message
  refine ⟨⟨hinv.registry.outcome (TxSettles.single hu tx hops hbase) ho, hinv.line.outcome ho⟩, ?_⟩
  intro h hr
  revert hr
  generalize E.commit S ns tx message = r at ho
  intro hr
  cases ho with
  | refused hne => exact absurd hr (hne h)
  | found hf =>
    rw [hinv.line.not_found tx] at hf
    cases hf
  | @landed ns' h' p a b ha hb _ hp hl =>
    obtain rfl : h' = h := by simpa using hr
    have hab : b = a := by
      rw [hbase, ha] at hb
      exact (Option.some.inj hb).symm
    subst hab
    have hserve : Serves ns b.tree := fun hs => hinv.registry.trees.live hs b ha
    obtain ⟨c, hc, hparents, -, hfold⟩ := hl.fold hp hserve
    refine ⟨b, c, ha, ?_, hl.appended.main, hparents, ?_, ?_⟩
    · rw [hl.appended.main]
      exact hc
    · have hd := hfold d
      rw [hops, foldDoc, if_pos rfl] at hd
      cases hcand : candidate b.tree[d]? patch replace with
      | none => simp [hcand] at hd
      | some body =>
        simp only [hcand, foldDoc, Option.some.injEq] at hd
        exact hd.symm
    · intro e he
      have hd := hfold e
      rw [hops, foldDoc, if_neg (Ne.symm he)] at hd
      simpa [foldDoc] using hd.symm

/-- a statement keeps the invariant -/
theorem GateInv.insert (hinv : GateInv S schema ns) (hu : E.uniqueKeys = true) (row : InsertRow) (txID : TxId)
    (timestamp : ℕ) (author : NodeId) (message : String) :
    GateInv S schema (execImmediateInsert S E ns row txID timestamp author message).1 := by
  unfold execImmediateInsert
  dsimp only
  cases hd : decideInsert S ns (((ns.dag.get ns.dag.main).map Commit.tree).getD ∅) row with
  | error e => exact hinv
  | ok r =>
    obtain ⟨branch, ops⟩ := r
    have hdec := decideInsert_spec hd
    cases hdec with
    | inserts _ _ => exact (hinv.commitOne hu _ rfl rfl message).1
    | updates _ _ _ _ => exact (hinv.commitOne hu _ rfl rfl message).1
    | nothing _ => exact hinv

theorem GateInv.step (hexLe : Hash → Hash → Bool) (hinv : GateInv S schema ns) (c : GateCall) (hs : c.Settles S ns) :
    GateInv S schema (gateStep S hexLe ns c) := by
  cases c with
  | call c =>
    refine ⟨hinv.registry.step hexLe c hs, ?_⟩
    cases c with
    | commit E tx message => exact hinv.line.outcome (commit_outcome (S := S) E hinv.line.clean tx message)
    | replay E tx target message =>
      obtain ⟨rfl, -⟩ := hs
      exact hinv.line.outcome (replay_outcome (S := S) E hinv.line.clean tx ns.dag.main message)
    | merge E primary merged markerId now message => exact hs.elim
  | insert E row txID timestamp author message => exact hinv.insert hs row txID timestamp author message

theorem GateInv.held_iff (hinv : GateInv S schema ns) (k : UniqueKey) (d : DocId) :
    Held S ns k d ↔ ns.owners k = some d := by
  obtain ⟨c, hc⟩ := Option.isSome_iff_exists.1 hinv.registry.trees.head
  have hreg := hinv.registry.registry c hc k d
  unfold Held
  rw [hinv.registry.schema_eq, hreg]
  constructor
  · rintro ⟨c', hc', hk⟩
    rw [hc] at hc'
    exact Option.some.inj hc' ▸ hk
  · intro hk
    exact ⟨c, hc, hk⟩

/-- what a statement that made a commit decided, and the commit it made -/
theorem execImmediateInsert_spec {txID : TxId} {timestamp : ℕ} {author : NodeId} {message : String} {h : Hash}
    (hr : (execImmediateInsert S E ns row txID timestamp author message).2 = .ok (some ⟨branch, some h⟩)) :
    ∃ ops ≠ [], Decided S ns (((ns.dag.get ns.dag.main).map Commit.tree).getD ∅) row branch ops ∧
      ∃ tx : Transaction, tx.operations = ops ∧ tx.baseVersion = ns.dag.main ∧
        (E.commit S ns tx message).2 = .ok (.success h) ∧
        (execImmediateInsert S E ns row txID timestamp author message).1 = (E.commit S ns tx message).1 := by
  unfold execImmediateInsert at hr ⊢
  dsimp only at hr ⊢
  cases hd : decideInsert S ns (((ns.dag.get ns.dag.main).map Commit.tree).getD ∅) row with
  | error e => simp only [hd] at hr; cases hr
  | ok r =>
    obtain ⟨b, ops⟩ := r
    simp only [hd] at hr
    unfold commitImmediate at hr
    by_cases hops : ops = []
    · simp [hops] at hr
    rw [if_neg hops] at hr
    cases hc : (E.commit S ns ⟨txID, ns.dag.main, ops, timestamp, author, []⟩ message).2 with
    | error e => simp [hc, Except.map] at hr
    | ok result =>
      cases result with
      | rejected reason => simp [hc, Except.map] at hr
      | success h' =>
        simp only [hc] at hr
        obtain ⟨rfl, rfl⟩ := hr
        refine ⟨ops, hops, decideInsert_spec hd, ⟨txID, ns.dag.main, ops, timestamp, author, []⟩, rfl, rfl, hc, ?_⟩
        simp [commitImmediate, hops]

end Holder

/-- **An upsert inserts once and updates the holder.** In every state reached: no two documents have one key; a statement that
inserts found every key of its tuple free, and its row has them afterwards; a statement that updates commits onto the head at which
its holder has a key of the tuple, makes of the holder what the UPDATE says, and changes nothing else. -/
theorem upserts_exact (S : SchemaOps σ) (hexLe : Hash → Hash → Bool) (backend : Backend) (treeStore : Bool) (schema : σ)
    (calls : List GateCall)
    (hg : Along (gateStep S hexLe) (fun ns c => c.Settles S ns) (Namespace.init backend treeStore schema) calls) :
    let ns := run (gateStep S hexLe) (Namespace.init backend treeStore schema) calls
    (∀ k d e, Held S ns k d → Held S ns k e → d = e) ∧
      ∀ (E : Engine) (row : InsertRow) (txID : TxId) (timestamp : ℕ) (author : NodeId) (message : String) (h : Hash),
        E.uniqueKeys = true →
        let r := execImmediateInsert S E ns row txID timestamp author message
        (r.2 = .ok (some ⟨.inserts, some h⟩) →
          ∀ k ∈ row.conflictKeys (S.uniqueTuples schema), (∀ d, ¬ Held S ns k d) ∧ Held S r.1 k row.id) ∧
        ∀ holder, r.2 = .ok (some ⟨.updates holder, some h⟩) →
          (∃ k ∈ row.conflictKeys (S.uniqueTuples schema), Held S ns k holder) ∧
          ∃ update body patch replace before after, row.update = some update ∧
            ns.dag.get ns.dag.main = some before ∧ r.1.dag.get r.1.dag.main = some after ∧ r.1.dag.main = h ∧
            after.parents = [ns.dag.main] ∧ before.tree[holder]? = some body ∧
            update holder body = .ok (some (patch, replace)) ∧
            after.tree[holder]? = candidate (some body) patch replace ∧
            ∀ e, e ≠ holder → after.tree[e]? = before.tree[e]? := by
  intro ns
  have hinv : GateInv S schema ns :=
    run_of_step (I := GateInv S schema) (fun _ c hc hi => hi.step hexLe c hc) hg
      ⟨RegistryInv.init S backend treeStore schema, LineInv.init backend treeStore schema⟩
  refine ⟨?_, ?_⟩
  · intro k d e hd he
    rw [hinv.held_iff] at hd he
    exact Option.some.inj (hd.symm.trans he)
  intro E row txID timestamp author message h hu r
  constructor
  · intro hr k hk
    obtain ⟨ops, hsome, hdec, tx, hops, hbase, hsuccess, hns⟩ := execImmediateInsert_spec hr
    cases hdec with
    | inserts hid hfree =>
      obtain ⟨hinv', hcommit⟩ := hinv.commitOne hu tx hops hbase message
      obtain ⟨a, c, ha, hc, -, -, hrow, -⟩ := hcommit h hsuccess
      refine ⟨?_, ?_⟩
      · intro d hd
        rw [hinv.held_iff] at hd
        unfold conflictHolder at hfree
        rw [hinv.registry.schema_eq] at hfree
        rw [(holderAmong_none hfree).2 k hk] at hd
        cases hd
      · rw [hns]
        refine ⟨c, hc, ?_⟩
        have hnone : a.tree[row.id]? = none := by simpa [ha] using hid
        rw [hinv'.registry.schema_eq, hrow, hnone]
        exact mem_conflictKeys hk
    | nothing hne => exact absurd rfl hne
  · intro holder hr
    obtain ⟨ops, hsome, hdec, tx, hops, hbase, hsuccess, hns⟩ := execImmediateInsert_spec hr
    cases hdec with
    | @updates holder update body patch replace hholder hrow hbody hupdate =>
      obtain ⟨-, hcommit⟩ := hinv.commitOne hu tx hops hbase message
      obtain ⟨a, c, ha, hc, hmain, hparents, hafter, helse⟩ := hcommit h hsuccess
      have hbody' : a.tree[holder]? = some body := by simpa [ha] using hbody
      refine ⟨?_, update, body, patch, replace, a, c, hrow, ha, ?_, ?_, hparents, hbody', hupdate, ?_, helse⟩
      · unfold conflictHolder at hholder
        rw [hinv.registry.schema_eq] at hholder
        rcases holderAmong_some hholder with hnone | ⟨k, hk, ho⟩
        · cases hnone
        · exact ⟨k, hk, (hinv.held_iff k holder).2 ho⟩
      · rw [hns]
        exact hc
      · rw [hns]
        exact hmain
      · rw [hafter, hbody']
    | nothing _ => exact absurd rfl hsome

/-- a job by its key `k`: insert it, or count up the document that has it -/
def upsertK (id : DocId) (k : ℤ) : InsertRow where
  id := id
  json := [("k", .num k)]
  conflict := some [["k"]]
  update := some fun _ _ => .ok (some (.obj [("n", .num 1)], false))

/-- two upserts of one key, the second by another id, and a delete in between the second and a third -/
def upsertedTwice : List GateCall :=
  [.insert .guarded (upsertK 1 5) 11 10 7 "", .insert .guarded (upsertK 2 5) 12 11 7 "",
    .call (.commit .guarded ⟨13, 2, [.delete 1], 12, 7, []⟩ "")]

theorem upserts_exact_upsertedTwice :
    let ns := run (gateStep .uniqueK (· ≤ ·)) (Namespace.init .server true ()) upsertedTwice
    (execImmediateInsert .uniqueK .guarded ns (upsertK 3 5) 14 13 7 "").2 = .ok (some ⟨.inserts, some 4⟩) ∧
      ¬ Held .uniqueK ns (keyK 5) 1 := by
  have hg : Along (gateStep SchemaOps.uniqueK (· ≤ ·)) (fun ns c => c.Settles .uniqueK ns) (Namespace.init .server true ())
      upsertedTwice := by decide +kernel
  have hins : (execImmediateInsert .uniqueK .guarded
      (run (gateStep .uniqueK (· ≤ ·)) (Namespace.init .server true ()) upsertedTwice) (upsertK 3 5) 14 13 7 "").2 =
      .ok (some ⟨.inserts, some 4⟩) := by decide +kernel
  have hfree := ((upserts_exact .uniqueK (· ≤ ·) .server true () upsertedTwice hg).2 .guarded (upsertK 3 5) 14 13 7 "" 4
    rfl).1 hins (keyK 5) (by decide +kernel)
  exact ⟨hins, hfree.1 1⟩

/-- After a transaction that wrote document 1 with key 1 and then with key 2, an upsert of key 1 finds document 1 and updates it.
Nothing has key 1 before or after. -/
theorem upsert_of_phantom :
    let ns := run (gateStep .uniqueK (· ≤ ·)) (Namespace.init .server true ()) (rewrittenKey.map .call)
    let r := execImmediateInsert .uniqueK .guarded ns (upsertK 9 1) 14 13 7 ""
    r.2 = .ok (some ⟨.updates 1, some 2⟩) ∧
      ((ns.dag.get ns.dag.main).map fun c => c.tree.toList) = some [(1, [("k", .num 2)])] ∧
      ((r.1.dag.get r.1.dag.main).map fun c => c.tree.toList) = some [(1, [("k", .num 2), ("n", .num 1)])] := by
  decide +kernel

end Kdb
