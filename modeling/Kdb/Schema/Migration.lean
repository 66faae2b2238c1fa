/-
Schema migrations (`schema/engine.go`: `ApplyMigration`, `applyMigrationStep`; `schema/schema.go`: `Build`).

A migrated schema carries the time of its application, and its hash covers that time.
- `migration_hashes_agree_iff`: two nodes that apply a migration get schemas of one hash exactly when the schema already is
  of the target version or both read the clock in the same microsecond.
- `migrated_apart`: a microsecond apart, the hashes differ.

It carries no compound constraint.
- `migration_keeps_constraints_iff`: an applied migration keeps the constraints whose fields survive exactly when there are
  none.
- `migration_loses_constraints`: an index on a field costs the schema its constraint.

The wire encoding of a schema body and SHA-256 over it are the parameter `digest`. An enum is the set of its values: the
encoding sorts them. A clock reading is `time.Now().UnixNano()`.
-/
import Mathlib

namespace Kdb.Schema

inductive FieldType where
  | string
  | int32
  | int64
  | float64
  | bool
  | timestamp
  | uuid
  | object
  | array
  | enum (values : Finset String)
  deriving DecidableEq

structure Field where
  name : String
  type : FieldType
  required : Bool := false
  indexed : Bool := false
  unique : Bool := false
  deriving DecidableEq

structure Timestamp where
  epochMillis : ℤ
  microRemainder : ℤ
  deriving DecidableEq

def Timestamp.epochMicros (t : Timestamp) : ℤ := t.epochMillis * 1000 + t.microRemainder

def timestampNow (clock : ℤ) : Timestamp :=
  let micros := clock.tdiv 1000
  ⟨micros.tdiv 1000, micros.tmod 1000⟩

/-- what the hash of a schema without compound constraints covers (`schemaBodyValue`); the version goes out as an `int32` -/
structure Body where
  fields : List Field
  version : ℤ
  createdAt : ℤ
  description : String
  deriving DecidableEq

variable {H : Type}

/-- `KdbSchema`; a unique constraint is its tuple of fields -/
structure KdbSchema (H : Type) where
  schemaHash : H
  fields : List Field
  version : ℤ
  createdAt : Timestamp
  description : String
  uniqueConstraints : List (List String)

inductive MigrationStep where
  | addField (field : Field)
  | dropField (fieldName : String)
  | renameField (oldName newName : String)
  | changeType (fieldName : String) (newType : FieldType)
  | addIndex (fieldName : String)
  | dropIndex (fieldName : String)
  | setRequired (fieldName : String) (required : Bool)
  | setUnique (fieldName : String) (unique : Bool)
  | widenEnum (fieldName : String) (addValues : Finset String)
  | narrowEnum (fieldName : String) (removeValues : Finset String)

/-- `SchemaMigration`, without its id -/
structure SchemaMigration where
  fromVersion : ℤ
  toVersion : ℤ
  steps : List MigrationStep
  description : String

/-- `SchemaMigrationError`: the message, and the step that could not be made -/
structure MigrationError where
  message : String
  step : String := ""
  deriving DecidableEq

/-! ## Steps -/

def describeStep : MigrationStep → String
  | .addField f => "AddField(" ++ f.name ++ ")"
  | .dropField n => "DropField(" ++ n ++ ")"
  | .renameField a b => "RenameField(" ++ a ++ "->" ++ b ++ ")"
  | .changeType n _ => "ChangeType(" ++ n ++ ")"
  | .addIndex n => "AddIndex(" ++ n ++ ")"
  | .dropIndex n => "DropIndex(" ++ n ++ ")"
  | .setRequired n _ => "SetRequired(" ++ n ++ ")"
  | .setUnique n _ => "SetUnique(" ++ n ++ ")"
  | .widenEnum n _ => "WidenEnum(" ++ n ++ ")"
  | .narrowEnum n _ => "NarrowEnum(" ++ n ++ ")"

variable (fields : List Field)

/-- the first field of that name, changed (`indexField` and the assignment) -/
def editField (name : String) (edit : Field → Except String Field) : Except String (List Field) :=
  match fields.findIdx? (·.name = name) with
  | none => .error ("unknown field " ++ name)
  | some i => do
    let cur ← edit (fields.getD i ⟨name, .string, false, false, false⟩)
    return fields.set i cur

/-- an edit of an enum's values -/
def editEnum (name : String) (edit : Finset String → Except String (Finset String)) (f : Field) : Except String Field :=
  match f.type with
  | .enum values => do return { f with type := .enum (← edit values) }
  | _ => .error (name ++ " is not an enum field")

def applyMigrationStep : MigrationStep → Except String (List Field)
  | .addField f =>
    if fields.any (·.name = f.name) then .error ("field " ++ f.name ++ " already exists") else .ok (fields ++ [f])
  | .dropField n =>
    match fields.findIdx? (·.name = n) with
    | none => .error ("cannot drop unknown field " ++ n)
    | some i => .ok (fields.eraseIdx i)
  | .renameField a b => editField fields a fun f =>
    if fields.any (·.name = b) then .error ("target name " ++ b ++ " already exists") else .ok { f with name := b }
  | .changeType n t => editField fields n fun f => .ok { f with type := t }
  | .addIndex n => editField fields n fun f => .ok { f with indexed := true }
  | .dropIndex n => editField fields n fun f => .ok { f with indexed := false, unique := false }
  | .setRequired n r => editField fields n fun f => .ok { f with required := r }
  | .setUnique n u => editField fields n fun f => .ok { f with indexed := f.indexed || u, unique := u }
  | .widenEnum n vs => editField fields n <| editEnum n fun values => .ok (values ∪ vs)
  | .narrowEnum n vs => editField fields n <| editEnum n fun values =>
    if ¬ vs ⊆ values then .error ("cannot remove enum symbols that are not declared on " ++ n)
    else if values \ vs = ∅ then .error ("enum cannot become empty on " ++ n)
    else .ok (values \ vs)

def replayMigrationSteps : List Field → List MigrationStep → Except MigrationError (List Field)
  | fields, [] => .ok fields
  | fields, st :: steps =>
    match applyMigrationStep fields st with
    | .error msg => .error ⟨msg, describeStep st⟩
    | .ok fields => replayMigrationSteps fields steps

/-! ## Building a schema -/

/-- `Build`: `BuildWithConstraints` with no compound constraint, so none to check -/
def build (digest : Body → H) (fields : List Field) (version : ℤ) (createdAt : Timestamp) (description : String) :
    Except MigrationError (KdbSchema H) :=
  if version < 1 then .error { message := "schema version must be >= 1" }
  else if ¬ (fields.map Field.name).Nodup then .error { message := "duplicate field names" }
  else .ok ⟨digest ⟨fields, version.bmod (2 ^ 32), createdAt.epochMicros, description⟩, fields, version, createdAt,
    description, []⟩

/-- `ApplyMigration` at a clock reading -/
def applyMigration (digest : Body → H) (clock : ℤ) (current : KdbSchema H) (m : SchemaMigration) :
    Except MigrationError (KdbSchema H) :=
  if current.version = m.toVersion then .ok current
  else if m.fromVersion ≠ current.version then
    .error { message := "migration.fromVersion (" ++ toString m.fromVersion ++ ") != current.version (" ++
      toString current.version ++ ")" }
  else if m.toVersion ≠ current.version + 1 then
    .error { message := "migration.toVersion (" ++ toString m.toVersion ++ ") must equal current.version + 1" }
  else
    match replayMigrationSteps current.fields m.steps with
    | .error e => .error e
    | .ok fields => build digest fields m.toVersion (timestampNow clock)
        (if m.description = "" then current.description else m.description)

/-! ## Two nodes -/

variable {digest : Body → H}

theorem timestampNow_epochMicros (clock : ℤ) : (timestampNow clock).epochMicros = clock.tdiv 1000 := by
  simp only [Timestamp.epochMicros]
  rw [mul_comm]
  exact Int.mul_tdiv_add_tmod _ _

/-- what a build makes of the time: it enters the time of creation and the hash, and decides nothing -/
theorem build_at (version : ℤ) (description : String) : (∃ e, ∀ now, build digest fields version now description = .error e) ∨
      ∀ now, build digest fields version now description =
        .ok ⟨digest ⟨fields, version.bmod (2 ^ 32), now.epochMicros, description⟩, fields, version, now, description, []⟩ := by
  unfold build
  split_ifs
  · exact .inl ⟨_, fun _ => rfl⟩
  · exact .inr fun _ => rfl
  · exact .inl ⟨_, fun _ => rfl⟩

/-- a migration leaves the schema, fails, or builds the one schema with the time filled in -/
theorem applyMigration_at (digest : Body → H) (current : KdbSchema H) (m : SchemaMigration) :
    (current.version = m.toVersion ∧ ∀ clock, applyMigration digest clock current m = .ok current) ∨
      current.version ≠ m.toVersion ∧ ((∃ e, ∀ clock, applyMigration digest clock current m = .error e) ∨
        ∃ b : ℤ → Body, (∀ t, (b t).createdAt = t) ∧ ∀ clock, ∃ s, applyMigration digest clock current m = .ok s ∧
          s.schemaHash = digest (b (clock.tdiv 1000))) := by
  unfold applyMigration
  generalize (if m.description = "" then current.description else m.description) = description
  split_ifs with hdone
  · exact .inl ⟨hdone, fun _ => rfl⟩
  · exact .inr ⟨hdone, .inl ⟨_, fun _ => rfl⟩⟩
  · exact .inr ⟨hdone, .inl ⟨_, fun _ => rfl⟩⟩
  · refine .inr ⟨hdone, ?_⟩
    cases replayMigrationSteps current.fields m.steps with
    | error e => exact .inl ⟨e, fun _ => rfl⟩
    | ok fields =>
      rcases build_at fields m.toVersion description with ⟨e, he⟩ | hok
      · exact .inl ⟨e, fun clock => he (timestampNow clock)⟩
      · refine .inr ⟨fun t => ⟨fields, m.toVersion.bmod (2 ^ 32), t, description⟩, fun _ => rfl, fun clock => ?_⟩
        refine ⟨_, hok (timestampNow clock), ?_⟩
        rw [timestampNow_epochMicros]

/-- a migration that goes through left the schema, or made its steps and built a schema without constraints -/
theorem applyMigration_ok {clock : ℤ} {current s : KdbSchema H} {m : SchemaMigration}
    (h : applyMigration digest clock current m = .ok s) :
    (current.version = m.toVersion ∧ s = current) ∨ (current.version ≠ m.toVersion ∧ s.uniqueConstraints = [] ∧
      replayMigrationSteps current.fields m.steps = .ok s.fields) := by
  unfold applyMigration at h
  generalize (if m.description = "" then current.description else m.description) = description at h
  split_ifs at h with hdone
  · cases h
    exact .inl ⟨hdone, rfl⟩
  · split at h
    · cases h
    · next fields hfields =>
      rcases build_at fields m.toVersion description with ⟨e, he⟩ | hok
      · rw [he] at h
        cases h
      · rw [hok] at h
        cases h
        exact .inr ⟨hdone, rfl, hfields⟩

/-- **When the hashes agree.** The time never decides whether a migration applies; the schemas two nodes get have one hash
exactly when there was nothing to apply or the clocks read the same microsecond. -/
theorem migration_hashes_agree_iff (hinj : Function.Injective digest) (current : KdbSchema H) (m : SchemaMigration)
    (clock clock' : ℤ) :
    (∀ e, applyMigration digest clock current m = .error e ↔ applyMigration digest clock' current m = .error e) ∧
      ∀ s s', applyMigration digest clock current m = .ok s → applyMigration digest clock' current m = .ok s' →
        (s.schemaHash = s'.schemaHash ↔ current.version = m.toVersion ∨ clock.tdiv 1000 = clock'.tdiv 1000) := by
  obtain ⟨hdone, hsame⟩ | ⟨hnew, ⟨e, hfail⟩ | ⟨b, hb, hok⟩⟩ := applyMigration_at digest current m
  · simp only [hsame]
    refine ⟨fun _ => trivial, ?_⟩
    simp [hdone]
  · simp [hfail]
  · obtain ⟨t, ht, hash⟩ := hok clock
    obtain ⟨t', ht', hash'⟩ := hok clock'
    simp only [ht, ht', Except.ok.injEq]
    refine ⟨fun _ => by simp, ?_⟩
    rintro s s' rfl rfl
    rw [hash, hash', hinj.eq_iff]
    constructor
    · intro h
      have := congrArg Body.createdAt h
      rw [hb, hb] at this
      exact .inr this
    · rintro (h | h)
      · exact absurd h hnew
      · rw [h]

/-- a namespace without a schema (`None`) -/
def noSchema : KdbSchema Body := ⟨⟨[], 0, 0, ""⟩, [], 0, ⟨0, 0⟩, "", []⟩

def addName : SchemaMigration := ⟨0, 1, [.addField { name := "name", type := .string }], "names"⟩

theorem migration_hashes_agree_addName : ∃ s s', applyMigration id 1999 noSchema addName = .ok s ∧
    applyMigration id 1000 noSchema addName = .ok s' ∧ s.schemaHash = s'.schemaHash :=
  ⟨_, _, rfl, rfl, ((migration_hashes_agree_iff Function.injective_id noSchema addName 1999 1000).2 _ _ rfl rfl).2 (.inr rfl)⟩

/-- **A microsecond apart.** The same migration of the same schema gives two hashes. -/
theorem migrated_apart : ∃ s s', applyMigration id 1000 noSchema addName = .ok s ∧
    applyMigration id 2000 noSchema addName = .ok s' ∧ s.schemaHash ≠ s'.schemaHash :=
  ⟨_, _, rfl, rfl, by decide⟩

/-! ## Compound constraints -/

/-- the name a field has after a step; a dropped one has none -/
def MigrationStep.follow (name : String) : MigrationStep → Option String
  | .dropField n => if name = n then none else some name
  | .renameField a b => some (if name = a then b else name)
  | _ => some name

/-- the constraints whose fields all survive the steps, with the names these have then -/
def survivingConstraints (constraints : List (List String)) (steps : List MigrationStep) : List (List String) :=
  constraints.filterMap (·.mapM fun name => steps.foldlM MigrationStep.follow name)

/-- **Compound constraints are not carried over.** A migration with nothing to apply leaves them; one that is applied builds a
schema without any, which is right exactly when none survives. -/
theorem migration_keeps_constraints_iff {clock : ℤ} {current s : KdbSchema H} {m : SchemaMigration}
    (h : applyMigration digest clock current m = .ok s) :
    (current.version = m.toVersion → s.uniqueConstraints = current.uniqueConstraints) ∧
      (current.version ≠ m.toVersion →
        (s.uniqueConstraints = survivingConstraints current.uniqueConstraints m.steps ↔
          survivingConstraints current.uniqueConstraints m.steps = [])) := by
  rcases applyMigration_ok h with ⟨hdone, rfl⟩ | ⟨hnew, hnone, -⟩
  · exact ⟨fun _ => rfl, absurd hdone⟩
  · refine ⟨fun hdone => absurd hdone hnew, fun _ => ?_⟩
    rw [hnone, eq_comm]

/-- two fields that are unique together -/
def paired : KdbSchema Body := { noSchema with
  fields := [{ name := "a", type := .string }, { name := "b", type := .string }]
  version := 1
  uniqueConstraints := [["a", "b"]] }

def dropB : SchemaMigration := ⟨1, 2, [.dropField "b"], ""⟩

theorem migration_keeps_constraints_dropB : ∃ s, applyMigration id 0 paired dropB = .ok s ∧
    s.uniqueConstraints = survivingConstraints paired.uniqueConstraints dropB.steps := by
  have h : applyMigration id 0 paired dropB = .ok _ := rfl
  exact ⟨_, h, ((migration_keeps_constraints_iff h).2 (by decide)).2 (by decide)⟩

/-- **An index for a constraint.** Both fields survive, and the constraint is gone. -/
theorem migration_loses_constraints : ∃ s, applyMigration id 0 paired ⟨1, 2, [.addIndex "a"], ""⟩ = .ok s ∧
    s.uniqueConstraints = [] ∧ survivingConstraints paired.uniqueConstraints [.addIndex "a"] = [["a", "b"]] :=
  ⟨_, rfl, rfl, by decide⟩

end Kdb.Schema
