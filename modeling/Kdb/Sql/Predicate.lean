/-
SQL cells, their comparison, and the evaluation of expressions over documents (`sql/predicate.go`, `sql/model.go`,
`json/candidates.go`).

A column reference fans out over arrays: an operand is a list of candidate cells, and a comparison holds as soon as
one pair of candidates satisfies it. Booleans stored in a document read as the integers 0 and 1, numbers compare
across integer, double and boolean, cells of different kinds are incomparable and NULL compares with nothing.

- `Env.eval`: one evaluation gives an operand's cell, its candidates and its truth; the source's `cell`,
  `candidates` and `predicate` are its three projections. They call each other on the same node, so they are one
  recursion here.
- `compareOp_flip`: mirroring a comparison mirrors its operator, NaN included.

A dotted column name is the list of its segments (the parser reads identifiers only, so there is no other spelling of
a path). Left as parameters of `Env`: scalar functions, attachment listings, JSON text, floating point arithmetic and
case folding. `CASE` is read as nested two-way choices. Search functions (`MATCH`, `SIMILARITY`, `FUSE`) are left out.
-/
import Kdb.Document.Commit

variable (op : BinaryOp)

namespace Kdb.Sql

/-! ## Doubles -/

/-- `float64` values; `fin 0` is the positive zero -/
inductive Float64 where
  | nan
  | negInf
  | negZero
  | fin (q : ℚ)
  | posInf
  deriving DecidableEq

namespace Float64

/-- place of a number on the extended line; both zeros stand at 0 -/
def place : Float64 → ℕ × ℚ
  | nan => (3, 0)
  | negInf => (0, 0)
  | negZero => (1, 0)
  | fin q => (1, q)
  | posInf => (2, 0)

/-- Go's `<` on doubles: false as soon as one side is NaN -/
def lt (a b : Float64) : Bool :=
  a ≠ nan && b ≠ nan && (a.place.1 < b.place.1 || (a.place.1 = b.place.1 && a.place.2 < b.place.2))

/-- `float64(n)`: the nearest integer with a 53 bit significand, ties to even -/
def ofInt64 (n : ℤ) : Float64 :=
  let k := n.natAbs.log2 - 52
  let q := n.natAbs / 2 ^ k
  let r := n.natAbs % 2 ^ k
  let up := if 2 ^ k < 2 * r ∨ (2 * r = 2 ^ k ∧ q % 2 = 1) then 1 else 0
  fin (n.sign * ((q + up) * 2 ^ k : ℕ) : ℤ)

end Float64

/-! ## Cells -/

inductive Cell where
  | null
  | long (n : ℤ)
  | double (f : Float64)
  | bool (b : Bool)
  | str (s : String)
  | json (text : String)
  | bytes (b : List UInt8)
  | attachmentRef (name : String)
  deriving DecidableEq

/-- `isNullCell` -/
def Cell.isNull : Cell → Bool
  | .null => true
  | _ => false

/-- `isTrueCell` -/
def Cell.isTrue : Cell → Bool
  | .bool b => b
  | .long n => n ≠ 0
  | _ => false

/-- `cellTypeRank`: NULL, numeric, string, JSON, anything else -/
def Cell.typeRank : Cell → ℕ
  | .null => 0
  | .long _ | .double _ | .bool _ => 1
  | .str _ => 2
  | .json _ => 3
  | .bytes _ | .attachmentRef _ => 4

def boolToInt64 (b : Bool) : ℤ := if b then 1 else 0

/-- `numericValue`: the integer and the double of a numeric cell, and whether it is an integer -/
def Cell.numericValue : Cell → ℤ × Float64 × Bool
  | .long n => (n, .ofInt64 n, true)
  | .double f => (0, f, false)
  | .bool b => (boolToInt64 b, .ofInt64 (boolToInt64 b), true)
  | _ => (0, .fin 0, false)

/-- doubles as `compareSameKind` orders them: NaN below every number and equal to itself -/
def Float64.order (a b : Float64) : Ordering :=
  if a.lt b then .lt else if b.lt a then .gt else if a = nan ∧ b ≠ nan then .lt else if a ≠ nan ∧ b = nan then .gt
  else .eq

/-- `compareSameKind`; cells of different kinds are never passed -/
def compareSameKind : Cell → Cell → Ordering
  | .str a, .str b => compare a b
  | .json a, .json b => compare a b
  | left, right =>
    if left.typeRank = 1 then
      let l := left.numericValue
      let r := right.numericValue
      if l.2.2 && r.2.2 then compare l.1 r.1 else l.2.1.order r.2.1
    else .eq

/-- `compareComparable`: nothing for NULL or cells of different kinds -/
def compareComparable (left right : Cell) : Option Ordering :=
  if left.typeRank = 0 ∨ right.typeRank = 0 ∨ left.typeRank ≠ right.typeRank then none
  else some (compareSameKind left right)

inductive BinaryOp where
  | eq | ne | lt | le | gt | ge | and | or | like | ilike
  deriving DecidableEq

/-- the switch over the operator at the end of `compareOp` -/
def BinaryOp.accepts : BinaryOp → Ordering → Bool
  | .eq, o => o = .eq
  | .ne, o => o ≠ .eq
  | .lt, o => o = .lt
  | .le, o => o ≠ .gt
  | .gt, o => o = .gt
  | .ge, o => o ≠ .lt
  | _, _ => false

/-- `compareOp`: NULL compares with nothing; incomparable cells only differ -/
def compareOp (left right : Cell) : Bool :=
  if left.isNull || right.isNull then false
  else match compareComparable left right with
    | none => op = .ne
    | some o => op.accepts o

/-- `flipOp`: the mirrored comparison -/
def flipOp : BinaryOp → BinaryOp
  | .lt => .gt
  | .le => .ge
  | .gt => .lt
  | .ge => .le
  | op => op

theorem Float64.lt_asymm {a b : Float64} (h : a.lt b = true) : b.lt a = false := by
  by_contra hc
  simp only [Float64.lt, Bool.and_eq_true, Bool.or_eq_true, decide_eq_true_eq, Bool.not_eq_false] at h hc
  obtain ⟨-, h⟩ := h
  obtain ⟨-, hc⟩ := hc
  rcases h with h | ⟨h₁, h₂⟩ <;> rcases hc with hc | ⟨hc₁, hc₂⟩
  · omega
  · omega
  · omega
  · exact absurd h₂ (not_lt.mpr hc₂.le)

theorem Float64.order_swap (a b : Float64) : (a.order b).swap = b.order a := by
  by_cases h : a.lt b
  · simp [Float64.order, h, Float64.lt_asymm h]
  · by_cases h' : b.lt a
    · simp [Float64.order, h, h']
    · simp only [Float64.order, if_neg h, if_neg h']
      by_cases ha : a = .nan <;> by_cases hb : b = .nan <;> simp [ha, hb]

theorem typeRank_one {c : Cell} (h : c.typeRank = 1) :
    (∃ n, c = .long n) ∨ (∃ f, c = .double f) ∨ ∃ b, c = .bool b := by
  cases c <;> simp_all [Cell.typeRank]

/-- numeric cells compare as integers when both are integers and as doubles otherwise -/
theorem compareSameKind_numeric {l r : Cell} (h : l.typeRank = 1) :
    compareSameKind l r = if l.numericValue.2.2 && r.numericValue.2.2 then compare l.numericValue.1 r.numericValue.1
      else l.numericValue.2.1.order r.numericValue.2.1 := by
  obtain ⟨n, rfl⟩ | ⟨f, rfl⟩ | ⟨b, rfl⟩ := typeRank_one h <;> simp [compareSameKind, Cell.typeRank]

theorem compareSameKind_swap {l r : Cell} (h : l.typeRank = r.typeRank) :
    (compareSameKind l r).swap = compareSameKind r l := by
  by_cases h1 : l.typeRank = 1
  · rw [compareSameKind_numeric h1, compareSameKind_numeric (h ▸ h1)]
    by_cases hi : (l.numericValue.2.2 && r.numericValue.2.2) = true
    · rw [if_pos hi, if_pos (by rwa [Bool.and_comm])]
      exact Std.OrientedOrd.eq_swap.symm
    · rw [if_neg hi, if_neg (by rwa [Bool.and_comm]), Float64.order_swap]
  · cases l <;> cases r <;> simp_all [compareSameKind]
    all_goals exact Std.OrientedOrd.eq_swap.symm

theorem accepts_flip (o : Ordering) : (flipOp op).accepts o.swap = op.accepts o := by
  cases op <;> cases o <;> rfl

/-- Mirroring a comparison mirrors its operator. -/
theorem compareOp_flip (l r : Cell) : compareOp (flipOp op) r l = compareOp op l r := by
  have hne : (flipOp op = BinaryOp.ne) ↔ op = BinaryOp.ne := by cases op <;> simp [flipOp]
  by_cases hr : l.typeRank = r.typeRank
  · simp only [compareOp, compareComparable, hr, Bool.or_comm r.isNull, ← compareSameKind_swap hr]
    split
    · rfl
    · by_cases h0 : r.typeRank = 0 <;> simp [h0, hne, accepts_flip]
  · have hr' : r.typeRank ≠ l.typeRank := fun h => hr h.symm
    simp [compareOp, compareComparable, hr, hr', hne, Bool.or_comm r.isNull]

/-! ## Documents and candidates -/

/-- a document as a query sees it: its id and its (object) body -/
structure Doc where
  id : DocId
  body : Fields
  deriving DecidableEq

/-- a dotted column name, by segments -/
abbrev Name := List String

mutual
/-- `collectCandidates`: the values a path reaches; with `expandFinal` a terminal array gives its elements -/
def candidatesOf (expandFinal : Bool) : Json → List String → List Json
  | .arr elements, [] => if expandFinal then elements else [.arr elements]
  | cur, [] => [cur]
  | .obj fields, s :: rest => candidatesOfMember expandFinal s rest fields
  | .arr elements, s :: rest => candidatesOfAll expandFinal (s :: rest) elements
  | _, _ :: _ => []
/-- the member `s` of an object, then the rest of the path -/
def candidatesOfMember (expandFinal : Bool) (s : String) (rest : List String) : List (String × Json) → List Json
  | [] => []
  | (k, v) :: fields =>
    if k = s then candidatesOf expandFinal v rest else candidatesOfMember expandFinal s rest fields
/-- implicit traversal: the path applies to every element, in order -/
def candidatesOfAll (expandFinal : Bool) (segs : List String) : List Json → List Json
  | [] => []
  | v :: elements => candidatesOf expandFinal v segs ++ candidatesOfAll expandFinal segs elements
end

/-! ## Expressions -/

/-- `ExprArith` operators -/
inductive ArithOp where
  | add | sub | mul | div
  deriving DecidableEq

inductive Expr where
  | literal (c : Cell)
  | column (name : Name)
  | parameter (index : ℕ)
  | binary (op : BinaryOp) (left right : Expr)
  | not (e : Expr)
  | isNull (e : Expr)
  | inList (e : Expr) (values : List Expr)
  | between (e low high : Expr)
  | arith (op : ArithOp) (left right : Expr)
  | caseWhen (cond thenCell elseCell : Expr)
  | call (name : String) (args : List Expr)

/-- a query's evaluation context (`evalEnv`): what a column, a parameter or a function resolves to -/
structure Env where
  params : List Cell
  /-- whether a leading segment names the FROM table or its alias (`strings.EqualFold`) -/
  isTable : String → Bool
  idString : DocId → String
  parseUUID : String → Option DocId
  /-- the stored text of a document -/
  docText : Doc → String
  toJSONString : Json → String
  attachmentsJSON : DocId → Json
  functionCell : String → List Expr → Doc → Cell
  floatArith : ArithOp → Float64 → Float64 → Float64
  /-- equality of characters under `ILIKE` -/
  sameFold : Char → Char → Bool

variable (name : Name)

def isReservedColumn : Bool :=
  name = ["kdb_id"] || name = ["_doc"] || name = ["_attachments"] || name = ["*"]

namespace Env

variable (env : Env)

/-- `stripTableAlias` -/
def columnName : Name → Name
  | s :: t :: rest => if env.isTable s then t :: rest else s :: t :: rest
  | name => name

/-- `jsonValueToCell`: booleans become the integers 0 and 1 -/
def jsonValueToCell : Json → Cell
  | .null => .null
  | .str s => .str s
  | .num n => .long n
  | .bool b => .long (boolToInt64 b)
  | .arr elements => .json (env.toJSONString (.arr elements))
  | .obj fields => .json (env.toJSONString (.obj fields))

def columnValues (d : Doc) (expand : Bool) : List Json :=
  let name := env.columnName name
  if name = ["kdb_id"] then [.str (env.idString d.id)]
  else if name = ["_doc"] then [.obj d.body]
  else if name = ["_attachments"] then [env.attachmentsJSON d.id]
  else candidatesOf expand (.obj d.body) name

/-- the column branch of `candidates` -/
def columnCells (d : Doc) : List Cell :=
  if env.columnName name = ["_doc"] then [.json (env.docText d)]
  else (env.columnValues name d true).map env.jsonValueToCell

/-- the column branch of `cell`: the first candidate, arrays whole -/
def columnCell (d : Doc) : Cell :=
  if env.columnName name = ["_doc"] then .json (env.docText d)
  else match env.columnValues name d false with
    | [] => .null
    | v :: _ => env.jsonValueToCell v

def parameterToCell (i : ℕ) : Cell := (env.params[i]?).getD .null

/-- two's complement in 64 bits -/
def wrap64 (n : ℤ) : ℤ := Int.bmod n (2 ^ 64)

def arith (op : ArithOp) : Cell → Cell → Cell
  | .long a, .long b =>
    match op with
    | .add => .long (wrap64 (a + b))
    | .sub => .long (wrap64 (a - b))
    | .mul => .long (wrap64 (a * b))
    | .div => if b = 0 then .null else .long (wrap64 (a.tdiv b))
  | .long a, .double b => floats op (.ofInt64 a) b
  | .double a, .long b => floats op a (.ofInt64 b)
  | .double a, .double b => floats op a b
  | _, _ => .null
where
  floats (op : ArithOp) (a b : Float64) : Cell :=
    if op = .div ∧ (b = .fin 0 ∨ b = .negZero) then .null else .double (env.floatArith op a b)

/-- the regular expression `likeRegexp` builds: `%` any run, `_` one character, anything else itself -/
def likeMatch (same : Char → Char → Bool) : List Char → List Char → Bool
  | [], s => s.isEmpty
  | '%' :: p, s => s.tails.any (likeMatch same p)
  | _ :: _, [] => false
  | x :: p, c :: s => (x = '_' || same x c) && likeMatch same p s

/-- `LIKE` and `ILIKE` over the candidates of the left side -/
def like (caseInsensitive : Bool) (lefts : List Cell) : Cell → Bool
  | .str pattern => lefts.any fun
    | .str s => likeMatch (if caseInsensitive then env.sameFold else fun a b => a = b) pattern.toList s.toList
    | _ => false
  | _ => false

/-- some pair of candidates satisfies the comparison -/
def anyPair (lefts rights : List Cell) : Bool :=
  lefts.any fun l => rights.any fun r => compareOp op l r

/-- what an expression evaluates to in one document -/
structure Operand where
  cell : Cell
  candidates : List Cell
  holds : Bool

/-- a single value; a parameter, literal, `CASE` or function call holds when its cell is true -/
def Operand.value (c : Cell) : Operand := ⟨c, [c], c.isTrue⟩

/-- a truth value: `cell` wraps `predicate` -/
def Operand.truth (b : Bool) : Operand := ⟨.bool b, [.bool b], b⟩

mutual
/-- `cell`, `candidates` and `predicate` of an expression -/
def eval (d : Doc) : Expr → Operand
  | .literal c => .value c
  | .parameter i => .value (env.parameterToCell i)
  | .column n =>
    ⟨env.columnCell n d, env.columnCells n d, (env.columnValues n d true).any fun v => v = .bool true⟩
  | .binary .and l r => .truth ((eval d l).holds && (eval d r).holds)
  | .binary .or l r => .truth ((eval d l).holds || (eval d r).holds)
  | .binary .like l r => .truth (env.like false (eval d l).candidates (eval d r).cell)
  | .binary .ilike l r => .truth (env.like true (eval d l).candidates (eval d r).cell)
  | .binary op l r => .truth (anyPair op (eval d l).candidates (eval d r).candidates)
  | .not e => .truth (!(eval d e).holds)
  | .isNull e => .truth (eval d e).cell.isNull
  | .inList e values => .truth (anyPair .eq (eval d e).candidates (evalAll d values))
  | .between e low high =>
    .truth ((eval d e).candidates.any fun l =>
      compareOp .ge l (eval d low).cell && compareOp .le l (eval d high).cell)
  | .arith op l r =>
    let c := env.arith op (eval d l).cell (eval d r).cell
    ⟨c, [c], false⟩
  | .caseWhen cond t e => .value (if (eval d cond).holds then (eval d t).cell else (eval d e).cell)
  | .call name args => .value (env.functionCell name args d)
/-- the candidates of every value of an IN list -/
def evalAll (d : Doc) : List Expr → List Cell
  | [] => []
  | e :: es => (eval d e).candidates ++ evalAll d es
end

def cell (e : Expr) (d : Doc) : Cell := (env.eval d e).cell

def predicate (e : Expr) (d : Doc) : Bool := (env.eval d e).holds

/-! ### The branches an access path relies on -/

/-- an operand that is the same in every document: a literal or a parameter -/
def constCell : Expr → Option Cell
  | .literal c => some c
  | .parameter i => some (env.parameterToCell i)
  | _ => none

theorem candidates_const {e : Expr} {c : Cell} (h : env.constCell e = some c) (d : Doc) :
    (env.eval d e).candidates = [c] := by
  cases e <;> simp_all [constCell, eval, Operand.value]

theorem cell_const {e : Expr} {c : Cell} (h : env.constCell e = some c) (d : Doc) : (env.eval d e).cell = c := by
  cases e <;> simp_all [constCell, eval, Operand.value]

@[simp] theorem predicate_and (l r : Expr) (d : Doc) :
    env.predicate (.binary .and l r) d = (env.predicate l d && env.predicate r d) := rfl

@[simp] theorem predicate_or (l r : Expr) (d : Doc) :
    env.predicate (.binary .or l r) d = (env.predicate l d || env.predicate r d) := rfl

end Env

end Kdb.Sql
