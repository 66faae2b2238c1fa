/-
Resolution chains (`peersync/resolution_chain.go`, `peersync/merge_semantics_v2.go`): a namespace's ordered rules for a
document two sides hold differently.

Every rule sees the two sides in the order of the merge's parents and nothing else a node could hold differently: the
bodies, their origins, a base, and the history. So the definitions here take no local and no incoming side.
- `resolveRules`: the rules in order, until one decides, queues or holds the document.
- `fieldMerge`: the three-way merge of top-level fields against a base (chain version 1).
- `fieldMergeByOrigin`: the merge that follows each field to the write that set it (chain version 2).
- `virtualBase`: the base of a version 2 chain, merged from several nearest common ancestors.
- `originLater_swap`: of two different held writes one is later; no rule can prefer both.

A stored procedure and the schema check are parameters. What only concerns notification (an authority's node, timeout
and procedure) and the chain's own hash are left out. The memo of `virtualBase` only saves work and is left out too.
-/
import Kdb.Peersync.History
import Kdb.Transaction.Types

namespace Kdb.Peersync

/-- `ForkDoc`: the document a conflict's losing side is kept in -/
structure ForkDoc where
  id : DocId
  body : Fields
  deriving DecidableEq

structure Settlement where
  body : Option Fields
  fork : Option ForkDoc
  deriving DecidableEq

structure ConflictOrigin where
  nodeId : NodeId
  commit : Hash
  timestamp : ℕ
  deriving DecidableEq

/-- `ProcedureConflict`: side 0 is the merge's first parent's -/
structure ProcedureConflict where
  docId : DocId
  base : Option Fields
  side0 : Option Fields
  side1 : Option Fields
  origin0 : Option ConflictOrigin
  origin1 : Option ConflictOrigin

/-- `ResolutionRule`, by kind -/
inductive Rule where
  | sourcePriority (nodes : List NodeId)
  | validity
  | fieldMerge
  | lastWrite
  | queue
  | procedure (name sourceHash : String)
  | authority (provisional : Bool)
  deriving DecidableEq

/-- `ResolutionChain` -/
structure Chain where
  rules : List Rule
  allowUnrelated : Bool
  version : ℕ

def Chain.effectiveVersion (c : Chain) : ℕ := if c.version ≤ 1 then 1 else c.version

def maxChainVersion : ℕ := 2

/-- `mergeBases` of a chain: whether it runs the semantics of version 2 -/
def Chain.mergeBases (c : Chain) : Bool := 2 ≤ c.effectiveVersion

/-- `ResolutionOptions` without `Choose` and `Resolver` -/
structure Options where
  policy : ConflictPolicy
  chain : Option Chain
  valid : Option (Fields → Bool)
  procedure : Option (String → String → ProcedureConflict → Except String (Option Settlement))
  schemaHash : Option ℕ

/-- `conflictSides`, side 0 being the first parent's; `heads` are set for a real merge under version 2 -/
structure ConflictSides where
  body0 : Option Fields
  body1 : Option Fields
  origin0 : Option Hash
  origin1 : Option Hash
  base : Option Fields
  heads : Option (Hash × Hash)
  baseHeld : Option String

inductive ChainOutcome where
  | decided (winner : Option Fields) (fork : Option ForkDoc) (provisional : Bool)
  | queued
  | held (reason : String)
  | exhausted
  deriving DecidableEq

variable (H : History)

/-! ## The rules -/

def conflictOrigin (o : Option Hash) : Option ConflictOrigin :=
  o.bind fun h => (H.commit h).map fun c => ⟨c.author, h, c.timestamp⟩

def lastWrite (s : ConflictSides) : Option Fields := if H.originLater s.origin0 s.origin1 then s.body0 else s.body1

/-- the rank of a write's author; an unlisted node ranks below every listed one -/
def nodeRank (nodes : List NodeId) (o : Option Hash) : ℕ :=
  match o.bind H.commit with
  | none => nodes.length
  | some c => nodes.idxOf c.author

def sourcePriority (nodes : List NodeId) (s : ConflictSides) : Option (Option Fields) :=
  if nodeRank H nodes s.origin0 < nodeRank H nodes s.origin1 then some s.body0
  else if nodeRank H nodes s.origin1 < nodeRank H nodes s.origin0 then some s.body1
  else none

/-- the keys of objects, each once, in order -/
def keysOf (objects : List Fields) : List String := (objects.flatMap (·.map Prod.fst)).reverse.dedup.reverse

/-- which side a field is taken from: whichever changed it against the base -/
def fieldSide (base a b : Fields) (k : String) : Option Fields :=
  if a.get k = b.get k then some a
  else if a.get k = base.get k then some b
  else if b.get k = base.get k then some a
  else none

def fieldMerge (base a b : Option Fields) : Option Fields :=
  match a, b with
  | some a, some b =>
    let base := base.getD []
    ((keysOf [a, b, base]).mapM fun k => (fieldSide base a b k).map fun side => (side.get k).map (k, ·)).map
      (·.filterMap id)
  | _, _ => none

/-- which side a field is taken from under version 2: whichever changed it, by the field's own origin -/
def fieldSideByOrigin (d : DocId) (heads : Hash × Hash) (lastWriteNext : Bool) (a b : Fields) (k : String) :
    Option Fields :=
  if a.get k = b.get k then some a
  else
    let o0 := H.fieldOrigin heads.1 d k
    let o1 := H.fieldOrigin heads.2 d k
    match H.changed o0 heads.2, H.changed o1 heads.1 with
    | true, false => some a
    | false, true => some b
    | _, _ => if !lastWriteNext then none else if H.originLater o0 o1 then some a else some b

def fieldMergeByOrigin (d : DocId) (heads : Hash × Hash) (s : ConflictSides) (lastWriteNext : Bool) : Option Fields :=
  match s.body0, s.body1 with
  | some a, some b =>
    ((keysOf [a, b]).mapM fun k =>
      (fieldSideByOrigin H d heads lastWriteNext a b k).map fun side => (side.get k).map (k, ·)).map (·.filterMap id)
  | _, _ => none

/-- the loop of `resolve` over the rules still to try -/
def resolveRules (opts : Options) (v2 : Bool) (d : DocId) (s : ConflictSides) : List Rule → ChainOutcome
  | [] => .exhausted
  | .procedure name sourceHash :: rest =>
    match opts.procedure with
    | none => .held ("this node cannot run stored procedures, so it cannot apply rule " ++ name)
    | some run =>
      match run name sourceHash
          ⟨d, s.base, s.body0, s.body1, conflictOrigin H s.origin0, conflictOrigin H s.origin1⟩ with
      | .error e => .held ("procedure " ++ name ++ ": " ++ e)
      | .ok (some st) => .decided st.body st.fork false
      | .ok none => resolveRules opts v2 d s rest
  | .sourcePriority nodes :: rest =>
    match sourcePriority H nodes s with
    | some winner => .decided winner none false
    | none => resolveRules opts v2 d s rest
  | .validity :: rest =>
    match s.body0, s.body1 with
    | some a, some b =>
      if v2 && opts.schemaHash.isNone then
        .held "rule validity: this node holds no schema for the namespace yet, so it cannot judge the two values"
      else match opts.valid with
        | none => resolveRules opts v2 d s rest
        | some valid =>
          if valid a != valid b then .decided (if valid a then some a else some b) none false
          else resolveRules opts v2 d s rest
    | _, _ => resolveRules opts v2 d s rest
  | .fieldMerge :: rest =>
    let merged := match v2, s.heads with
      | true, some heads => fieldMergeByOrigin H d heads s (rest.head? = some .lastWrite)
      | _, _ => fieldMerge s.base s.body0 s.body1
    match merged with
    | some fields => .decided (some fields) none false
    | none => resolveRules opts v2 d s rest
  | .lastWrite :: _ => .decided (lastWrite H s) none false
  | .authority provisional :: _ => if provisional then .decided (lastWrite H s) none true else .queued
  | .queue :: _ => .queued

def Chain.resolve (chain : Chain) (opts : Options) (d : DocId) (s : ConflictSides) : ChainOutcome :=
  if maxChainVersion < chain.effectiveVersion then
    .held ("resolution chain version " ++ toString chain.version ++ " is newer than this node runs (up to "
      ++ toString maxChainVersion ++ "): upgrade this node; until then it does not merge under the chain")
  else match s.baseHeld with
    | some reason => .held reason
    | none => resolveRules H opts chain.mergeBases d s chain.rules

/-! ## Virtual merge bases -/

structure BaseVal where
  body : Option Fields
  origin : Option Hash

/-- one document of `virtualBase.at` -/
def baseAt (c : Hash) (d : DocId) : BaseVal := ⟨H.bodyAt c d, H.origin c d⟩

/-- `virtualBase.merge` of one document, with the reason it is held for, if any -/
def mergeBase (opts : Options) (d : DocId) (a b base : BaseVal) (held : Option String) : BaseVal × Option String :=
  let later := if H.originLater a.origin b.origin then a else b
  if a.body = b.body then (⟨a.body, later.origin⟩, held)
  else if a.body = base.body then (b, held)
  else if b.body = base.body then (a, held)
  else match opts.chain with
    | none => (later, held)
    | some chain =>
      match chain.resolve H opts d ⟨a.body, b.body, a.origin, b.origin, base.body, none, none⟩ with
      | .held reason =>
        (a, held.or (some ("building the merge base from several nearest common ancestors: " ++ reason)))
      | .decided winner _ _ =>
        if winner = a.body then (a, held) else if winner = b.body then (b, held) else (⟨winner, later.origin⟩, held)
      | _ => (later, held)

def maxVirtualBaseDepth : ℕ := 16

/-- `virtualBase.values` of one document, `n` levels above the depth bound -/
def virtualBase (opts : Options) (d : DocId) : ℕ → List Hash → Option String → BaseVal × Option String
  | _, [], held => (⟨none, none⟩, held)
  | 0, b :: _, held => (baseAt H b d, held)
  | n + 1, b :: bs, held =>
    let out := bs.foldl (fun (st : (BaseVal × Option String) × List Hash) b' =>
      let inner := virtualBase opts d n (H.mergeBases st.2 [b']) st.1.2
      (mergeBase H opts d st.1.1 (baseAt H b' d) inner.1 inner.2, st.2 ++ [b'])) ((baseAt H b d, held), [b])
    out.1

/-! ## Later writes -/

variable {H}

theorem originLater_swap {a b : Option Hash} (h : a ≠ b) : H.originLater b a = !H.originLater a b := by
  unfold History.originLater
  by_cases ht : H.timestampOf a = H.timestampOf b
  · cases a with
    | none =>
      cases b with
      | none => exact absurd rfl h
      | some y => simp [ht, History.hexAfter]
    | some x =>
      cases b with
      | none => simp [ht, History.hexAfter]
      | some y =>
        have hxy : x ≠ y := fun e => h (by rw [e])
        rcases Nat.lt_or_gt_of_ne hxy with hlt | hlt <;> simp [ht, History.hexAfter, hlt, hlt.le]
  · have ht' : ¬ H.timestampOf b = H.timestampOf a := fun e => ht e.symm
    rcases lt_or_gt_of_ne ht with hlt | hlt <;> simp [ht, ht', hlt, hlt.le]

end Kdb.Peersync
