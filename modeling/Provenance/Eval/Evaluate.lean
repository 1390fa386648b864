import Provenance.Eval.Bind
import Provenance.Eval.Operate
import Provenance.Path.Result

/-!
# Evaluation

The value of an expression in a session. Each node is evaluated one level
deeper than the node that asks for it, and the levels are limited, which is
what the recursion runs on.
-/

namespace Provenance.Eval

/-! ## Operator applications -/

def lookupIndex (index key : Value) (span : Option Span) : Eval (Option Value) :=
  match index with
  | .index kind => do
    let g ← graph
    orReport ((g.lookup kind key).mapError .badKey) span
  | v => report (.notIndex v.tag) span

def readField (object name : Value) (span : Option Span) : Eval (Option Value) :=
  match object, name with
  | .object p, .str s => do
    let g ← graph
    return g.attribute? p s
  | .object _, v => report (.badFieldName v.tag) span
  | v, _ => report (.notObject v.tag) span

/-- An operand may be missing, and counts as false then. -/
def operandTruth (ev : Expr → Eval (Option Value)) : Option Expr → Eval Bool
  | none => pure false
  | some e => do
    let v ← ev e
    return truth v

/-- The right side is looked at only if the left side leaves the answer open, which it does when
it is `goOn`. -/
def connective (ev : Expr → Eval (Option Value)) (goOn : Bool) (left : Expr)
    (right : Option Expr) : Eval (Option Value) := do
  let l ← operandTruth ev (some left)
  if l = goOn then
    let r ← operandTruth ev right
    return some (.ofBool r)
  else return some (.ofBool l)

def orNothing (ev : Expr → Eval (Option Value)) : Option Expr → Eval (Option Value)
  | none => pure none
  | some e => ev e

def operate (o : Operator) (l r : Value) (span : Option Span) : Eval (Option Value) := do
  let lib ← library
  orReport (Operate.binary lib.engine o l r) span

/-- A union does with one side. -/
def unite (ev : Expr → Eval (Option Value)) (left : Expr) (right : Option Expr)
    (span : Option Span) : Eval (Option Value) := do
  let l ← ev left
  let r ← orNothing ev right
  match l, r with
  | none, r => return r
  | l, none => return l
  | some l, some r => operate .union l r span

/-- The markers of a path mean nothing outside of one. -/
def applyUnary (o : Operator) (v : Value) (span : Option Span) : Eval (Option Value) :=
  match o with
  | .optional | .repeats | .extract => pure (some v)
  | _ => orReport (Operate.unary o v) span

def applyBinary (ev : Expr → Eval (Option Value)) (o : Operator) (l r : Value)
    (span : Option Span) : Eval (Option Value) :=
  match o with
  | .call => applyFunction ev l r span
  | .lookup => lookupIndex l r span
  | .field => readField l r span
  | _ => operate o l r span

/-- Without a value for an operand there is none for the whole. -/
def strict (ev : Expr → Eval (Option Value)) (o : Operator) (left : Expr)
    (right : Option Expr) (span : Option Span) : Eval (Option Value) := do
  match ← ev left with
  | none => return none
  | some l =>
    match right with
    | none => applyUnary o l span
    | some right =>
      match ← ev right with
      | none => return none
      | some r => applyBinary ev o l r span

def operation (ev : Expr → Eval (Option Value)) (o : Operator) (left : Expr)
    (right : Option Expr) (span : Option Span) : Eval (Option Value) :=
  match o with
  | .logAnd => connective ev true left right
  | .logOr => connective ev false left right
  | .union => unite ev left right span
  | _ => strict ev o left right span

/-! ## Nodes -/

def condition (ev : Expr → Eval (Option Value)) (test : Expr) (yes no : Option Expr) :
    Eval (Option Value) := do
  let t ← ev test
  -- Unlike a guard, a test without a value counts as passed.
  let taken := t.all Value.isTrue
  note fun _ => "if " ++ Value.shown t ++ " -> " ++ if taken then "then" else "else"
  orNothing ev (if taken then yes else no)

def fieldValues (ev : Expr → Eval (Option Value)) : List (Option Expr) → Eval (List Value)
  | [] => pure []
  | e :: rest => do
    let v ← orNothing ev e
    let vs ← fieldValues ev rest
    return v.toList ++ vs

/-- Fields without a value are squeezed out, and a lone field is no tuple. -/
def tupleOf : List Value → Option Value
  | [] => none
  | [v] => some v
  | vs => some (.tuple vs)

def node (ev : Expr → Eval (Option Value)) : Expr → Eval (Option Value)
  | .val v => pure (some v)
  | .ref x => do
    let scope ← currentScope
    match scope.lookup? x with
    | some v => return v
    | none => report (.unboundVariable x) none
  | .lambda x body => do
    let id ← freshClosure
    return some (.lambda id x body)
  | .forIn x source guard body => forLoop ev x source guard body
  | .letIn x bound guard body => letBinding ev x bound guard body
  | .cond test yes no => condition ev test yes no
  | .tuple fields => do
    let vs ← fieldValues ev fields
    return tupleOf vs
  | .op o left right span =>
    if o.isJoin then Path.evaluate ev (.op o left right span)
    else do
      let r ← operation ev o left right span
      note fun _ => "op " ++ o.symbol ++ " => " ++ Value.shown r
      return r

def evaluateIn : Nat → Expr → Eval (Option Value)
  | 0, _ => tooDeep
  | n + 1, e => deeper (node (evaluateIn n) e)

def evaluate (e : Expr) : Eval (Option Value) :=
  fun c s => evaluateIn (c.limits.maxDepth - s.depth) e c s

end Provenance.Eval
