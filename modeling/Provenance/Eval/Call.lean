import Provenance.Eval.Session

/-!
# Calls

A closure is evaluated in the scope of its call. `ev` stands for evaluation one
level deeper, here and wherever a part of evaluation is described by itself.
-/

namespace Provenance.Eval

/-- The answer of a guard or a predicate. No value counts as false. -/
def truth (v : Option Value) : Bool :=
  v.any Value.isTrue

def applyClosure (ev : Expr → Eval (Option Value)) (id : UInt64) (x : Var) (body : Expr)
    (arg : Value) : Eval (Option Value) := do
  note fun _ => "apply <lambda " ++ toString id.toNat ++ ">"
  indented (binding x.id (some arg) (ev body))

/-! ## Built-in functions -/

def component (b : Builtin) (i : Nat) : Value → Except Fault Value
  | .tuple fields =>
    match fields[i]? with
    | some v => .ok v
    | none => .error (.badArgument b .widerTuple .tuple)
  | v => .error (.badArgument b .tuple v.tag)

def digitsValue? (s : String) : Option Int :=
  if s.isEmpty || !s.toList.all Char.isDigit then none
  else
    let n := s.toList.foldl (fun (n : Nat) c => 10 * n + (c.toNat - 48)) 0
    if n < 0x8000000000000000 then some n else none

def seconds? : Value → Option Int
  | .int n => some n.toInt
  | .str s => digitsValue? s
  | _ => none

def ctime (calendar? : Int → Option String) (v : Value) : Except Fault Value :=
  match (seconds? v).bind calendar? with
  | some s => .ok (.str s)
  | none => .error (.badArgument .ctime .timestamp v.tag)

/-- The members for which the predicate is true, the latest first. -/
def keepWhere (ev : Expr → Eval (Option Value)) (id : UInt64) (x : Var) (body : Expr)
    (span : Option Span) : List Value → Tagged → Eval Tagged
  | [], kept => pure kept
  | v :: rest, kept => do
    let r ← applyClosure ev id x body v
    let kept ← keep kept (if truth r then some v else none) span
    keepWhere ev id x body span rest kept

def filterList (ev : Expr → Eval (Option Value)) (arg : Value) (span : Option Span) :
    Eval (Option Value) :=
  match arg with
  | .tuple [.lambda id x body, .list _ members] => do
    let kept ← keepWhere ev id x body span members .empty
    return some kept.reverse.value
  | v => report (.badArgument .filter .predicateAndList v.tag) span

def applyBuiltin (ev : Expr → Eval (Option Value)) (b : Builtin) (arg : Value)
    (span : Option Span) : Eval (Option Value) := do
  note fun _ => "call " ++ b.name ++ "(" ++ arg.text ++ ")"
  match b with
  | .first => orReport (component b 0 arg) span
  | .second => orReport (component b 1 arg) span
  | .third => orReport (component b 2 arg) span
  | .ctime => do
    let lib ← library
    orReport (ctime lib.calendar? arg) span
  | .filter => filterList ev arg span

def applyFunction (ev : Expr → Eval (Option Value)) (f arg : Value) (span : Option Span) :
    Eval (Option Value) :=
  match f with
  | .lambda id x body => applyClosure ev id x body arg
  | .builtin b => applyBuiltin ev b arg span
  | v => report (.notCallable v.tag) span

end Provenance.Eval
