import Provenance.Prepare.Node
import Provenance.Expr.Substitute

/-!
# Simplifying whole expressions

The parts of a node are simplified first, then the node. A binding to a
reference or a literal is replaced by what it stands for, after which the body
is simplified again; a binding without a value is removed from the body by
`eliminate`, which lets the lack of a value spread upwards. Both work on a body
with fewer bindings than before, so an expression with `n` bindings is done with
passes of `n` levels.
-/

namespace Provenance.Prepare

/-- What simplifying a binding asks of the passes for its body. -/
structure Pass where
  simplify : Expr → Option Expr
  eliminate : VarId → Expr → Option Expr

def isAtom : Expr → Bool
  | .ref _ => true
  | .val _ => true
  | _ => false

/-- A binding with a condition stays, for the condition depends on it. -/
def simplifyLet (p : Pass) (x : Var) (bound guard body : Option Expr) : Option Expr :=
  match body, guard with
  | some body, some guard =>
    if !guard.isTrueLiteral then bound.map fun b => .letIn x b guard body
    else if !body.mentions x.id then some body
    else
      match bound with
      | none => p.eliminate x.id body
      | some b =>
        if isAtom b then p.simplify (Expr.substitute x.id b body)
        else if body.isVar x.id then some b
        else some (.letIn x b guard body)
  | _, _ => none

mutual

def simplifyWith (p : Pass) : Expr → Option Expr
  | .val v => some (.val v)
  | .ref id => some (.ref id)
  | .op o left right span => simplifyOp o (simplifyWith p left) (simplifyOpt p right) span
  | .tuple fields => simplifyTuple (simplifyAll p fields)
  | .cond test yes no => simplifyCond (simplifyWith p test) (simplifyOpt p yes) (simplifyOpt p no)
  | .forIn x source guard body =>
    simplifyLoop x (simplifyWith p source) (simplifyWith p guard) (simplifyWith p body)
  | .letIn x bound guard body =>
    simplifyLet p x (simplifyWith p bound) (simplifyWith p guard) (simplifyWith p body)
  | .lambda x body => (simplifyWith p body).map (.lambda x)

def simplifyOpt (p : Pass) : Option Expr → Option Expr
  | none => none
  | some e => simplifyWith p e

def simplifyAll (p : Pass) : List (Option Expr) → List (Option Expr)
  | [] => []
  | e :: rest => simplifyOpt p e :: simplifyAll p rest

end

mutual

def eliminateWith (p : Pass) (x : VarId) : Expr → Option Expr
  | .val v => some (.val v)
  | .ref id => if id = x then none else some (.ref id)
  | .op o left right span => simplifyOp o (eliminateWith p x left) (eliminateOpt p x right) span
  | .tuple fields => simplifyTuple (eliminateAll p x fields)
  | .cond test yes no =>
    simplifyCond (eliminateWith p x test) (eliminateOpt p x yes) (eliminateOpt p x no)
  | .forIn y source guard body =>
    simplifyLoop y (eliminateWith p x source) (eliminateWith p x guard) (eliminateWith p x body)
  | .letIn y bound guard body =>
    simplifyLet p y (eliminateWith p x bound) (eliminateWith p x guard) (eliminateWith p x body)
  | .lambda y body => (eliminateWith p x body).map (.lambda y)

def eliminateOpt (p : Pass) (x : VarId) : Option Expr → Option Expr
  | none => none
  | some e => eliminateWith p x e

def eliminateAll (p : Pass) (x : VarId) : List (Option Expr) → List (Option Expr)
  | [] => []
  | e :: rest => eliminateOpt p x e :: eliminateAll p x rest

end

/-- The passes for expressions with fewer than `n` bindings. -/
def pass : Nat → Pass
  | 0 => ⟨some, fun _ => some⟩
  | n + 1 => ⟨simplifyWith (pass n), eliminateWith (pass n)⟩

mutual

def letCount : Expr → Nat
  | .val _ => 0
  | .ref _ => 0
  | .op _ left right _ => letCount left + letCountOpt right
  | .tuple fields => letCountAll fields
  | .cond test yes no => letCount test + (letCountOpt yes + letCountOpt no)
  | .forIn _ source guard body => letCount source + (letCount guard + letCount body)
  | .letIn _ bound guard body => letCount bound + (letCount guard + letCount body) + 1
  | .lambda _ body => letCount body

def letCountOpt : Option Expr → Nat
  | none => 0
  | some e => letCount e

def letCountAll : List (Option Expr) → Nat
  | [] => 0
  | e :: rest => letCountOpt e + letCountAll rest

end

/-- The simplified expression, or `none` if it is known to have no value. -/
def simplify (e : Expr) : Option Expr :=
  (pass (letCount e + 1)).simplify e

def eliminate (x : VarId) (e : Expr) : Option Expr :=
  (pass (letCount e + 1)).eliminate x e

end Provenance.Prepare
