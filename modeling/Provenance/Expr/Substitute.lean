import Provenance.Expr.Basic

/-!
# Substitution

An expression takes the place of a variable. Binders are not looked at: the
variable is expected to be bound nowhere inside.
-/

namespace Provenance.Expr

mutual

/-- Puts `e` in the place of every reference to `x`. Closures that stand as literals are left as
they are. -/
def substitute (x : VarId) (e : Expr) : Expr → Expr
  | val v => val v
  | ref id => if id = x then e else ref id
  | op o left right span => op o (substitute x e left) (substituteOpt x e right) span
  | tuple fields => tuple (substituteAll x e fields)
  | cond test yes no =>
    cond (substitute x e test) (substituteOpt x e yes) (substituteOpt x e no)
  | forIn y source guard body =>
    forIn y (substitute x e source) (substitute x e guard) (substitute x e body)
  | letIn y bound guard body =>
    letIn y (substitute x e bound) (substitute x e guard) (substitute x e body)
  | lambda y body => lambda y (substitute x e body)

def substituteOpt (x : VarId) (e : Expr) : Option Expr → Option Expr
  | none => none
  | some e' => some (substitute x e e')

def substituteAll (x : VarId) (e : Expr) : List (Option Expr) → List (Option Expr)
  | [] => []
  | e' :: rest => substituteOpt x e e' :: substituteAll x e rest

end

end Provenance.Expr
