import Provenance.Value.Order

/-!
# Expressions: shape, nodes and equality
-/

namespace Provenance.Expr

/-! ## Shape -/

def literal? : Expr → Option Value
  | val v => some v
  | _ => none

def isLiteral (e : Expr) : Bool :=
  e.literal?.isSome

def int? (e : Expr) : Option Int64 :=
  e.literal?.bind Value.int?

def isTrueLiteral (e : Expr) : Bool :=
  e.literal?.any Value.isTrue

def isFalseLiteral (e : Expr) : Bool :=
  e.literal?.any fun v => !v.isTrue

def isVar (x : VarId) : Expr → Bool
  | ref id => id == x
  | _ => false

/-- Only an operator application remembers where it was written. -/
def span? : Expr → Option Span
  | op _ _ _ span => span
  | _ => none

/-! ## Nodes -/

mutual

/-- The expression and all its parts, each before its own parts. The body of a closure that
stands as a literal by itself counts as a part; one inside a tuple or list literal does not. -/
def nodes : Expr → List Expr
  | val v => val v :: closureNodes v
  | ref id => [ref id]
  | op o left right span => op o left right span :: (left.nodes ++ nodesOpt right)
  | tuple fields => tuple fields :: nodesAll fields
  | cond test yes no => cond test yes no :: (test.nodes ++ (nodesOpt yes ++ nodesOpt no))
  | forIn x source guard body =>
    forIn x source guard body :: (source.nodes ++ (guard.nodes ++ body.nodes))
  | letIn x bound guard body =>
    letIn x bound guard body :: (bound.nodes ++ (guard.nodes ++ body.nodes))
  | lambda x body => lambda x body :: body.nodes

def nodesOpt : Option Expr → List Expr
  | none => []
  | some e => e.nodes

def nodesAll : List (Option Expr) → List Expr
  | [] => []
  | e :: rest => nodesOpt e ++ nodesAll rest

def closureNodes : Value → List Expr
  | .lambda _ _ body => body.nodes
  | _ => []

end

def varId? : Expr → Option VarId
  | forIn x _ _ _ => some x.id
  | letIn x _ _ _ => some x.id
  | lambda x _ => some x.id
  | ref id => some id
  | val (.lambda _ x _) => some x.id
  | _ => none

def mentions (e : Expr) (x : VarId) : Bool :=
  e.nodes.any (isVar x)

def largestVar? (e : Expr) : Option VarId :=
  (e.nodes.filterMap varId?).foldl
    (fun m id => some (match m with | none => id | some k => if k < id then id else k)) none

def nodeText : Expr → String
  | forIn _ _ _ _ => "For"
  | letIn _ _ _ _ => "Let"
  | lambda _ _ => "Lambda"
  | cond _ _ _ => "Cond"
  | tuple _ => "Tuple"
  | op o _ _ _ => "Op " ++ o.symbol
  | ref id => "Ref " ++ toString id.toNat
  | val v => "Val " ++ v.text

/-! ## Equality -/

mutual

/-- Equal node for node, spans and names included; literals are compared as values. -/
def same : Expr → Expr → Bool
  | val v, val w => v.equals w
  | ref x, ref y => x == y
  | op o left right span, op o' left' right' span' =>
    o == o' && left.same left' && sameOpt right right' && span == span'
  | tuple fields, tuple fields' => sameAll fields fields'
  | cond test yes no, cond test' yes' no' =>
    test.same test' && sameOpt yes yes' && sameOpt no no'
  | forIn x source guard body, forIn x' source' guard' body' =>
    x == x' && source.same source' && guard.same guard' && body.same body'
  | letIn x bound guard body, letIn x' bound' guard' body' =>
    x == x' && bound.same bound' && guard.same guard' && body.same body'
  | lambda x body, lambda x' body' => x == x' && body.same body'
  | _, _ => false

def sameOpt : Option Expr → Option Expr → Bool
  | none, none => true
  | some e, some e' => e.same e'
  | _, _ => false

def sameAll : List (Option Expr) → List (Option Expr) → Bool
  | [], [] => true
  | e :: rest, e' :: rest' => sameOpt e e' && sameAll rest rest'
  | _, _ => false

end

end Provenance.Expr
