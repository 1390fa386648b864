import Provenance.Expr.Build

/-!
# Simplifying a single node

Each rule is given the parts of a node, already simplified, with `none` for a
part that is known to have no value, and answers with the simplified node, or
`none` if the node has no value either.
-/

namespace Provenance.Prepare

open Provenance.Expr (int ofBool)

/-! ## Loops, conditions and tuples -/

/-- A loop that returns its variable for every member is its source. -/
def simplifyLoop (x : Var) (source guard body : Option Expr) : Option Expr :=
  match source, guard, body with
  | some source, some guard, some body =>
    if guard.isFalseLiteral then none
    else if body.isVar x.id && guard.isTrueLiteral then some source
    else some (.forIn x source guard body)
  | _, _, _ => none

/-- A test without a value counts as passed. -/
def simplifyCond (test yes no : Option Expr) : Option Expr :=
  match test with
  | none => yes
  | some test =>
    if yes.isNone && no.isNone then none
    else
      match test.literal? with
      | some v => if v.isTrue then yes else no
      | none => some (.cond test yes no)

/-- Missing fields are squeezed out, and a lone field is no tuple. -/
def simplifyTuple (fields : List (Option Expr)) : Option Expr :=
  match fields.filterMap id with
  | [] => none
  | [e] => some e
  | es =>
    if es.all Expr.isLiteral then some (.val (.tuple (es.filterMap Expr.literal?)))
    else some (.tuple (es.map some))

/-! ## Truth -/

def isTruthValue : Expr → Bool
  | .op o _ _ _ =>
    match o with
    | .eq | .ne | .lt | .gt | .le | .ge | .like | .unlike | .contains | .logNot | .logAnd
    | .logOr => true
    | _ => false
  | _ => false

/-- The right side of `&&` or `||` after a left side that leaves the answer to it. It stands for
the whole only if it is always 0 or 1. -/
def rightSide (o : Operator) (left right : Expr) (span : Option Span) : Expr :=
  match right with
  | .val v => ofBool v.isTrue
  | .op .logAnd _ _ _ => right
  | .op .logOr _ _ _ => right
  | _ => .op o left (some right) span

def simplifyAnd (left right : Option Expr) (span : Option Span) : Expr :=
  match left, right with
  | some left, some right =>
    if left.isTrueLiteral then rightSide .logAnd left right span
    else if left.isFalseLiteral then int 0
    else .op .logAnd left (some right) span
  | _, _ => int 0

def simplifyOr (left right : Option Expr) (span : Option Span) : Expr :=
  match left, right with
  | none, none => int 0
  | none, some right => rightSide .logOr (int 0) right span
  | some left, none =>
    if left.isTrueLiteral then int 1
    else if left.isFalseLiteral then int 0
    else .op .logOr left (some (int 0)) span
  | some left, some right =>
    if left.isTrueLiteral then int 1
    else if left.isFalseLiteral then rightSide .logOr left right span
    else .op .logOr left (some right) span

/-- A double negation may go where what is under it is 0 or 1. -/
def simplifyNot (operand : Expr) (span : Option Span) : Expr :=
  match operand with
  | .op .logNot inner _ _ => if isTruthValue inner then inner else .op .logNot operand none span
  | .val v => ofBool !v.isTrue
  | _ => .op .logNot operand none span

/-! ## Arithmetic -/

def simplifyNeg (operand : Expr) (span : Option Span) : Expr :=
  match operand with
  | .op .neg inner _ _ => inner
  | .op .sub left (some right) inner => .op .sub right (some left) inner
  | .val (.int n) => int (-n)
  | .val (.float x) => .val (.float (-x))
  | _ => .op .neg operand none span

def subFrom (a : Int64) (right : Expr) (span : Option Span) : Expr :=
  if a = 0 then simplifyNeg right span
  else
    match right.int? with
    | some b => int (a - b)
    | none => .op .sub (int a) (some right) span

def subOf (left : Expr) (b : Int64) (span : Option Span) : Expr :=
  if b = 0 then left else .op .sub left (some (int b)) span

/-- Simplifies `a + right`. A number in the operand joins the one in front:
`a + (b + x) = (a + b) + x`, `a + (b - x) = (a + b) - x` and `a + (x - b) = x - (b - a)`. -/
def addTo (a : Int64) (right : Expr) (span : Option Span) : Expr :=
  if a = 0 then right
  else
    match right with
    | .val (.int b) => int (a + b)
    | .op .add left (some inner) span' =>
      match left.int? with
      | some b => addTo (a + b) inner span'
      | none => .op .add (int a) (some right) span
    | .op .sub left (some inner) span' =>
      match left.int?, inner.int? with
      | some b, _ => subFrom (a + b) inner span'
      | none, some b => subOf left (b - a) span'
      | none, none => .op .add (int a) (some right) span
    | _ => .op .add (int a) (some right) span

def mulBy (a : Int64) (right : Expr) (span : Option Span) : Expr :=
  if a = 0 then int 0
  else if a = 1 then right
  else
    match right with
    | .val (.int b) => int (a * b)
    | .op .mul left (some inner) span' =>
      match left.int? with
      | some b => mulBy (a * b) inner span'
      | none => .op .mul (int a) (some right) span
    | _ => .op .mul (int a) (some right) span

def simplifyAdd (left right : Expr) (span : Option Span) : Expr :=
  match left.int?, right.int? with
  | some a, _ => addTo a right span
  | none, some b => if left.isLiteral && b != 0 then .op .add left (some right) span
    else addTo b left span
  | none, none =>
    if right.isLiteral && !left.isLiteral then .op .add right (some left) span
    else .op .add left (some right) span

def simplifySub (left right : Expr) (span : Option Span) : Expr :=
  match left.int?, right.int? with
  | some a, _ => subFrom a right span
  | none, some b => subOf left b span
  | none, none => .op .sub left (some right) span

def simplifyMul (left right : Expr) (span : Option Span) : Expr :=
  match left.int?, right.int? with
  | some a, _ => mulBy a right span
  | none, some b => if left.isLiteral && b != 0 && b != 1 then .op .mul left (some right) span
    else mulBy b left span
  | none, none =>
    if right.isLiteral && !left.isLiteral then .op .mul right (some left) span
    else .op .mul left (some right) span

/-- Quotient or remainder. Zero divided is zero; a division by zero is left to be reported. -/
def simplifyDivision (o : Operator) (divide : Int64 → Int64 → Int64) (left right : Expr)
    (span : Option Span) : Expr :=
  match left.int?, right.int? with
  | some a, none => if a = 0 then int 0 else .op o left (some right) span
  | some a, some b =>
    if a = 0 then int 0
    else if b = 0 then .op o left (some right) span
    else int (divide a b)
  | none, _ => .op o left (some right) span

/-! ## Comparison and text -/

def simplifyOrder (o : Operator) (holds : Int64 → Int64 → Bool) (left right : Expr)
    (span : Option Span) : Expr :=
  match left.int?, right.int? with
  | some a, some b => ofBool (holds a b)
  | _, _ => .op o left (some right) span

def simplifyEq (left right : Expr) (span : Option Span) : Expr :=
  match left, right with
  | .val v, .val w => ofBool (v.equals w)
  | .ref x, .ref y => if x = y then int 1 else .op .eq left (some right) span
  | _, _ => .op .eq left (some right) span

def simplifyNe (left right : Expr) (span : Option Span) : Expr :=
  match left, right with
  | .val v, .val w => ofBool !(v.equals w)
  | _, _ => .op .ne left (some right) span

def isEmptyText : Expr → Bool
  | .val (.str s) => s == ""
  | _ => false

def simplifyConcat (left right : Expr) (span : Option Span) : Expr :=
  if isEmptyText left then right
  else if isEmptyText right then left
  else
    match left, right with
    | .val (.str s), .val (.str t) => .val (.str (s ++ t))
    | _, _ => .op .concat left (some right) span

/-! ## Operators at large -/

def simplifyBinary (o : Operator) (left right : Expr) (span : Option Span) : Expr :=
  match o with
  | .eq => simplifyEq left right span
  | .ne => simplifyNe left right span
  | .lt => simplifyOrder .lt (fun a b => a < b) left right span
  | .gt => simplifyOrder .gt (fun a b => b < a) left right span
  | .le => simplifyOrder .le (fun a b => a ≤ b) left right span
  | .ge => simplifyOrder .ge (fun a b => b ≤ a) left right span
  | .add => simplifyAdd left right span
  | .sub => simplifySub left right span
  | .mul => simplifyMul left right span
  | .div => simplifyDivision .div (· / ·) left right span
  | .mod => simplifyDivision .mod (· % ·) left right span
  | .concat => simplifyConcat left right span
  | _ => .op o left (some right) span

/-- An operator that is known to have one operand. Whatever stands on the right of it is
dropped. -/
def simplifyUnary (o : Operator) (operand : Expr) (span : Option Span) : Expr :=
  match o with
  | .logNot => simplifyNot operand span
  | .neg => simplifyNeg operand span
  | _ => .op o operand none span

/-- Unions and concatenations do with one side, the connectives with none; everything else has
no value where an operand has none. -/
def simplifyOp (o : Operator) (left right : Option Expr) (span : Option Span) : Option Expr :=
  match o with
  | .logAnd => some (simplifyAnd left right span)
  | .logOr => some (simplifyOr left right span)
  | .union | .concat =>
    match left, right with
    | none, _ => right
    | _, none => left
    | some left, some right => some (simplifyBinary o left right span)
  | _ =>
    if o.isUnary then left.map fun e => simplifyUnary o e span
    else
      match left, right with
      | some left, some right => some (simplifyBinary o left right span)
      | _, _ => none

end Provenance.Prepare
