import Provenance.Expr.Build
import Provenance.Guard.Formula
import Provenance.Value.Members

/-!
# Index access for a guard

A comparison of an attribute of the loop variable with something that does not
depend on it can be answered from an index. A clause can be if all its literals
can; among several the best score decides, the first of those that are equal.
The access may yield more objects than the clause admits, never fewer.
-/

namespace Provenance.Guard

structure Access where
  score : Nat
  index : IndexKind
  operator : Operator
  target : Expr

structure Plan where
  score : Nat
  branches : List Access

/-! ## Recognition -/

def fieldOf? (x : VarId) : Expr → Option String
  | .op .field left (some name) _ =>
    if left.isVar x then name.literal?.bind Value.str? else none
  | _ => none

def isWord : Value → Bool
  | .str _ => true
  | _ => false

def isWordList : Expr → Bool
  | .val (.str _) => true
  | .val (.tuple words) => words.all isWord
  | .tuple words => words.all fun w => (w.bind Expr.literal?).any isWord
  | _ => false

def objectOf? : Value → Option ObjectId
  | .int n => if 0 ≤ n then some n.toUInt64 else none
  | .object p => some p
  | _ => none

def isInt : Value → Bool
  | .int _ => true
  | _ => false

/-- How to answer a comparison of the attribute `name` with `target`. A key of the wrong kind
makes a lookup fail where a scan finds nothing, so only literals of the right kind are taken. -/
def access? (o : Operator) (name : String) (target : Expr) : Option Access :=
  match o with
  | .eq =>
    if name = "PNODE" then
      (target.literal?.bind objectOf?).map fun p => ⟨100, .identity, o, .object p⟩
    else if name = "INODE" then
      if target.literal?.any isInt then some ⟨80, .inode, o, target⟩ else none
    else if name = "ARGV" then
      if target.literal?.any isWord then some ⟨60, .argv, o, target⟩ else none
    else none
  | .contains =>
    if name = "ARGV" && isWordList target then some ⟨40, .argv, o, target⟩ else none
  | _ => none

/-- The attribute may stand on either side. -/
def operands? (x : VarId) (o : Operator) (left right : Expr) :
    Option (Operator × String × Expr) :=
  match fieldOf? x left, fieldOf? x right with
  | some name, _ => some (o, name, right)
  | none, some name => o.converse?.map fun o' => (o', name, left)
  | none, none => none

def literalAccess? (x : VarId) (negated : Bool) : Expr → Option Access
  | .op o left (some right) _ =>
    match if negated then o.complement? else some o with
    | none => none
    | some o =>
      match operands? x o left right with
      | none => none
      | some (o, name, target) => if target.mentions x then none else access? o name target
  | _ => none

def allSome : List (Option Access) → Option (List Access)
  | [] => some []
  | none :: _ => none
  | some a :: rest => (allSome rest).map (a :: ·)

/-- The score of a clause is the mean of its literals' and their number. -/
def clausePlan? (leaves : Array Expr) (x : VarId) (c : Clause) : Option Plan :=
  match allSome (c.map fun l => leaves[l.leaf]?.bind (literalAccess? x l.negated)) with
  | none => none
  | some [] => none
  | some branches =>
    let n := branches.length
    some ⟨(branches.map Access.score).foldl (· + ·) 0 / n + n, branches⟩

def better (best : Option Plan) (p : Option Plan) : Option Plan :=
  match best, p with
  | none, p => p
  | best, none => best
  | some b, some p => if b.score < p.score then some p else some b

/-! ## Expressions -/

def words : Expr → List Expr
  | .val (.tuple ws) => ws.map .val
  | .tuple ws => ws.filterMap id
  | _ => []

def lookupIn (kind : IndexKind) (key : Expr) : Expr :=
  .binary .lookup (.index kind) key

def joined (o : Operator) : List Expr → Option Expr
  | [] => none
  | e :: rest => some (rest.foldl (Expr.binary o) e)

def Access.source (a : Access) : Expr :=
  match a.index, a.operator, a.target with
  | .identity, _, .val p => .val (Tagged.singleton p).value
  | .argv, .contains, target =>
    (joined .intersect ((words target).map (lookupIn .argv))).getD (lookupIn .argv target)
  | kind, _, target => lookupIn kind target

/-- A source that may take the place of a scan of all objects under the guard. -/
def source? (x : VarId) (guard : Expr) : Option Expr :=
  let (formula, leaves) := Formula.build #[] guard
  match formula.normalize? with
  | none => none
  | some f =>
    match (f.clauses.map (clausePlan? leaves x)).foldl better none with
    | none => none
    | some plan => joined .concat (plan.branches.map Access.source)

end Provenance.Guard
