import Provenance.Expr.Basic

/-!
# Building expressions

Short forms for the usual nodes, and a supply of variables that are all
different.
-/

namespace Provenance

structure VarSupply where
  next : VarId
  deriving DecidableEq, Repr

namespace VarSupply

def new : VarSupply :=
  ⟨0⟩

/-- A supply that starts above every variable of an expression. -/
def after (e : Expr) : VarSupply :=
  match e.largestVar? with
  | none => ⟨0⟩
  | some id => ⟨id + 1⟩

def fresh (s : VarSupply) (name : String) : Var × VarSupply :=
  (⟨s.next, name⟩, ⟨s.next + 1⟩)

end VarSupply

namespace Expr

def int (n : Int64) : Expr :=
  val (.int n)

def float (x : Binary64) : Expr :=
  val (.float x)

def str (s : String) : Expr :=
  val (.str s)

def object (p : ObjectId) : Expr :=
  val (.object p)

def all : Expr :=
  val .all

def index (kind : IndexKind) : Expr :=
  val (.index kind)

def ofBool (b : Bool) : Expr :=
  val (.ofBool b)

def varRef (x : Var) : Expr :=
  ref x.id

def binary (o : Operator) (left right : Expr) : Expr :=
  op o left (some right) none

def unary (o : Operator) (operand : Expr) : Expr :=
  op o operand none none

def field (e : Expr) (name : String) : Expr :=
  binary .field e (str name)

def call (f arg : Expr) : Expr :=
  binary .call f arg

def tupleOf (fields : List Expr) : Expr :=
  tuple (fields.map some)

def letAlways (x : Var) (bound body : Expr) : Expr :=
  letIn x bound (int 1) body

def ifElse (test yes no : Expr) : Expr :=
  cond test (some yes) (some no)

def withSpan (span : Span) : Expr → Expr
  | op o left right _ => op o left right (some span)
  | e => e

end Expr

end Provenance
