import Provenance.Number.Binary64
import Provenance.Operator

/-!
# Values and expressions

What queries compute with and what they are made of. The two types hold one
another: a literal is an expression, and a closure is a value that keeps the
expression it was made from. A missing operand, branch or field is `none`, and
so is the value of an expression that has none (nil).
-/

namespace Provenance

/-! ## Names and tags -/

abbrev ObjectId := UInt64

abbrev VarId := UInt32

/-- A variable as its binder introduces it. The name is for display only. -/
structure Var where
  id : VarId
  name : String
  deriving DecidableEq, Repr, Inhabited

/-- The bytes of the query text that an operator application came from. -/
structure Span where
  start : Nat
  stop : Nat
  deriving DecidableEq, Repr, Inhabited

/-- The kinds of values, in the order in which values of different kinds sort. -/
inductive Tag
  | int
  | float
  | str
  | object
  | range
  | tuple
  | list
  | all
  | index
  | lambda
  | builtin
  deriving DecidableEq, Repr, Inhabited

/-- The database indexes a query can name. -/
inductive IndexKind
  | identity
  | inode
  | name
  | argv
  deriving DecidableEq, Repr, Inhabited

inductive Builtin
  | first
  | second
  | third
  | filter
  | ctime
  deriving DecidableEq, Repr, Inhabited

/-! ## The two types -/

mutual

/-- A range is inclusive and runs downwards when its first end is the larger. A list keeps the
kind of its members beside them. `all` stands for every object of the graph. -/
inductive Value
  | int (n : Int64)
  | float (x : Binary64)
  | str (s : String)
  | object (id : ObjectId)
  | range (first last : Int64)
  | tuple (fields : List Value)
  | list (kind : Option Tag) (members : List Value)
  | all
  | index (kind : IndexKind)
  | lambda (id : UInt64) (var : Var) (body : Expr)
  | builtin (b : Builtin)

/-- The constructor `op` applies an operator, which has no right operand where it is unary. -/
inductive Expr
  | val (v : Value)
  | ref (id : VarId)
  | op (o : Operator) (left : Expr) (right : Option Expr) (span : Option Span)
  | tuple (fields : List (Option Expr))
  | cond (test : Expr) (yes no : Option Expr)
  | forIn (var : Var) (source guard body : Expr)
  | letIn (var : Var) (bound guard body : Expr)
  | lambda (var : Var) (body : Expr)

end

instance : Inhabited Value := ⟨.all⟩
instance : Inhabited Expr := ⟨.val .all⟩

/-! ## Spelling -/

/-- A variable is written with its identity, which tells two of one name apart. -/
def Var.text (v : Var) : String :=
  v.name ++ "#" ++ toString v.id.toNat

def Span.text (s : Span) : String :=
  toString s.start ++ ".." ++ toString s.stop

namespace Tag

def name : Tag → String
  | int => "Int"
  | float => "Float"
  | str => "Str"
  | object => "Pnode"
  | range => "Range"
  | tuple => "Tuple"
  | list => "List"
  | all => "All"
  | index => "Index"
  | lambda => "Lambda"
  | builtin => "Builtin"

def rank : Tag → Nat
  | int => 0
  | float => 1
  | str => 2
  | object => 3
  | range => 4
  | tuple => 5
  | list => 6
  | all => 7
  | index => 8
  | lambda => 9
  | builtin => 10

def order (a b : Tag) : Ordering :=
  compare a.rank b.rank

end Tag

namespace IndexKind

def label : IndexKind → String
  | identity => "(identity)"
  | inode => "I2P"
  | name => "NAME"
  | argv => "ARGV"

def rank : IndexKind → Nat
  | identity => 0
  | inode => 1
  | name => 2
  | argv => 3

end IndexKind

namespace Builtin

def every : List Builtin :=
  [first, second, third, filter, ctime]

def name : Builtin → String
  | first => "first"
  | second => "second"
  | third => "third"
  | filter => "filter"
  | ctime => "ctime"

def ofName? (s : String) : Option Builtin :=
  every.find? fun b => b.name == s

end Builtin

end Provenance
