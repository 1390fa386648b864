/-!
# Query operators

The operators of the query language with their written symbols, and two laws of
exchange: `converse?` is the operator to use when the operands trade places,
`complement?` the one that holds where an operator does not.
-/

namespace Provenance

inductive Operator
  | lookup
  | call
  | field
  | step
  | stepsZ
  | stepsNZ
  | union
  | intersect
  | logAnd
  | logOr
  | eq
  | ne
  | like
  | unlike
  | lt
  | gt
  | le
  | ge
  | contains
  | add
  | sub
  | mul
  | div
  | mod
  | concat
  | logNot
  | neg
  | optional
  | repeats
  | extract
  deriving DecidableEq, Repr, Inhabited

namespace Operator

def every : List Operator :=
  [lookup, call, field, step, stepsZ, stepsNZ, union, intersect, logAnd, logOr, eq, ne, like,
    unlike, lt, gt, le, ge, contains, add, sub, mul, div, mod, concat, logNot, neg, optional,
    repeats, extract]

def isUnary : Operator → Bool
  | logNot | neg | optional | repeats | extract => true
  | _ => false

/-- The three joins of a path: one edge, any number of edges, at least one edge. -/
def isJoin : Operator → Bool
  | step | stepsZ | stepsNZ => true
  | _ => false

/-- The operator that means the same once the operands have traded places. -/
def converse? : Operator → Option Operator
  | lt => some gt
  | gt => some lt
  | le => some ge
  | ge => some le
  | eq => some eq
  | ne => some ne
  | add => some add
  | mul => some mul
  | union => some union
  | intersect => some intersect
  | logAnd => some logAnd
  | logOr => some logOr
  | _ => none

/-- The operator that holds exactly where this one, having an answer, does not. -/
def complement? : Operator → Option Operator
  | eq => some ne
  | ne => some eq
  | like => some unlike
  | unlike => some like
  | lt => some ge
  | ge => some lt
  | gt => some le
  | le => some gt
  | _ => none

def symbol : Operator → String
  | lookup => "[]"
  | call => "()"
  | field => "."
  | step => "->"
  | stepsZ => "->*"
  | stepsNZ => "->+"
  | union => "union"
  | intersect => "intersect"
  | logAnd => "&&"
  | logOr => "||"
  | eq => "=="
  | ne => "!="
  | like => "~"
  | unlike => "!~"
  | lt => "<"
  | gt => ">"
  | le => "<="
  | ge => ">="
  | contains => "contains"
  | add => "+"
  | sub | neg => "-"
  | mul => "*"
  | div => "/"
  | mod => "%"
  | concat => "++"
  | logNot => "!"
  | optional => "?"
  | repeats => "+"
  | extract => "extract"

theorem converse?_of_converse? {o p : Operator} (h : o.converse? = some p) :
    p.converse? = some o := by
  cases o <;> simp_all [converse?] <;> subst h <;> rfl

theorem complement?_of_complement? {o p : Operator} (h : o.complement? = some p) :
    p.complement? = some o := by
  cases o <;> simp_all [complement?] <;> subst h <;> rfl

end Operator

end Provenance
