import Provenance.Graph

/-!
# What can go wrong

A fault concerns a part of a query: that part has no value, the fault is
reported, and evaluation goes on. An abort ends the evaluation of the query.
-/

namespace Provenance

inductive ArgumentShape
  | tuple
  | widerTuple
  | predicateAndList
  | timestamp
  deriving DecidableEq, Repr

def ArgumentShape.text : ArgumentShape → String
  | tuple => "a tuple"
  | widerTuple => "a wider tuple"
  | predicateAndList => "(lambda, list)"
  | timestamp => "a timestamp"

inductive Fault
  | divisionByZero
  | invalidOperands (o : Operator) (left : Tag) (right : Option Tag)
  | mixedList (m : TagMismatch)
  | unboundVariable (id : VarId)
  | notCallable (found : Tag)
  | notIndex (found : Tag)
  | notObject (found : Tag)
  | badFieldName (found : Tag)
  | badKey (e : Graph.KeyError)
  | badArgument (b : Builtin) (expected : ArgumentShape) (found : Tag)
  | badPattern (pattern : String)
  | badPathStart (found : Tag)
  deriving DecidableEq, Repr

namespace Fault

def patternChar (c : Char) : List Char :=
  if c = '"' ∨ c = '\\' then ['\\', c]
  else if c = '\n' then ['\\', 'n']
  else if c = '\r' then ['\\', 'r']
  else if c = '\t' then ['\\', 't']
  else if c.toNat = 0 then ['\\', '0']
  else if c.toNat < 32 ∨ c.toNat = 127 then
    ['\\', 'u', Char.ofNat 123] ++ Nat.toDigits 16 c.toNat ++ [Char.ofNat 125]
  else [c]

def patternText (s : String) : String :=
  "\"" ++ String.ofList (s.toList.flatMap patternChar) ++ "\""

def operandsText : Tag → Option Tag → String
  | left, none => left.name
  | left, some right => left.name ++ " and " ++ right.name

def message : Fault → String
  | divisionByZero => "Division by zero"
  | invalidOperands o left right =>
    "Invalid operand types for " ++ o.symbol ++ ": " ++ operandsText left right
  | mixedList m => m.message
  | unboundVariable id => "Unbound variable #" ++ toString id.toNat
  | notCallable found => "Call of non-function (" ++ found.name ++ ")"
  | notIndex found => "Lookup applied to non-database (" ++ found.name ++ ")"
  | notObject found => "Field reference on non-object (" ++ found.name ++ ")"
  | badFieldName found => "Field name must be a string, found " ++ found.name
  | badKey e => e.message
  | badArgument b expected found =>
    b.name ++ " expects " ++ expected.text ++ ", found " ++ found.name
  | badPattern pattern => "Invalid glob pattern " ++ patternText pattern
  | badPathStart found => "Path start must produce objects, found " ++ found.name

end Fault

structure Diagnostic where
  fault : Fault
  span : Option Span
  deriving DecidableEq, Repr

def Diagnostic.text (d : Diagnostic) : String :=
  "error: " ++ d.fault.message ++
    match d.span with
    | none => ""
    | some span => " (at " ++ span.text ++ ")"

inductive Abort
  | depthExceeded (depth limit : Nat)
  | pathStepsExceeded (limit : Nat)
  /-- A walk whose steps are not limited has outlasted all patience. -/
  | pathUnending
  deriving DecidableEq, Repr

def Abort.message : Abort → String
  | depthExceeded depth limit =>
    "Evaluation stack overflow: depth " ++ toString depth ++ " exceeds maximum of "
      ++ toString limit
  | pathStepsExceeded limit => "Path evaluation exceeded " ++ toString limit ++ " steps"
  | pathUnending => "Path evaluation does not end"

end Provenance
