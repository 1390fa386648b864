import Provenance.Path.Walk

/-!
# The value of a path expression

A path is walked from the end that says more about its objects: backwards if
only its first segment stands for every object, forwards otherwise. Its value is
the list of what the walks extract, in the order of the segments as written.
-/

namespace Provenance.Path

open Eval

def standsForAll (scope : Scope (Option Value)) : Expr → Bool
  | .val .all => true
  | .ref x =>
    match scope.lookup? x with
    | some (some .all) => true
    | _ => false
  | .forIn _ (.val .all) guard _ => guard.isTrueLiteral
  | .op .extract e none _ => standsForAll scope e
  | _ => false

def Segment.standsForAll (scope : Scope (Option Value)) (e : Segment) : Bool :=
  match e.test with
  | .any => true
  | .expr e => Path.standsForAll scope e

def direction (scope : Scope (Option Value)) (segments : List Segment) : Direction :=
  if segments.getLast?.any (Segment.standsForAll scope) then .forward
  else if segments.head?.any (Segment.standsForAll scope) then .backward
  else .forward

def route (scope : Scope (Option Value)) (e : Expr) : Route :=
  let segments := Segment.ofPath e
  let d := direction scope segments
  let walked := if d = .backward then segments.reverse else segments
  ⟨walked, .compile walked, d⟩

def segmentLines (i : Nat) : List Segment → List String
  | [] => []
  | e :: rest => ("entry " ++ toString i ++ ": " ++ e.text) :: segmentLines (i + 1) rest

def noteAll : List String → Eval Unit
  | [] => pure ()
  | line :: rest => do
    note fun _ => line
    noteAll rest

def noteRoute (r : Route) : Eval Unit := do
  let tracing ← isTracing
  if tracing then noteAll (segmentLines 0 r.segments ++ r.automaton.lines)

/-- One object stands for itself, several form a tuple, and none leave no result. -/
def resultOf : List ObjectId → Option Value
  | [] => none
  | [p] => some (.object p)
  | ps => some (.tuple (ps.map .object))

/-- A walk's objects come latest first, which on a walk backwards is the order of the segments. -/
def inOrder (d : Direction) (ps : List ObjectId) : List ObjectId :=
  match d with
  | .forward => ps.reverse
  | .backward => ps

def gatherResults (d : Direction) (span : Option Span) :
    List (List ObjectId) → Tagged → Eval Tagged
  | [], gathered => pure gathered
  | ps :: rest, gathered => do
    let gathered ← keep gathered (resultOf (inOrder d ps)) span
    gatherResults d span rest gathered

def evaluate (ev : Expr → Eval (Option Value)) (e : Expr) : Eval (Option Value) := do
  let scope ← currentScope
  let r := route scope e
  note fun _ => "path: " ++ toString r.segments.length ++ " entries, " ++ r.direction.text
  let found ← indented do
    noteRoute r
    walks ev r
  let gathered ← gatherResults r.direction e.span? found .empty
  let result := gathered.reverse.value
  note fun _ => "path => " ++ result.text
  return some result

end Provenance.Path
