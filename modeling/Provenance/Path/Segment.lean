import Provenance.Expr.Basic

/-!
# Path segments

A path expression is a sequence of segments. Each says what an object must
satisfy and how many objects in a row it may stand for; a long join puts
between its sides a segment of its own, which any objects satisfy.
-/

namespace Provenance.Path

inductive Repetition
  | one
  | optional
  | star
  | plus
  deriving DecidableEq, Repr

namespace Repetition

def repeats : Repetition → Bool
  | star | plus => true
  | _ => false

def skippable : Repetition → Bool
  | star | optional => true
  | _ => false

def text : Repetition → String
  | one => "one"
  | optional => "zero/one"
  | star => "zero-or-more"
  | plus => "one-or-more"

end Repetition

inductive Test
  | any
  | expr (e : Expr)

/-- One place of a path; `extract` says whether the object found here is part of the result. -/
structure Segment where
  repetition : Repetition
  test : Test
  extract : Bool

namespace Segment

def ofRepetition (m : Repetition) : Segment :=
  ⟨m, .any, false⟩

/-- Takes one layer of markers off: `?` over `+` is read as `*`. -/
def ofExpr : Expr → Segment
  | .op .optional (.op .repeats e none _) none _ => ⟨.star, .expr e, false⟩
  | .op .optional e none _ => ⟨.optional, .expr e, false⟩
  | .op .repeats e none _ => ⟨.plus, .expr e, false⟩
  | .op .extract e none _ => ⟨.one, .expr e, true⟩
  | e => ⟨.one, .expr e, false⟩

def ofJoin : Operator → List Segment
  | .stepsZ => [ofRepetition .star]
  | .stepsNZ => [ofRepetition .plus]
  | _ => []

mutual

def side : Expr → List Segment
  | .op o left right span =>
    if o.isJoin then side left ++ (ofJoin o ++ sideOpt right)
    else [ofExpr (.op o left right span)]
  | e => [ofExpr e]

def sideOpt : Option Expr → List Segment
  | none => []
  | some e => side e

end

def ofPath (e : Expr) : List Segment :=
  side e

def text (e : Segment) : String :=
  e.repetition.text ++ (if e.extract then " [result-value]" else "") ++
    match e.test with
    | .any => " **"
    | .expr _ => ""

end Segment

end Provenance.Path
