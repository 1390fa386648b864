import Provenance.Number.Shortest
import Provenance.Term
import Provenance.Text.Join
import Provenance.Text.Quoted

/-!
# Values: kind, truth and text
-/

namespace Provenance

def floatOfInt (n : Int64) : Binary64 :=
  .ofInt n.toInt

namespace Value

def tag : Value → Tag
  | int _ => .int
  | float _ => .float
  | str _ => .str
  | object _ => .object
  | range _ _ => .range
  | tuple _ => .tuple
  | list _ _ => .list
  | all => .all
  | index _ => .index
  | lambda _ _ _ => .lambda
  | builtin _ => .builtin

/-- Only zero, the empty string and the empty list are false. -/
def isTrue : Value → Bool
  | int n => n != 0
  | float x => !x.isZero
  | str s => !s.isEmpty
  | list _ members => !members.isEmpty
  | _ => true

def int? : Value → Option Int64
  | int n => some n
  | _ => none

def str? : Value → Option String
  | str s => some s
  | _ => none

def object? : Value → Option ObjectId
  | object p => some p
  | _ => none

def ofBool (b : Bool) : Value :=
  int (if b then 1 else 0)

/-! ## Text -/

mutual

def text : Value → String
  | int n => toString n.toInt
  | float x => Shortest.text x
  | str s => Quoted.text s
  | object p => "(pnode " ++ toString p.toNat ++ ")"
  | range a b => "(" ++ toString a.toInt ++ ".." ++ toString b.toInt ++ ")"
  | tuple fields => "(" ++ joinWith ", " (texts fields) ++ ")"
  | list _ members => "[" ++ joinWith ", " (texts members) ++ "]"
  | all => "**"
  | index kind => "<index " ++ kind.label ++ ">"
  | lambda id _ _ => "<lambda " ++ toString id.toNat ++ ">"
  | builtin b => b.name

def texts : List Value → List String
  | [] => []
  | v :: vs => v.text :: texts vs

end

mutual

/-- The type of a value in words. A list is described by its first member, which its other
members are like. -/
def describe : Value → String
  | int _ => "int"
  | float _ => "float"
  | str _ => "string"
  | object _ => "object"
  | range _ _ => "range of int"
  | tuple fields => "tuple of (" ++ joinWith ", " (describeAll fields) ++ ")"
  | list _ [] => "list of nothing"
  | list _ (v :: vs) => "list of " ++ toString (vs.length + 1) ++ " " ++ v.describe
  | all => "all objects"
  | index _ => "database-index"
  | lambda _ _ _ => "lambda"
  | builtin _ => "builtin"

def describeAll : List Value → List String
  | [] => []
  | v :: vs => v.describe :: describeAll vs

end

def shown : Option Value → String
  | some v => v.text
  | none => "nil"

end Value

end Provenance
