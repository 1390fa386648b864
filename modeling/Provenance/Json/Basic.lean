import Provenance.Number.Binary64

/-!
# JSON data

Numbers are kept as whole numbers of 64 bits where they are written as such and
fit, and as floating point numbers otherwise.
-/

namespace Provenance

inductive Json
  | null
  | bool (b : Bool)
  | int (n : Int)
  | float (x : Binary64)
  | str (s : String)
  | arr (items : List Json)
  | obj (members : List (String × Json))

namespace Json

instance : Inhabited Json := ⟨.null⟩

/-- The value of a member; of members with one name the last counts, and the reader keeps no
other. -/
def get? (name : String) : Json → Option Json
  | obj members => (members.find? fun m => m.1 == name).map Prod.snd
  | _ => none

def str? : Json → Option String
  | str s => some s
  | _ => none

def bool? : Json → Option Bool
  | bool b => some b
  | _ => none

def arr? : Json → Option (List Json)
  | arr items => some items
  | _ => none

def nat? (bound : Nat) : Json → Option Nat
  | int n => if 0 ≤ n && n < bound then some n.toNat else none
  | _ => none

def int64? : Json → Option Int64
  | int n => if -0x8000000000000000 ≤ n && n < 0x8000000000000000 then some (Int64.ofInt n) else none
  | _ => none

def uint64? (j : Json) : Option UInt64 :=
  (j.nat? UInt64.size).map UInt64.ofNat

def uint32? (j : Json) : Option UInt32 :=
  (j.nat? UInt32.size).map UInt32.ofNat

def float? : Json → Option Binary64
  | int n => some (.ofInt n)
  | float x => some x
  | _ => none

end Json

end Provenance
