import Provenance.Json.Basic
import Provenance.Number.Shortest

/-!
# Writing JSON
-/

namespace Provenance.Json

def hexDigits (n : Nat) : List Char :=
  let ds := Nat.toDigits 16 n
  List.replicate (4 - ds.length) '0' ++ ds

/-- Quotes and backslashes are escaped, and so are control characters, by their numbers. -/
def charText (c : Char) : List Char :=
  if c = '"' || c = '\\' then ['\\', c]
  else if c.toNat < 32 then '\\' :: 'u' :: hexDigits c.toNat
  else [c]

def quoted (s : String) : String :=
  "\"" ++ String.ofList (s.toList.flatMap charText) ++ "\""

/-- A floating point number is told from a whole one by its point. What is no number is null. -/
def floatText (x : Binary64) : String :=
  if x.isFinite then
    let s := Shortest.text x
    if s.toList.contains '.' then s else s ++ ".0"
  else "null"

mutual

def append (out : String) : Json → String
  | null => out ++ "null"
  | bool b => out ++ if b then "true" else "false"
  | int n => out ++ toString n
  | float x => out ++ floatText x
  | str s => out ++ quoted s
  | arr items => appendItems (out ++ "[") items ++ "]"
  | obj members => appendMembers (out ++ "\x7b") members ++ "\x7d"

def appendItems (out : String) : List Json → String
  | [] => out
  | [j] => append out j
  | j :: rest => appendItems (append out j ++ ",") rest

def appendMembers (out : String) : List (String × Json) → String
  | [] => out
  | [(name, j)] => append (out ++ quoted name ++ ":") j
  | (name, j) :: rest => appendMembers (append (out ++ quoted name ++ ":") j ++ ",") rest

end

def write (j : Json) : String :=
  append "" j

end Provenance.Json
