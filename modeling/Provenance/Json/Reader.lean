import Provenance.Json.Token

/-!
# Reading JSON

Tokens are taken in one by one. The arrays and objects that are open form a
stack, and what may come next is remembered beside it.
-/

namespace Provenance.Json

/-- What is open, the latest item first. An object may wait for the value of a name. -/
inductive Frame
  | arr (rev : List Json)
  | obj (rev : List (String × Json)) (name : Option String)

inductive Expect
  | value
  | firstItem
  | firstName
  | name
  | colon
  | separator
  deriving DecidableEq

structure Reader where
  frames : List Frame
  expect : Expect
  result : Option Json

def Reader.start : Reader :=
  ⟨[], .value, none⟩

def Reader.finish (frames : List Frame) (j : Json) : Option Reader :=
  match frames with
  | [] => some ⟨[], .separator, some j⟩
  | .arr rev :: rest => some ⟨.arr (j :: rev) :: rest, .separator, none⟩
  | .obj rev (some name) :: rest =>
    some ⟨.obj ((name, j) :: rev) none :: rest, .separator, none⟩
  | .obj _ none :: _ => none

/-- Of members with one name the first is kept. -/
def distinct : List (String × Json) → List String → List (String × Json)
  | [], _ => []
  | m :: rest, seen =>
    if seen.contains m.1 then distinct rest seen else m :: distinct rest (m.1 :: seen)

def Reader.takesValue (r : Reader) : Bool :=
  r.expect == .value || r.expect == .firstItem

def Reader.step (r : Reader) : Token → Option Reader
  | .scalar j => if r.takesValue then finish r.frames j else none
  | .openArr => if r.takesValue then some ⟨.arr [] :: r.frames, .firstItem, none⟩ else none
  | .openObj => if r.takesValue then some ⟨.obj [] none :: r.frames, .firstName, none⟩ else none
  | .text s =>
    if r.takesValue then finish r.frames (.str s)
    else if r.expect == .firstName || r.expect == .name then
      match r.frames with
      | .obj rev _ :: rest => some ⟨.obj rev (some s) :: rest, .colon, none⟩
      | _ => none
    else none
  | .colon => if r.expect == .colon then some ⟨r.frames, .value, none⟩ else none
  | .comma =>
    if r.expect == .separator then
      match r.frames with
      | .arr _ :: _ => some ⟨r.frames, .value, none⟩
      | .obj _ _ :: _ => some ⟨r.frames, .name, none⟩
      | [] => none
    else none
  | .closeArr =>
    if r.expect == .separator || r.expect == .firstItem then
      match r.frames with
      | .arr rev :: rest => finish rest (.arr rev.reverse)
      | _ => none
    else none
  | .closeObj =>
    if r.expect == .separator || r.expect == .firstName then
      match r.frames with
      | .obj rev _ :: rest => finish rest (.obj (distinct rev []))
      | _ => none
    else none

def Reader.run : List Token → Reader → Option Reader
  | [], r => some r
  | t :: rest, r =>
    match r.step t with
    | none => none
    | some r' => run rest r'

def read? (s : String) : Option Json :=
  match (tokens? s).bind fun ts => Reader.run ts .start with
  | some ⟨[], .separator, some j⟩ => some j
  | _ => none

end Provenance.Json
