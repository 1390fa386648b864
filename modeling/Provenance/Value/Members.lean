import Provenance.Value.Order

/-!
# Lists of one kind

The members of a list all have one kind, which the list keeps beside them. An
operation that would mix kinds fails with both of them and leaves nothing
behind. The set operations sort and drop duplicates first, then merge.
-/

namespace Provenance

structure TagMismatch where
  expected : Tag
  found : Tag
  deriving DecidableEq, Repr

def TagMismatch.message (m : TagMismatch) : String :=
  "type mismatch adding " ++ m.found.name ++ " to list of " ++ m.expected.name

abbrev Members := List Value

namespace Members

def ofObjects (ids : List ObjectId) : Members :=
  ids.map .object

def has (l : Members) (v : Value) : Bool :=
  l.any fun w => w.equals v

/-! ## Sorting -/

/-- Puts a value into a falling list, in front of its equals. -/
def insertFalling (v : Value) : Members → Members
  | [] => [v]
  | w :: rest =>
    match v.compare w with
    | .lt => w :: insertFalling v rest
    | _ => v :: w :: rest

/-- Sorts into rising order; equals keep their order. -/
def sort (l : Members) : Members :=
  (l.foldl (fun falling v => insertFalling v falling) []).reverse

/-- Of neighbours that compare equal the first stays. -/
def dedupAfter (kept : Value) : Members → Members
  | [] => []
  | v :: rest =>
    match v.compare kept with
    | .eq => dedupAfter kept rest
    | _ => v :: dedupAfter v rest

def dedup : Members → Members
  | [] => []
  | v :: rest => v :: dedupAfter v rest

def sortedSet (l : Members) : Members :=
  dedup (sort l)

/-! ## Merging -/

/-- Which values a merge keeps: those only on the left, only on the right, and on both sides. -/
structure Merge where
  left : Bool
  right : Bool
  both : Bool
  deriving DecidableEq, Repr

def Merge.head (m : Merge) (v : Value) (rest : Members → Members) : Members → Members
  | [] => if m.left then v :: rest [] else rest []
  | w :: ws =>
    match v.compare w with
    | .lt => if m.left then v :: rest (w :: ws) else rest (w :: ws)
    | .gt => if m.right then w :: m.head v rest ws else m.head v rest ws
    | .eq => if m.both then v :: rest ws else rest ws

def Merge.run (m : Merge) : Members → Members → Members
  | [], ws => if m.right then ws else []
  | v :: vs, ws => m.head v (m.run vs) ws

end Members

/-! ## Lists with their tag -/

/-- A list and the tag that it keeps, which is none as long as there are no members. -/
structure Tagged where
  tag : Option Tag
  members : Members

namespace Tagged

def value (l : Tagged) : Value :=
  .list l.tag l.members

def empty : Tagged :=
  ⟨none, []⟩

def singleton (v : Value) : Tagged :=
  ⟨some v.tag, [v]⟩

def ofObjects (ids : List ObjectId) : Tagged :=
  ⟨if ids.isEmpty then none else some .object, .ofObjects ids⟩

def reverse (l : Tagged) : Tagged :=
  { l with members := l.members.reverse }

/-- Puts a value in front of the members. What is gathered value by value has the latest in front
until it is complete. -/
def push (l : Tagged) (v : Value) : Except TagMismatch Tagged :=
  match l.tag with
  | some t => if t = v.tag then .ok ⟨some v.tag, v :: l.members⟩ else .error ⟨t, v.tag⟩
  | none => .ok ⟨some v.tag, v :: l.members⟩

def pushAll : Tagged → List Value → Except TagMismatch Tagged
  | l, [] => .ok l
  | l, v :: vs =>
    match l.push v with
    | .ok l' => pushAll l' vs
    | .error m => .error m

def ofValues (values : List Value) : Except TagMismatch Tagged :=
  (empty.pushAll values).map reverse

/-- The values as a list that was declared to hold the given kind. Nothing is declared of a list
without members. -/
def ofDeclared (declared : Option Tag) (values : List Value) : Except TagMismatch Tagged :=
  (pushAll ⟨if values.isEmpty then none else declared, []⟩ values).map reverse

def sortedSet (l : Tagged) : Tagged :=
  { l with members := l.members.sortedSet }

def merge (m : Members.Merge) (a b : Tagged) : Except TagMismatch Tagged :=
  ofValues (m.run a.sortedSet.members b.sortedSet.members)

def union (a b : Tagged) : Except TagMismatch Tagged :=
  merge ⟨true, true, true⟩ a b

def intersect (a b : Tagged) : Except TagMismatch Tagged :=
  merge ⟨false, false, true⟩ a b

def difference (a b : Tagged) : Except TagMismatch Tagged :=
  merge ⟨true, false, false⟩ a b

/-- An empty side yields the other. -/
def concat (a b : Tagged) : Except TagMismatch Tagged :=
  if a.members.isEmpty then .ok b
  else if b.members.isEmpty then .ok a
  else
    match a.tag, b.tag with
    | some s, some t =>
      if s = t then .ok { a with members := a.members ++ b.members } else .error ⟨s, t⟩
    | _, _ => .ok { a with members := a.members ++ b.members }

end Tagged

end Provenance
