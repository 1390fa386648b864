import Provenance.Value.Order

/-!
# Tuple trees

Tuples of one width, held column by column as a tree in which a tuple shares
the cells of the tuple before it for as long as their fields agree. The last
column has a cell for every tuple. When the tree is written, a cell that the
line above shows already is left blank, and so is all that lies left of it.
-/

namespace Provenance

/-- A cell's links: to its neighbours in the column, to its parent in the column on the left and
to its children in the column on the right. -/
structure Cell where
  value : Value
  down : Option Nat
  up : Option Nat
  left : Option Nat
  right : List Nat
  index : Nat

abbrev Column := List Cell

structure TupleTree where
  columns : List Column

namespace TupleTree

/-! ## Growth -/

def linkUp : Column → Column
  | [] => []
  | [c] => [{ c with up := some (c.index + 1) }]
  | c :: rest => c :: linkUp rest

def pushCell (col : Column) (v : Value) (left : Option Nat) (right : List Nat) : Column :=
  let i := col.length
  linkUp col ++ [⟨v, if i = 0 then none else some (i - 1), none, left, right, i⟩]

def addChild (i : Nat) (child : Option Nat) (col : Column) : Column :=
  match child with
  | none => col
  | some k => col.modify i fun c => { c with right := c.right ++ [k] }

/-- The candidate, if it may be shared for a field that `last` tells to be the last of its
tuple. -/
def shared? (col : Column) (candidate : Option Nat) (v : Value) (last : Bool) : Option Nat :=
  match candidate with
  | none => none
  | some i => if !last && col[i]?.any (fun c => c.value.equals v) then some i else none

/-- Puts the rest of a tuple into the columns that are left, under the given parent. The
candidate is the cell to be shared if it agrees. Yields the columns and the parent's new child. -/
def place (parent candidate : Option Nat) : List Column → List Value → List Column × Option Nat
  | col :: cols, v :: vs =>
    match shared? col candidate v vs.isEmpty with
    | some i =>
      let next := match col[i]? with
        | none => none
        | some c => c.right.getLast?
      let r := place (some i) next cols vs
      (addChild i r.2 col :: r.1, none)
    | none =>
      let i := col.length
      let r := place (some i) none cols vs
      (pushCell col v parent r.2.toList :: r.1, some i)
  | cols, _ => (cols, none)

def latest : List Column → Option Nat
  | [] => none
  | col :: _ => if col.length = 0 then none else some (col.length - 1)

def insert (columns : List Column) (tuple : List Value) : List Column :=
  (place none (latest columns) columns tuple).1

def ofTuples? : List (List Value) → Option TupleTree
  | [] => some ⟨[]⟩
  | t :: ts =>
    if t.isEmpty || ts.any fun u => u.length != t.length then none
    else some ⟨(t :: ts).foldl insert (List.replicate t.length [])⟩

/-! ## Text -/

def size (t : TupleTree) : Nat :=
  match t.columns.getLast? with
  | none => 0
  | some col => col.length

def ascend : List Column → Option Nat → List (Option Nat)
  | [], _ => []
  | _ :: cols, none => none :: ascend cols none
  | col :: cols, some i =>
    some i :: ascend cols (match col[i]? with
      | none => none
      | some c => c.left)

/-- The cells to show, from the last column to the first, after the line for another tuple. -/
def visible : Bool → List (Option Nat) → List (Option Nat) → List (Option Nat)
  | blank, above :: aboves, i :: is =>
    let blank := blank || above == i
    (if blank then none else i) :: visible blank aboves is
  | blank, [], i :: is => (if blank then none else i) :: visible blank [] is
  | _, _, [] => []

def blanks (n : Nat) : String :=
  String.ofList (List.replicate n ' ')

def padLeft (width : Nat) (s : String) : String :=
  blanks (width - s.length) ++ s

/-- The texts of a line, given for each column the texts of its cells. A separator follows every
column but the last. -/
def cellsText : List (List String) → List (Option Nat) → String
  | texts :: rest, cell :: cells =>
    let width := texts.foldl (fun w s => max w s.length) 0
    let shown := match cell with
      | none => blanks width
      | some i => padLeft width (texts[i]?.getD "")
    let separator := if rest.isEmpty then "" else if cell.isSome then ", " else "  "
    shown ++ separator ++ cellsText rest cells
  | _, _ => ""

/-- The lines of tuples, of which the one before had the cells `above`. -/
def rowsFrom (columns : List Column) (texts : List (List String)) (above : List (Option Nat)) :
    List Nat → List String
  | [] => []
  | leaf :: rest =>
    let cells := ascend columns.reverse (some leaf)
    ("(" ++ cellsText texts (visible false above cells).reverse ++ ")")
      :: rowsFrom columns texts cells rest

def render (t : TupleTree) (text : Value → String) : String :=
  if t.size = 0 then "\x7b\n\x7d"
  else
    let texts := t.columns.map fun col => col.map fun c => text c.value
    "\x7b\n   " ++ joinWith ",\n   " (rowsFrom t.columns texts [] (List.range t.size)) ++ "\n\x7d"

end TupleTree

end Provenance
