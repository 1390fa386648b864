import Provenance.Graph
import Provenance.Json.Basic

/-!
# Queries and graphs as data

The data form of values, expressions and graphs. A variant is an object whose
only member has the variant's name, or the bare name if nothing belongs to it.
A structure is an object with its parts as members, of which others are passed
over, or the array of its parts in order; the parts of an expression are always
named. An optional part may be null, and as a member may be missing.
-/

namespace Provenance.Interchange

/-! ## Shapes -/

def variant? : Json → Option (String × Json)
  | .str s => some (s, .null)
  | .obj [m] => some m
  | _ => none

def choice? {α : Type} (choices : List (String × α)) (j : Json) : Option α :=
  match variant? j with
  | some (name, .null) => (choices.find? fun c => c.1 == name).map Prod.snd
  | _ => none

def members? (names : List String) : Json → Option (List (Option Json))
  | .obj members => some (names.map fun name => (Json.obj members).get? name)
  | _ => none

/-- The parts of a structure. The last part of an array may be left out if `short` allows it. -/
def parts? (names : List String) (short : Bool) : Json → Option (List (Option Json))
  | .obj members => members? names (.obj members)
  | .arr items =>
    if items.length = names.length then some (items.map some)
    else if short && items.length + 1 = names.length then some (items.map some ++ [none])
    else none
  | _ => none

def required {α : Type} (f : Json → Option α) (j : Option Json) : Option α :=
  j.bind f

def optional {α : Type} (f : Json → Option α) : Option Json → Option (Option α)
  | none => some none
  | some .null => some none
  | some j => (f j).map some

def items? {α : Type} (f : Json → Option α) (j : Json) : Option (List α) :=
  j.arr?.bind fun js => js.mapM f

/-! ## Names -/

def operatorName : Operator → String
  | .lookup => "Lookup"
  | .call => "Func"
  | .field => "Field"
  | .step => "Path"
  | .stepsZ => "LongPathZ"
  | .stepsNZ => "LongPathNZ"
  | .union => "Union"
  | .intersect => "Intersect"
  | .logAnd => "LogAnd"
  | .logOr => "LogOr"
  | .eq => "Eq"
  | .ne => "Ne"
  | .like => "Match"
  | .unlike => "NoMatch"
  | .lt => "Lt"
  | .gt => "Gt"
  | .le => "Le"
  | .ge => "Ge"
  | .contains => "Contains"
  | .add => "Add"
  | .sub => "Sub"
  | .mul => "Mul"
  | .div => "Div"
  | .mod => "Mod"
  | .concat => "StrCat"
  | .logNot => "LogNot"
  | .neg => "Neg"
  | .optional => "Optional"
  | .repeats => "Repeat"
  | .extract => "Extract"

def indexName : IndexKind → String
  | .identity => "Identity"
  | .inode => "InodeToPnode"
  | .name => "Name"
  | .argv => "Argv"

def builtinName : Builtin → String
  | .first => "First"
  | .second => "Second"
  | .third => "Third"
  | .filter => "Filter"
  | .ctime => "Ctime"

def named {α : Type} (name : α → String) (as : List α) : List (String × α) :=
  as.map fun a => (name a, a)

def operator? (j : Json) : Option Operator :=
  choice? (named operatorName Operator.every) j

def index? (j : Json) : Option IndexKind :=
  choice? (named indexName [.identity, .inode, .name, .argv]) j

def builtin? (j : Json) : Option Builtin :=
  choice? (named builtinName Builtin.every) j

def tag? (j : Json) : Option Tag :=
  choice? (named Tag.name
    [.int, .float, .str, .object, .range, .tuple, .list, .all, .index, .lambda, .builtin]) j

/-! ## Values and expressions -/

def var? (j : Json) : Option Var := do
  match ← parts? ["id", "name"] false j with
  | [id, name] =>
    let id ← required Json.uint32? id
    let name ← required Json.str? name
    return ⟨id, name⟩
  | _ => none

def spanNames : Json → Bool
  | .obj members => members.all fun m => m.1 == "start" || m.1 == "end"
  | _ => true

def span? (j : Json) : Option Span := do
  if !spanNames j then none
  match ← parts? ["start", "end"] false j with
  | [start, stop] =>
    let start ← required (Json.nat? UInt64.size) start
    let stop ← required (Json.nat? UInt64.size) stop
    return ⟨start, stop⟩
  | _ => none

def range? : Json → Option Value
  | .arr [a, b] =>
    match a.int64?, b.int64? with
    | some a, some b => some (.range a b)
    | _, _ => none
  | _ => none

/-- A list declares the kind of its members, or leaves it to them. -/
def membersOf? (value? : Json → Option Value) (j : Json) : Option Tagged := do
  match ← parts? ["membertype", "members"] false j with
  | [declared, members] =>
    let declared ← optional tag? declared
    let members ← required (items? value?) members
    match Tagged.ofDeclared declared members with
    | .ok l => some l
    | .error _ => none
  | _ => none

def closure? (expr? : Json → Option Expr) (j : Json) : Option Value := do
  match ← parts? ["id", "var", "body"] false j with
  | [id, x, body] =>
    let id ← required Json.uint64? id
    let x ← required var? x
    let body ← required expr? body
    return .lambda id x body
  | _ => none

def valueOf? (value? : Json → Option Value) (expr? : Json → Option Expr) (name : String)
    (j : Json) : Option Value :=
  match name with
  | "Int" => j.int64?.map .int
  | "Float" => j.float?.map .float
  | "Str" => j.str?.map .str
  | "Pnode" => j.uint64?.map .object
  | "Range" => range? j
  | "Tuple" => (items? value? j).map .tuple
  | "List" => (membersOf? value? j).map Tagged.value
  | "All" =>
    match j with
    | .null => some .all
    | _ => none
  | "Index" => (index? j).map .index
  | "Lambda" => closure? expr? j
  | "Builtin" => (builtin? j).map .builtin
  | _ => none

def operation? (expr? : Json → Option Expr) (j : Json) : Option Expr := do
  match ← members? ["op", "left", "right", "span"] j with
  | [o, left, right, span] =>
    let o ← required operator? o
    let left ← required expr? left
    let right ← optional expr? right
    let span ← optional span? span
    return .op o left right span
  | _ => none

def condition? (expr? : Json → Option Expr) (j : Json) : Option Expr := do
  match ← members? ["test", "yes", "no"] j with
  | [test, yes, no] =>
    let test ← required expr? test
    let yes ← optional expr? yes
    let no ← optional expr? no
    return .cond test yes no
  | _ => none

/-- A loop or a binding, which differ in the name of what the variable is bound to. -/
def binder? (expr? : Json → Option Expr) (source : String)
    (make : Var → Expr → Expr → Expr → Expr) (j : Json) : Option Expr := do
  match ← members? ["var", source, "guard", "body"] j with
  | [x, source, guard, body] =>
    let x ← required var? x
    let source ← required expr? source
    let guard ← required expr? guard
    let body ← required expr? body
    return make x source guard body
  | _ => none

def function? (expr? : Json → Option Expr) (j : Json) : Option Expr := do
  match ← members? ["var", "body"] j with
  | [x, body] =>
    let x ← required var? x
    let body ← required expr? body
    return .lambda x body
  | _ => none

def exprOf? (value? : Json → Option Value) (expr? : Json → Option Expr) (name : String)
    (j : Json) : Option Expr :=
  match name with
  | "Val" => (value? j).map .val
  | "Ref" => j.uint32?.map .ref
  | "Op" => operation? expr? j
  | "Tuple" => (items? (fun j => optional expr? (some j)) j).map .tuple
  | "Cond" => condition? expr? j
  | "For" => binder? expr? "source" .forIn j
  | "Let" => binder? expr? "bound" .letIn j
  | "Lambda" => function? expr? j
  | _ => none

mutual

def valueIn? : Nat → Json → Option Value
  | 0, _ => none
  | n + 1, j => (variant? j).bind fun v => valueOf? (valueIn? n) (exprIn? n) v.1 v.2

def exprIn? : Nat → Json → Option Expr
  | 0, _ => none
  | n + 1, j => (variant? j).bind fun v => exprOf? (valueIn? n) (exprIn? n) v.1 v.2

end

mutual

/-- How deep the parts of a datum lie at most. What is read from a part lies less deep than the
whole, so the recursion can run on this. -/
def height : Json → Nat
  | .arr items => heights items + 1
  | .obj members => memberHeights members + 1
  | _ => 1

def heights : List Json → Nat
  | [] => 0
  | j :: rest => max (height j) (heights rest)

def memberHeights : List (String × Json) → Nat
  | [] => 0
  | (_, j) :: rest => max (height j) (memberHeights rest)

end

def value? (j : Json) : Option Value :=
  valueIn? (height j) j

def expr? (j : Json) : Option Expr :=
  exprIn? (height j) j

def list? (j : Json) : Option Tagged :=
  membersOf? value? j

/-! ## Graphs -/

def record? : Json → Option Record
  | .arr [name, v] =>
    match name.str?, value? v with
    | some name, some v => some (name, v)
    | _, _ => none
  | _ => none

def object? (j : Json) : Option (ObjectId × List Record) := do
  match ← parts? ["pnode", "attributes"] true j with
  | [p, records] =>
    let p ← required Json.uint64? p
    match records with
    | none => return (p, [])
    | some j =>
      let records ← items? record? j
      return (p, records)
  | _ => none

def graph? (j : Json) : Option Graph := do
  match ← parts? ["objects"] false j with
  | [objects] =>
    let objects ← required (items? object?) objects
    return objects.foldl (fun g o => g.load o.1 o.2) .empty
  | _ => none

end Provenance.Interchange
