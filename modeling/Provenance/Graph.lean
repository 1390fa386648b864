import Provenance.Value.Members

/-!
# The provenance graph

Objects with their attribute records. A record named `INPUT` that holds an
object is an edge to a parent. Objects are kept in rising order, the records of
each in the order in which they came, and so are the edges.
-/

namespace Provenance

abbrev Record := String × Value

structure Edge where
  child : ObjectId
  parent : ObjectId
  deriving DecidableEq, Repr

structure Graph where
  objects : List (ObjectId × List Record)
  edges : List Edge

namespace Graph

def empty : Graph :=
  ⟨[], []⟩

instance : Inhabited Graph := ⟨empty⟩

/-! ## Growth -/

/-- Adds records to an object, which is put in its place if it is new. -/
def extend (p : ObjectId) (records : List Record) :
    List (ObjectId × List Record) → List (ObjectId × List Record)
  | [] => [(p, records)]
  | (q, rs) :: rest =>
    if p = q then (q, rs ++ records) :: rest
    else if p < q then (p, records) :: (q, rs) :: rest
    else (q, rs) :: extend p records rest

def addObject (g : Graph) (p : ObjectId) : Graph :=
  { g with objects := extend p [] g.objects }

def recordEdge (p : ObjectId) (name : String) (v : Value) : List Edge :=
  match v with
  | .object q => if name = "INPUT" then [⟨p, q⟩] else []
  | _ => []

def set (g : Graph) (p : ObjectId) (name : String) (v : Value) : Graph :=
  { objects := extend p [(name, v)] g.objects
    edges := g.edges ++ recordEdge p name v }

def addInput (g : Graph) (child parent : ObjectId) : Graph :=
  g.set child "INPUT" (.object parent)

def load (g : Graph) (p : ObjectId) (records : List Record) : Graph :=
  records.foldl (fun g r => g.set p r.1 r.2) (g.addObject p)

/-! ## Reading -/

def size (g : Graph) : Nat :=
  g.objects.length

def ids (g : Graph) : List ObjectId :=
  g.objects.map Prod.fst

def records? (g : Graph) (p : ObjectId) : Option (List Record) :=
  (g.objects.find? fun o => o.1 == p).map Prod.snd

def records (g : Graph) (p : ObjectId) : List Record :=
  (g.records? p).getD []

def children (g : Graph) (p : ObjectId) : List ObjectId :=
  g.edges.filterMap fun e => if e.parent = p then some e.child else none

def parents (g : Graph) (p : ObjectId) : List ObjectId :=
  (g.records p).filterMap fun r => if r.1 = "INPUT" then r.2.object? else none

def number? (p : ObjectId) : Option Value :=
  if p.toNat < 0x8000000000000000 then some (.int p.toInt64) else none

/-- The first record of that name; every object has a record of its own number. -/
def attribute? (g : Graph) (p : ObjectId) (name : String) : Option Value :=
  match g.records? p with
  | none => none
  | some rs =>
    if name = "PNODE" then number? p else (rs.find? fun r => r.1 == name).map Prod.snd

/-! ## Indexes -/

def beginsWith : List Char → List Char → Bool
  | [], _ => true
  | _ :: _, [] => false
  | c :: cs, d :: ds => c == d && beginsWith cs ds

def occursIn (word : List Char) : List Char → Bool
  | [] => beginsWith word []
  | c :: cs => beginsWith word (c :: cs) || occursIn word cs

mutual

def argvMentions (word : String) : Value → Bool
  | .str s => occursIn word.toList s.toList
  | .tuple vs => anyMentions word vs
  | .list _ vs => anyMentions word vs
  | _ => false

def anyMentions (word : String) : List Value → Bool
  | [] => false
  | v :: vs => argvMentions word v || anyMentions word vs

end

def matching (g : Graph) (test : String → Value → Bool) : Tagged :=
  .ofObjects ((g.objects.filter fun o => o.2.any fun r => test r.1 r.2).map Prod.fst)

def findInode (g : Graph) (n : Int64) : Tagged :=
  g.matching fun name v => name == "INODE" && v.int? == some n

def findName (g : Graph) (s : String) : Tagged :=
  g.matching fun name v => name == "NAME" && v.str? == some s

def findArgv (g : Graph) (word : String) : Tagged :=
  g.matching fun name v => name == "ARGV" && argvMentions word v

structure KeyError where
  index : IndexKind
  expected : Tag
  found : Tag
  deriving DecidableEq, Repr

def KeyError.message (e : KeyError) : String :=
  "index " ++ e.index.label ++ " requires a " ++ e.expected.name ++ " key, found " ++ e.found.name

def lookup (g : Graph) : IndexKind → Value → Except KeyError Value
  | .identity, v => .ok v
  | .inode, .int n => .ok (g.findInode n).value
  | .inode, v => .error ⟨.inode, .int, v.tag⟩
  | .name, .str s => .ok (g.findName s).value
  | .name, v => .error ⟨.name, .str, v.tag⟩
  | .argv, .str s => .ok (g.findArgv s).value
  | .argv, v => .error ⟨.argv, .str, v.tag⟩

end Graph

end Provenance
