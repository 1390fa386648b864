import Provenance.Eval.Call
import Provenance.Path.Automaton

/-!
# Walks through the graph

All walks that the automaton of a path admits are followed at once, one object
further in each generation. A walker is a walk so far, of which the last
object and the objects for the result are kept, and the segment that the next
object has to satisfy. The first object of a walk is a seed of a starting
segment; every later one is a neighbour of the one before it.
-/

namespace Provenance.Path

inductive Direction
  | forward
  | backward
  deriving DecidableEq, Repr

def Direction.text : Direction → String
  | forward => "LeftToRight"
  | backward => "RightToLeft"

def Direction.neighbours (d : Direction) (g : Graph) (p : ObjectId) : List ObjectId :=
  match d with
  | forward => g.children p
  | backward => g.parents p

/-- A walk that ended at `last` and has to go on with segment `state`. Its objects for the result
are `kept`, the latest first. -/
structure Walker where
  state : Nat
  last : ObjectId
  kept : List ObjectId
  deriving DecidableEq, Repr

structure Route where
  segments : List Segment
  automaton : Automaton
  direction : Direction

namespace Route

def test (r : Route) (i : Nat) : Test :=
  match r.segments[i]? with
  | some e => e.test
  | none => .any

def next (r : Route) (i : Nat) : List Nat :=
  match r.automaton.states[i]? with
  | some s => s.next
  | none => []

def accepting (r : Route) (i : Nat) : Bool :=
  r.automaton.states[i]?.any State.accepting

def extend (r : Route) (i : Nat) (p : ObjectId) (kept : List ObjectId) : List ObjectId :=
  if r.segments[i]?.any Segment.extract then p :: kept else kept

def successors (r : Route) (i : Nat) (p : ObjectId) (kept : List ObjectId) : List Walker :=
  (r.next i).map fun s => ⟨s, p, kept⟩

end Route

open Eval

/-! ## Objects for a segment -/

def objectsAmong : List Value → Eval (List ObjectId)
  | [] => pure []
  | .object p :: rest => do
    let ps ← objectsAmong rest
    return p :: ps
  | v :: rest => do
    let _ ← report (.badPathStart v.tag) none
    objectsAmong rest

def objectsWhere (ev : Expr → Eval (Option Value)) (id : UInt64) (x : Var) (body : Expr) :
    List ObjectId → Eval (List ObjectId)
  | [] => pure []
  | p :: rest => do
    let r ← applyClosure ev id x body (.object p)
    let ps ← objectsWhere ev id x body rest
    return if truth r then p :: ps else ps

def startObjects (ev : Expr → Eval (Option Value)) : Test → Eval (List ObjectId)
  | .any => do
    let g ← graph
    return g.ids
  | .expr e => do
    match ← ev e with
    | none => return []
    | some (.object p) => return [p]
    | some (.list _ members) => objectsAmong members
    | some .all =>
      let g ← graph
      return g.ids
    | some (.lambda id x body) =>
      let g ← graph
      objectsWhere ev id x body g.ids
    | some v =>
      let _ ← report (.badPathStart v.tag) none
      return []

def admits (p : ObjectId) : Option Value → Bool
  | none => false
  | some .all => true
  | some (.list _ members) => Members.has members (.object p)
  | some v => v.equals (.object p)

/-- Whether an object passes a segment. For a loop over all objects that returns its variable,
the guard is asked about the object instead of the loop about all of them. -/
def passes (ev : Expr → Eval (Option Value)) (p : ObjectId) : Test → Eval Bool
  | .any => pure true
  | .expr (.val .all) => pure true
  | .expr (.forIn x (.val .all) guard body) =>
    if body.isVar x.id then do
      let r ← binding x.id (some (.object p)) (ev guard)
      return truth r
    else do
      let r ← ev (.forIn x (.val .all) guard body)
      return admits p r
  | .expr e => do
    let r ← ev e
    return admits p r

/-! ## Generations -/

structure Frontier where
  found : List (List ObjectId)
  next : List Walker
  deriving DecidableEq, Repr

def visit (ev : Expr → Eval (Option Value)) (r : Route) (w : Walker) (f : Frontier)
    (p : ObjectId) : Eval Frontier := do
  countStep
  let ok ← passes ev p (r.test w.state)
  if ok then
    let kept := r.extend w.state p w.kept
    let next := (r.successors w.state p kept).foldl (fun ws w => w :: ws) f.next
    if r.accepting w.state then
      note fun _ =>
        "accept (pnode " ++ toString p.toNat ++ "), " ++ toString kept.length ++ " values"
      return ⟨kept :: f.found, next⟩
    else return ⟨f.found, next⟩
  else return f

def visitAll (ev : Expr → Eval (Option Value)) (r : Route) (w : Walker) :
    List ObjectId → Frontier → Eval Frontier
  | [], f => pure f
  | p :: rest, f => do
    let f ← visit ev r w f p
    visitAll ev r w rest f

def explore (ev : Expr → Eval (Option Value)) (r : Route) (w : Walker) (f : Frontier) :
    Eval Frontier := do
  let g ← graph
  let ps := r.direction.neighbours g w.last
  note fun _ => "(pnode " ++ toString w.last.toNat ++ ") in state " ++ toString w.state ++ ": "
    ++ toString ps.length ++ " neighbors"
  visitAll ev r w ps f

def exploreAll (ev : Expr → Eval (Option Value)) (r : Route) :
    List Walker → Frontier → Eval Frontier
  | [], f => pure f
  | w :: rest, f => do
    let f ← explore ev r w f
    exploreAll ev r rest f

/-- Runs generation after generation until no walker is left. The level of the trace that a
generation opens stays open if it is aborted. -/
def run (ev : Expr → Eval (Option Value)) (r : Route) :
    Nat → List Walker → List (List ObjectId) → Eval (List (List ObjectId))
  | _, [], found => pure found.reverse
  | 0, _ :: _, _ => unending
  | n + 1, w :: live, found => do
    note fun _ => "step: " ++ toString (live.length + 1) ++ " live hypotheses"
    change enter
    let f ← exploreAll ev r (w :: live) ⟨found, []⟩
    change leave
    run ev r n f.next.reverse f.found

/-! ## Whole walks -/

def launch (ev : Expr → Eval (Option Value)) (r : Route) : List Nat → Eval (List Walker)
  | [] => pure []
  | s :: rest => do
    note fun _ => "start state " ++ toString s
    let ps ← indented (startObjects ev (r.test s))
    note fun _ => "seeding " ++ toString ps.length ++ " hypotheses"
    let later ← launch ev r rest
    return ps.flatMap (fun p => r.successors s p (r.extend s p [])) ++ later

/-- What the walks of a route extract, each the latest object first. -/
def walks (ev : Expr → Eval (Option Value)) (r : Route) : Eval (List (List ObjectId)) := do
  let live ← launch ev r r.automaton.starts
  let n ← generations
  run ev r n live []

end Provenance.Path
