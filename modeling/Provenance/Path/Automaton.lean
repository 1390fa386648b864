import Provenance.Path.Segment

/-!
# The automaton of a path

Being in state `i` means to expect an object for segment `i`. After it comes an
object for the next segment, for the same one if that repeats, or for one that is
reached by leaving out segments; and the path may end if all that follow may be
left out.
-/

namespace Provenance.Path

structure State where
  next : List Nat
  accepting : Bool
  deriving DecidableEq, Repr

structure Automaton where
  states : List State
  starts : List Nat
  deriving DecidableEq, Repr

namespace Automaton

/-- The states reached by leaving out segments, given the repetitions from segment `j` on. -/
def skipsFrom (j : Nat) : List Repetition → List Nat
  | m :: m' :: rest => if m.skippable then (j + 1) :: skipsFrom (j + 1) (m' :: rest) else []
  | _ => []

def state (i : Nat) (m : Repetition) (later : List Repetition) : State :=
  { next := (if later.isEmpty then [] else [i + 1]) ++ (if m.repeats then [i] else [])
      ++ skipsFrom (i + 1) later
    accepting := later.all Repetition.skippable }

def statesFrom (i : Nat) : List Repetition → List State
  | [] => []
  | m :: rest => state i m rest :: statesFrom (i + 1) rest

/-- Leaving out all segments is no way to start. -/
def startsOf : List Repetition → List Nat
  | [] => []
  | ms => 0 :: skipsFrom 0 ms

def ofRepetitions (ms : List Repetition) : Automaton :=
  ⟨statesFrom 0 ms, startsOf ms⟩

def compile (segments : List Segment) : Automaton :=
  ofRepetitions (segments.map Segment.repetition)

/-! ## Text -/

def numbersText (ns : List Nat) : String :=
  ns.foldl (fun s n => s ++ " " ++ toString n) ""

def linesFrom (i : Nat) : List State → List String
  | [] => []
  | s :: rest =>
    ("state " ++ toString i ++ " ->" ++ numbersText s.next
      ++ if s.accepting then " ACCEPT" else "") :: linesFrom (i + 1) rest

def lines (a : Automaton) : List String :=
  linesFrom 0 a.states ++ ["start:" ++ numbersText a.starts]

end Automaton

end Provenance.Path
