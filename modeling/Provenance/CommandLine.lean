import Provenance.Query

/-!
# The command line

Two files are named, one with a query and one with the graph it is asked of.
Options may stand anywhere among them.
-/

namespace Provenance.CommandLine

structure Request where
  query : String
  graph : String
  options : Options

def usage : String :=
  "usage: [--dump] [--trace] [--no-optimize] [--no-indexify] [--max-path-steps N] QUERY GRAPH"

/-- A limit on path steps, where zero stands for none. -/
def withSteps (o : Options) (n : Nat) : Options :=
  { o with limits := { o.limits with maxPathSteps := if n = 0 then none else some n } }

def flag? (o : Options) : String → Option Options
  | "-d" => some { o with dump := true }
  | "--dump" => some { o with dump := true }
  | "-t" => some { o with trace := true }
  | "--trace" => some { o with trace := true }
  | "--no-optimize" => some { o with simplify := false }
  | "--no-indexify" => some { o with indexScans := false }
  | _ => none

def count? (s : String) : Option Nat :=
  if s.toList.all Char.isDigit then s.toNat?.filter fun n => n < UInt64.size else none

def readFrom (o : Options) (files : List String) : List String → Option Request
  | [] =>
    match files with
    | [graph, query] => some ⟨query, graph, o⟩
    | _ => none
  | "--max-path-steps" :: n :: rest =>
    match count? n with
    | some n => readFrom (withSteps o n) files rest
    | none => none
  | a :: rest =>
    match flag? o a with
    | some o => readFrom o files rest
    | none => if a.startsWith "-" then none else readFrom o (a :: files) rest

def read? (args : List String) : Option Request :=
  readFrom .standard [] args

end Provenance.CommandLine
