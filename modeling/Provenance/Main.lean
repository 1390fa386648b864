import Provenance.CommandLine
import Provenance.Interchange
import Provenance.Json.Reader

/-!
# Asking a query from the command line

Prints the preparation and the trace, if they are asked for, and the answer;
diagnostics go to the error output.
-/

open Provenance

def readData {α : Type} (decode : Json → Option α) (file : String) : IO α := do
  let text ← IO.FS.readFile file
  match (Json.read? text).bind decode with
  | some a => return a
  | none => throw (IO.userError ("parsing " ++ file))

def ask (r : CommandLine.Request) : IO UInt32 := do
  let query ← readData Interchange.expr? r.query
  let graph ← readData Interchange.graph? r.graph
  match Query.run .standard graph r.options query with
  | .error a =>
    IO.eprintln ("error: " ++ Query.abortText a)
    return 1
  | .ok answer =>
    IO.print answer.dump
    IO.print answer.trace
    for d in answer.diagnostics do
      IO.eprintln d.text
    IO.print (Report.render graph answer.value)
    return 0

def main (args : List String) : IO UInt32 :=
  match CommandLine.read? args with
  | some r => ask r
  | none => do
    IO.eprintln CommandLine.usage
    return 2
