import Provenance.Expr.Outline
import Provenance.Graph
import Provenance.Report.TupleTree

/-!
# Answers as text

The kind of the answer on a line of its own, and then the answer. Lists are
sorted and freed of duplicates, and a list of tuples of one width is written as
a tree.
-/

namespace Provenance.Report

def tupleFields? : Value → Option (List Value)
  | .tuple fields => some fields
  | _ => none

def allTuples? : Members → Option (List (List Value))
  | [] => some []
  | v :: rest =>
    match tupleFields? v, allTuples? rest with
    | some fields, some tuples => some (fields :: tuples)
    | _, _ => none

def memberLines (l : Members) : String :=
  l.foldl (fun s v => s ++ v.text ++ "\n") ""

def sortedText (l : Members) : String :=
  match l with
  | [] => ""
  | _ =>
    match (allTuples? l).bind TupleTree.ofTuples? with
    | some tree => tree.render Value.text ++ "\n"
    | none => memberLines l

def listText (l : Members) : String :=
  sortedText l.sortedSet

def recordLines (records : List Record) : String :=
  records.foldl (fun s r => s ++ "   " ++ r.1 ++ ": " ++ r.2.text ++ "\n") ""

def body (g : Graph) : Value → String
  | .object p => (Value.object p).text ++ "\n" ++ recordLines (g.records p)
  | .list _ members => listText members
  | .all => listText (.ofObjects g.ids)
  | .lambda id x e => (Value.lambda id x e).text ++ "\n" ++ Expr.outline (some e)
  | v => v.text ++ "\n"

def render (g : Graph) : Option Value → String
  | none => "NOTHING\n"
  | some v => "RESULT: " ++ v.describe ++ "\n" ++ body g v

end Provenance.Report
