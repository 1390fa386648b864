import Provenance.Eval.Evaluate
import Provenance.Report.Answer
import Provenance.Prepare.IndexScan
import Provenance.Prepare.Simplify

/-!
# Queries

A query is first prepared, then evaluated. Scans are replaced by index lookups
between two rounds of simplification, and each of the two kinds of preparation
may be left out.
-/

namespace Provenance

structure Options where
  simplify : Bool
  indexScans : Bool
  dump : Bool
  trace : Bool
  limits : Limits
  deriving DecidableEq, Repr

def Options.standard : Options :=
  ⟨true, true, false, false, .standard⟩

namespace Query

structure Prepared where
  expr : Option Expr
  dump : String

/-- A part of the preparation, by the name of its outcome. It may find that there is no value. -/
structure Stage where
  name : String
  pass : Expr → Option Expr

def stages (o : Options) : List Stage :=
  (if o.simplify then [⟨"optimized", Prepare.simplify⟩] else [])
    ++ (if o.indexScans then [⟨"indexified", fun e => some (Prepare.indexScans e)⟩] else [])
    ++ (if o.indexScans && o.simplify then [⟨"reoptimized", Prepare.simplify⟩] else [])

def dumpText (o : Options) (name : String) (e : Option Expr) : String :=
  if o.dump then "--- " ++ name ++ " ---\n" ++ Expr.outline e else ""

def Prepared.apply (o : Options) (p : Prepared) (s : Stage) : Prepared :=
  let e := p.expr.bind s.pass
  ⟨e, p.dump ++ dumpText o s.name e⟩

def prepare (o : Options) (e : Expr) : Prepared :=
  (stages o).foldl (Prepared.apply o) ⟨some e, dumpText o "input" (some e)⟩

structure Answer where
  value : Option Value
  diagnostics : List Diagnostic
  trace : String
  dump : String

def evalIn (lib : Library) (g : Graph) (l : Limits) (e : Expr) (s : Session) :
    Except Abort (Option Value) × Session :=
  Eval.evaluate e ⟨g, l, lib⟩ s

/-- Runs queries in turn in one session: what becomes of each of them, with what it reports. -/
def inTurn (run : Expr → Eval (Option Value)) (c : Setting) :
    List Expr → Session → List (Except Abort (Option Value) × List Diagnostic) × Session
  | [], s => ([], s)
  | e :: rest, s =>
    let r := run e c s
    let later := inTurn run c rest r.2
    ((r.1, r.2.diagnostics.toList.drop s.diagnostics.size) :: later.1, later.2)

def evaluate (lib : Library) (g : Graph) (o : Options) (p : Prepared) : Except Abort Answer :=
  let s := Session.new o.trace
  let r : Except Abort (Option Value) × Session := match p.expr with
    | none => (.ok none, s)
    | some e => evalIn lib g o.limits e s
  r.1.map fun v => ⟨v, r.2.diagnostics.toList, r.2.log.text, p.dump⟩

def run (lib : Library) (g : Graph) (o : Options) (e : Expr) : Except Abort Answer :=
  evaluate lib g o (prepare o e)

def abortText (a : Abort) : String :=
  "Resource limit exceeded: " ++ a.message

end Query

end Provenance
