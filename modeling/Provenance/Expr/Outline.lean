import Provenance.Expr.Basic
import Provenance.Text.Outline

/-!
# Expressions as indented text

One line for each node, its parts below it one level deeper; the parts of a
binder or a condition stand under a label each.
-/

namespace Provenance.Expr

mutual

def lines (d : Nat) : Expr → List (Nat × String)
  | val v => [(d, "VAL " ++ v.text)]
  | ref id => [(d, "REF #" ++ toString id.toNat)]
  | op o left none _ => (d, "OP " ++ o.symbol) :: lines (d + 1) left
  | op o left (some right) _ =>
    (d, "OP " ++ o.symbol) :: (lines (d + 1) left ++ lines (d + 1) right)
  | tuple fields => (d, "TUPLE") :: linesAll (d + 1) fields
  | cond test yes no =>
    (d, "IF") :: (d + 1, "TEST") :: (lines (d + 2) test
      ++ (d + 1, "THEN") :: (linesOpt (d + 2) yes ++ (d + 1, "ELSE") :: linesOpt (d + 2) no))
  | forIn x source guard body =>
    (d, "FOR " ++ x.text) :: (d + 1, "IN") :: (lines (d + 2) source
      ++ (d + 1, "SUCHTHAT") :: (lines (d + 2) guard ++ (d + 1, "DO") :: lines (d + 2) body))
  | letIn x bound guard body =>
    let condition :=
      if guard.isTrueLiteral then [] else (d + 1, "SUCHTHAT") :: lines (d + 2) guard
    (d, "LET " ++ x.text) :: (d + 1, "=") :: (lines (d + 2) bound
      ++ (condition ++ (d + 1, "IN") :: lines (d + 2) body))
  | lambda x body => (d, "LAMBDA " ++ x.text) :: (d + 1, "DO") :: lines (d + 2) body

/-- A missing part has a line of its own. -/
def linesOpt (d : Nat) : Option Expr → List (Nat × String)
  | none => [(d, "NULL")]
  | some e => lines d e

def linesAll (d : Nat) : List (Option Expr) → List (Nat × String)
  | [] => []
  | e :: rest => linesOpt d e ++ linesAll d rest

end

def outline (e : Option Expr) : String :=
  Outline.ofLines (linesOpt 0 e)

end Provenance.Expr
