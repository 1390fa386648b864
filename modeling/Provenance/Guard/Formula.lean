import Provenance.Expr.Basic

/-!
# The formula of a guard

A guard is taken apart at `&&`, `||` and `!`; what is left over are its leaves,
known by their positions. `normalize?` turns the formula step by step into a
conjunction of clauses, each a disjunction of leaves and negated leaves.
-/

namespace Provenance.Guard

inductive Formula
  | and (a b : Formula)
  | or (a b : Formula)
  | not (a : Formula)
  | leaf (i : Nat)
  deriving DecidableEq, Repr

structure Literal where
  leaf : Nat
  negated : Bool
  deriving DecidableEq, Repr

abbrev Clause := List Literal

namespace Formula

/-- The formula of a guard whose leaves follow the given ones, and all leaves together. -/
def build (leaves : Array Expr) : Expr → Formula × Array Expr
  | .op .logAnd left (some right) _ =>
    let l := build leaves left
    let r := build l.2 right
    (.and l.1 r.1, r.2)
  | .op .logOr left (some right) _ =>
    let l := build leaves left
    let r := build l.2 right
    (.or l.1 r.1, r.2)
  | .op .logNot left none _ =>
    let l := build leaves left
    (.not l.1, l.2)
  | e => (.leaf leaves.size, leaves.push e)

/-- Applies a rule at the first place where one fits, from the top down and from left to right:
a negation moves inwards, and a disjunction moves below a conjunction. -/
def step? : Formula → Option Formula
  | not (or a b) => some (and (not a) (not b))
  | not (and a b) => some (or (not a) (not b))
  | not (not a) => some a
  | not (leaf _) => none
  | or (and a b) c => some (and (or a c) (or b c))
  | or a (and b c) => some (and (or a b) (or a c))
  | or a b =>
    match step? a with
    | some a' => some (or a' b)
    | none => (step? b).map (or a ·)
  | and a b =>
    match step? a with
    | some a' => some (and a' b)
    | none => (step? b).map (and a ·)
  | leaf _ => none

/-- The formula at which no rule applies any more, if it is reached in fewer than `n` steps. -/
def normalizeIn? : Nat → Formula → Option Formula
  | 0, _ => none
  | n + 1, f =>
    match step? f with
    | none => some f
    | some g => normalizeIn? n g

/-- A formula may double in size at every step, so its growth is cut off. -/
def normalize? (f : Formula) : Option Formula :=
  normalizeIn? 1000 f

def literals : Formula → List Literal
  | or a b => a.literals ++ b.literals
  | leaf i => [⟨i, false⟩]
  | not (leaf i) => [⟨i, true⟩]
  | _ => []

def clauses : Formula → List Clause
  | and a b => a.clauses ++ b.clauses
  | f => [f.literals]

end Formula

end Provenance.Guard
