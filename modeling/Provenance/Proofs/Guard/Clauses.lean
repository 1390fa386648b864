import Provenance.Proofs.Guard.NormalForm

/-!
# The clauses of a normal form

Where literals are collected, a conjunction and the negation of anything but a
leaf are passed over (`strays`). A normal form has none of these, so all of its
leaves are in its clauses, in their order and with their signs. If every leaf is
either true or false, the clauses hold exactly when the guard is true
(`clauses_of_normalize`).
-/

namespace Provenance.Guard

def Literal.holds (ν : Nat → Bool) (l : Literal) : Bool :=
  ν l.leaf != l.negated

namespace Formula

def holds (ν : Nat → Bool) : Formula → Bool
  | and a b => a.holds ν && b.holds ν
  | or a b => a.holds ν || b.holds ν
  | not a => !a.holds ν
  | leaf i => ν i

/-! ## Nothing is passed over -/

/-- The parts of a clause that `literals` comes to and leaves out. -/
def clauseStrays : Formula → List Formula
  | or a b => a.clauseStrays ++ b.clauseStrays
  | leaf _ => []
  | not (leaf _) => []
  | f => [f]

/-- The formulas that are left out when the clauses are collected. -/
def strays : Formula → List Formula
  | and a b => a.strays ++ b.strays
  | f => f.clauseStrays

/-- The leaves from left to right, with `negated` turned around by every negation above them. -/
def signedLeaves (negated : Bool) : Formula → List Literal
  | and a b => a.signedLeaves negated ++ b.signedLeaves negated
  | or a b => a.signedLeaves negated ++ b.signedLeaves negated
  | not a => a.signedLeaves (!negated)
  | leaf i => [⟨i, negated⟩]

theorem clauseStrays_eq_nil_iff (f : Formula) : f.clauseStrays = [] ↔ f.IsClause := by
  induction f with
  | and a b => simp [clauseStrays, IsClause]
  | or a b iha ihb => simp [clauseStrays, IsClause, iha, ihb]
  | not a =>
    -- Only the negation of a leaf is a literal.
    cases a <;> simp [clauseStrays, IsClause]
  | leaf i => simp [clauseStrays, IsClause]

theorem strays_eq_nil_iff (f : Formula) : f.strays = [] ↔ f.IsNormal := by
  induction f with
  | and a b iha ihb => simp [strays, IsNormal, iha, ihb]
  | _ => exact clauseStrays_eq_nil_iff _

theorem literals_of_isClause : ∀ {f : Formula}, f.IsClause → f.literals = f.signedLeaves false
  | or a b, h => by rw [literals, signedLeaves, literals_of_isClause h.1, literals_of_isClause h.2]
  | not (leaf _), _ => rfl
  | leaf _, _ => rfl

theorem flatten_clauses {f : Formula} (h : f.IsNormal) : f.clauses.flatten = f.signedLeaves false := by
  have hclause : ∀ {f : Formula}, f.IsClause → [f.literals].flatten = f.signedLeaves false := by
    intro f hf
    rw [List.flatten_singleton, literals_of_isClause hf]
  induction f with
  | and a b iha ihb => rw [clauses, List.flatten_append, iha h.1, ihb h.2, signedLeaves]
  | _ => exact hclause h

/-! ## Leaves with two values -/

section
variable (ν : Nat → Bool)

/-- Without missing values the strong reading is the only one. -/
theorem strong_total (f : Formula) : f.strong (fun i => some (ν i)) = some (f.holds ν) := by
  induction f with
  | and a b iha ihb =>
    rw [strong, iha, ihb, holds]
    cases a.holds ν <;> cases b.holds ν <;> rfl
  | or a b iha ihb =>
    rw [strong, iha, ihb, holds]
    cases a.holds ν <;> cases b.holds ν <;> rfl
  | not a ih => rw [strong, ih, holds, Option.map_some]
  | leaf i => rfl

theorem value_total (l : Literal) : l.value (fun i => some (ν i)) = some (l.holds ν) := by
  unfold Literal.value Literal.holds
  cases l.negated <;> simp

end

/-- A normal form is a conjunction of disjunctions of leaves and negated leaves, none of which is missing
from its clauses; and a guard is true exactly when each clause of its normal form has a true literal. -/
theorem clauses_of_normalize {f g : Formula} (h : f.normalize? = some g) :
    g.IsNormal ∧ g.strays = [] ∧ g.clauses.flatten = g.signedLeaves false ∧
      ∀ ν, f.holds ν = true ↔ ∀ c ∈ g.clauses, ∃ l ∈ c, l.holds ν = true := by
  have hnormal := isNormal_of_normalize h
  refine ⟨hnormal, (strays_eq_nil_iff g).mpr hnormal, flatten_clauses hnormal, fun ν => ?_⟩
  have hhold := clausesHold_normalize (fun i => some (ν i)) h
  simp only [ClausesHold, value_total, strong_total, Option.some.injEq] at hhold
  exact hhold.symm

/-- The guard `(p && q) || !(r && !s)`, with its leaves numbered from left to right. -/
def implied : Formula :=
  or (and (leaf 0) (leaf 1)) (not (and (leaf 2) (not (leaf 3))))

def impliedNormal : Formula :=
  and (or (leaf 0) (or (not (leaf 2)) (leaf 3))) (or (leaf 1) (or (not (leaf 2)) (leaf 3)))

theorem clauses_of_normalize_implied :
    implied.normalize? = some impliedNormal ∧ impliedNormal.IsNormal ∧ impliedNormal.strays = [] ∧
      impliedNormal.signedLeaves false =
        [⟨0, false⟩, ⟨2, true⟩, ⟨3, false⟩, ⟨1, false⟩, ⟨2, true⟩, ⟨3, false⟩] ∧
      ∀ ν, implied.holds ν = true ↔ ∀ c ∈ impliedNormal.clauses, ∃ l ∈ c, l.holds ν = true := by
  have h : implied.normalize? = some impliedNormal := by decide
  obtain ⟨hnormal, hstrays, hleaves, htruth⟩ := clauses_of_normalize h
  exact ⟨h, hnormal, hstrays, hleaves.symm.trans rfl, htruth⟩

end Formula

end Provenance.Guard
