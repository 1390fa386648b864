import Mathlib.Tactic.Linarith
import Mathlib.Tactic.Ring
import Provenance.Proofs.Guard.NormalForm

/-!
# Normalizing a guard comes to an end

A disjunction that moves below a conjunction copies one of its sides, with all
negations that are still to be moved there, so a step may make a formula larger
and deeper. What falls is the work that is left: how often a side will be copied
can be told beforehand, and its work counts as often (`work_step`). So every
formula has a normal form, which is reached unless the steps are limited to fewer
than it takes; and it takes many steps only for a large formula or to a large
normal form (`normalize_converges`).
-/

namespace Provenance.Guard.Formula

/-! ## The size of the normal form -/

/-- How many conjunctions there will be in the normal form of the formula, or of its negation. -/
def conjunctions : (negated : Bool) → Formula → Nat
  | false, and a b => a.conjunctions false + b.conjunctions false + 1
  | false, or a b =>
    a.conjunctions false * b.conjunctions false + a.conjunctions false + b.conjunctions false
  | true, and a b =>
    a.conjunctions true * b.conjunctions true + a.conjunctions true + b.conjunctions true
  | true, or a b => a.conjunctions true + b.conjunctions true + 1
  | negated, not a => a.conjunctions !negated
  | _, leaf _ => 0

theorem conjunctions_step {f g : Formula} (h : step? f = some g) :
    g.conjunctions false = f.conjunctions false := by
  fun_induction step? f generalizing g with
  | case1 a b => cases h; rfl
  | case2 a b => cases h; rfl
  | case3 a => cases h; rfl
  | case4 i => cases h
  | case5 a b c => cases h; simp only [conjunctions]; ring
  | case6 a b c => cases h; simp only [conjunctions]; ring
  | case7 a b _ _ a' ha ih => cases h; simp only [conjunctions, ih ha]
  | case8 a b _ _ _ _ ih =>
    obtain ⟨b', hb, rfl⟩ := Option.map_eq_some_iff.mp h
    simp only [conjunctions, ih hb]
  | case9 a b a' ha ih => cases h; simp only [conjunctions, ih ha]
  | case10 a b _ _ ih =>
    obtain ⟨b', hb, rfl⟩ := Option.map_eq_some_iff.mp h
    simp only [conjunctions, ih hb]
  | case11 i => cases h

theorem conjunctions_of_isClause : ∀ {f : Formula}, f.IsClause → f.conjunctions false = 0
  | or a b, h => by
    rw [conjunctions, conjunctions_of_isClause h.1, conjunctions_of_isClause h.2]
  | leaf _, _ => rfl
  | not (leaf _), _ => rfl

theorem length_clauses : ∀ {f : Formula}, f.IsNormal → f.clauses.length = f.conjunctions false + 1
  | and a b, h => by
    rw [clauses, List.length_append, length_clauses h.1, length_clauses h.2, conjunctions]
    omega
  | or a b, h => by rw [conjunctions_of_isClause (f := or a b) h]; rfl
  | not a, h => by rw [conjunctions_of_isClause (f := not a) h]; rfl
  | leaf i, _ => rfl

/-! ## The work that is left -/

/-- At least as many steps as it takes from the formula, or from its negation, to the normal form. A side of
a disjunction is copied for every conjunction of the other side. -/
def work : (negated : Bool) → Formula → Nat
  | false, and a b => a.work false + b.work false
  | false, or a b =>
    a.work false * (b.conjunctions false + 1) + (a.conjunctions false + 1) * b.work false +
      (or a b).conjunctions false
  | true, and a b =>
    a.work true * (b.conjunctions true + 1) + (a.conjunctions true + 1) * b.work true +
      (and a b).conjunctions true + 1
  | true, or a b => a.work true + b.work true + 1
  | false, not a => a.work true
  | true, not a => a.work false + 1
  | _, leaf _ => 0

theorem work_or_left {a a' : Formula} (b : Formula) (hc : a'.conjunctions false = a.conjunctions false)
    (hw : a'.work false < a.work false) : (or a' b).work false < (or a b).work false := by
  have hcopies : a'.work false * (b.conjunctions false + 1) < a.work false * (b.conjunctions false + 1) :=
    Nat.mul_lt_mul_of_pos_right hw (Nat.succ_pos _)
  simp only [work, conjunctions, hc]
  omega

theorem work_or_right (a : Formula) {b b' : Formula} (hc : b'.conjunctions false = b.conjunctions false)
    (hw : b'.work false < b.work false) : (or a b').work false < (or a b).work false := by
  have hcopies : (a.conjunctions false + 1) * b'.work false < (a.conjunctions false + 1) * b.work false :=
    Nat.mul_lt_mul_of_pos_left hw (Nat.succ_pos _)
  simp only [work, conjunctions, hc]
  omega

theorem work_step {f g : Formula} (h : step? f = some g) : g.work false < f.work false := by
  fun_induction step? f generalizing g with
  | case1 a b => cases h; simp only [work]; omega
  | case2 a b => cases h; simp only [work, conjunctions, Bool.not_false]; omega
  | case3 a => cases h; simp only [work]; omega
  | case4 i => cases h
  | case5 a b c => cases h; simp only [work, conjunctions]; linarith
  | case6 a b c => cases h; simp only [work, conjunctions]; linarith
  | case7 a b _ _ a' ha ih => cases h; exact work_or_left b (conjunctions_step ha) (ih ha)
  | case8 a b _ _ _ _ ih =>
    obtain ⟨b', hb, rfl⟩ := Option.map_eq_some_iff.mp h
    exact work_or_right a (conjunctions_step hb) (ih hb)
  | case9 a b a' ha ih => cases h; exact Nat.add_lt_add_right (ih ha) _
  | case10 a b _ _ ih =>
    obtain ⟨b', hb, rfl⟩ := Option.map_eq_some_iff.mp h
    exact Nat.add_lt_add_left (ih hb) _
  | case11 i => cases h

/-- How many connectives there are in the formula, negations included. -/
def connectives : Formula → Nat
  | and a b => a.connectives + b.connectives + 1
  | or a b => a.connectives + b.connectives + 1
  | not a => a.connectives + 1
  | leaf _ => 0

/-- No connective takes part in more steps than there are clauses in the end. -/
theorem work_le : ∀ (negated : Bool) (f : Formula),
    f.work negated ≤ (f.conjunctions negated + 1) * f.connectives
  | false, and a b => by
    have ha := work_le false a
    have hb := work_le false b
    simp only [work, conjunctions, connectives]
    nlinarith
  | false, or a b => by
    have ha := Nat.mul_le_mul_right (b.conjunctions false + 1) (work_le false a)
    have hb := Nat.mul_le_mul_left (a.conjunctions false + 1) (work_le false b)
    simp only [work, conjunctions, connectives]
    linarith
  | true, and a b => by
    have ha := Nat.mul_le_mul_right (b.conjunctions true + 1) (work_le true a)
    have hb := Nat.mul_le_mul_left (a.conjunctions true + 1) (work_le true b)
    simp only [work, conjunctions, connectives]
    linarith
  | true, or a b => by
    have ha := work_le true a
    have hb := work_le true b
    simp only [work, conjunctions, connectives]
    nlinarith
  | false, not a => by
    have ha := work_le true a
    simp only [work, conjunctions, connectives, Bool.not_false]
    linarith
  | true, not a => by
    have ha := work_le false a
    simp only [work, conjunctions, connectives, Bool.not_true]
    linarith
  | false, leaf _ | true, leaf _ => Nat.zero_le _

/-! ## Step by step -/

/-- The formula that so many steps lead to. -/
def after? : Nat → Formula → Option Formula
  | 0, f => some f
  | n + 1, f => (step? f).bind (after? n)

theorem conjunctions_after {g : Formula} : ∀ {k : Nat} {f : Formula}, after? k f = some g →
    g.conjunctions false = f.conjunctions false
  | 0, f, h => by cases h; rfl
  | k + 1, f, h => by
    obtain ⟨f', hf, h⟩ := Option.bind_eq_some_iff.mp h
    exact (conjunctions_after h).trans (conjunctions_step hf)

theorem exists_after (f : Formula) : ∃ k g, after? k f = some g ∧ step? g = none ∧ k ≤ f.work false := by
  cases hf : step? f with
  | none => exact ⟨0, f, rfl, hf, Nat.zero_le _⟩
  | some f' =>
    have hlt := work_step hf
    obtain ⟨k, g, hk, hg, hle⟩ := exists_after f'
    refine ⟨k + 1, g, ?_, hg, by omega⟩
    rw [after?, hf, Option.bind_some, hk]
termination_by f.work false

theorem normalizeIn_eq {g : Formula} (hg : step? g = none) : ∀ {k : Nat} {f : Formula}, after? k f = some g →
    ∀ n, normalizeIn? n f = if k < n then some g else none
  | k, f, _, 0 => by rw [if_neg (Nat.not_lt_zero k)]; rfl
  | 0, f, h, n + 1 => by
    cases h
    rw [normalizeIn?, hg, if_pos (Nat.succ_pos n)]
  | k + 1, f, h, n + 1 => by
    obtain ⟨f', hf, h⟩ := Option.bind_eq_some_iff.mp h
    rw [normalizeIn?, hf]
    simp only [normalizeIn_eq hg h n, Nat.add_lt_add_iff_right]

/-- From every formula a number of steps leads to one at which no rule applies. A limit on the steps only says
whether that one is reached, and the limit that there is stops none but a formula whose connectives, each taken as
often as there are clauses in the end, are as many as the limit. -/
theorem normalize_converges (f : Formula) : ∃ k g, after? k f = some g ∧ step? g = none ∧
    (∀ n, normalizeIn? n f = if k < n then some g else none) ∧
      k ≤ g.clauses.length * f.connectives ∧
        (f.normalize? = none → 1000 ≤ g.clauses.length * f.connectives) := by
  obtain ⟨k, g, hk, hg, hle⟩ := exists_after f
  have hlimit := normalizeIn_eq hg hk
  have hbound : k ≤ g.clauses.length * f.connectives := by
    rw [length_clauses (isNormal_of_step_none hg), conjunctions_after hk]
    exact hle.trans (work_le false f)
  refine ⟨k, g, hk, hg, hlimit, hbound, fun hnone => ?_⟩
  rw [normalize?, hlimit] at hnone
  have hlate : ¬ k < 1000 := fun h => by
    rw [if_pos h] at hnone
    cases hnone
  omega

end Provenance.Guard.Formula
