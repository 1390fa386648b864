import Mathlib.Tactic.Choose
import Provenance.Proofs.Eval.Gives
import Provenance.Proofs.Guard.NormalForm

/-!
# What evaluation finds a guard to be

A guard is evaluated from the left and no further than needed, each leaf with
the levels that are left where it stands. The outcome is nonetheless the value
of its formula under one assignment, which tells of each leaf what it gives with
any number of levels (`value_build`).
-/

namespace Provenance.Guard

open Eval
open Provenance.Expr (Inert)

variable {c : Setting} {σ : Scope (Option Value)}

/-- The assignment tells what the leaves give. -/
def IsReading (c : Setting) (σ : Scope (Option Value)) (leaves : Array Expr) (ν : Assignment) : Prop :=
  ∀ i e, leaves[i]? = some e → ∀ b, ν i = some b ↔ ∃ n w, Gives false c σ n e (some w) ∧ w.isTrue = b

theorem exists_isReading {leaves : Array Expr} (h : ∀ e ∈ leaves, Inert e) : ∃ ν, IsReading c σ leaves ν := by
  have hleaf : ∀ i : Nat, ∃ o : Option Bool, ∀ e, leaves[i]? = some e → ∀ b,
      o = some b ↔ ∃ n w, Gives false c σ n e (some w) ∧ w.isTrue = b := by
    intro i
    by_cases hex : ∃ e n w, leaves[i]? = some e ∧ Gives false c σ n e (some w)
    · obtain ⟨e, n, w, he, hw⟩ := hex
      refine ⟨some w.isTrue, fun e' he' b => ?_⟩
      obtain rfl : e = e' := Option.some.inj (he.symm.trans he')
      refine ⟨fun hb => ⟨n, w, hw, Option.some.inj hb⟩, ?_⟩
      intro h
      obtain ⟨m, w', hw', rfl⟩ := h
      have hi := h e (Array.mem_of_getElem? he)
      have heq := (hw.mono hi (Nat.le_max_left n m)).unique (hw'.mono hi (Nat.le_max_right n m)) hi
      rw [Option.some.inj heq]
    · refine ⟨none, fun e he b => ⟨fun hb => (by cases hb), ?_⟩⟩
      intro h
      obtain ⟨n, w, hw, -⟩ := h
      exact absurd ⟨e, n, w, he, hw⟩ hex
  choose ν hν using hleaf
  exact ⟨ν, hν⟩

theorem IsReading.eq_map {leaves : Array Expr} {ν : Assignment} (hν : IsReading c σ leaves ν) {i n : Nat} {e : Expr}
    {v : Option Value} (he : leaves[i]? = some e) (hi : Inert e) (hv : Gives false c σ n e v) :
    ν i = v.map Value.isTrue := by
  cases v with
  | some w => exact (hν i e he _).mpr ⟨n, w, hv, rfl⟩
  | none =>
    cases hb : ν i with
    | none => rfl
    | some b =>
      obtain ⟨m, w, hw, -⟩ := (hν i e he b).mp hb
      cases (hv.mono hi (Nat.le_max_left n m)).unique (hw.mono hi (Nat.le_max_right n m)) hi

namespace Formula

theorem getElem?_build {i : Nat} {a : Expr} (leaves : Array Expr) (e : Expr) (h : leaves[i]? = some a) :
    (build leaves e).2[i]? = some a := by
  fun_induction build leaves e with
  | case1 leaves left right _ l r ihl ihr => exact ihr (ihl h)
  | case2 leaves left right _ l r ihl ihr => exact ihr (ihl h)
  | case3 leaves left _ l ih => exact ih h
  | case4 leaves e =>
    have hlt : i < leaves.size := (Array.getElem?_eq_some_iff.mp h).1
    rw [Array.getElem?_push_lt hlt, ← h, Array.getElem?_eq_getElem hlt]

theorem forall_mem_build {P : Expr → Prop} (hP : ∀ e, P e → ∀ x a, (x, a) ∈ e.parts → P a) (leaves : Array Expr)
    (e : Expr) (hl : ∀ a ∈ leaves, P a) (he : P e) : ∀ a ∈ (build leaves e).2, P a := by
  fun_induction build leaves e with
  | case1 leaves left right _ l r ihl ihr =>
    exact ihr (ihl hl (hP _ he none left Expr.left_mem_parts)) (hP _ he none right Expr.right_mem_parts)
  | case2 leaves left right _ l r ihl ihr =>
    exact ihr (ihl hl (hP _ he none left Expr.left_mem_parts)) (hP _ he none right Expr.right_mem_parts)
  | case3 leaves left _ l ih => exact ih hl (hP _ he none left Expr.left_mem_parts)
  | case4 leaves e =>
    intro a ha
    rcases Array.mem_push.mp ha with ha | rfl
    · exact hl a ha
    · exact he

theorem inert_of_mem_build (leaves : Array Expr) (e : Expr) (hl : ∀ a ∈ leaves, Inert a) (he : Inert e) :
    ∀ a ∈ (build leaves e).2, Inert a :=
  forall_mem_build (fun _ h _ _ ha => h.part ha) leaves e hl he

theorem map_isTrue_beq (a : Option Value) : (a.map Value.isTrue == some true) = truth a := by
  cases a with
  | none => rfl
  | some w => cases h : w.isTrue <;> simp [truth, h]

theorem value_build {A : Array Expr} {ν : Assignment} (hν : IsReading c σ A ν) (leaves : Array Expr) (e : Expr)
    (hA : ∀ (i : Nat) a, (build leaves e).2[i]? = some a → A[i]? = some a) (hi : Inert e) {n : Nat} {v : Option Value}
    (hv : Gives false c σ n e v) : (build leaves e).1.value ν = v.map Value.isTrue := by
  fun_induction build leaves e generalizing n v with
  | case1 leaves left right span l r ihl ihr =>
    obtain ⟨n, rfl⟩ := hv.exists_succ
    rw [gives_op hi] at hv
    obtain ⟨a, ha, hrest⟩ := (yields_connective (Steady.evaluateIn hi.left) (Steady.evaluateIn hi.right)).mp hv
    rw [value, ihl (fun i a h => hA i a (getElem?_build _ _ h)) hi.left ha, map_isTrue_beq]
    cases htruth : truth a with
    | true =>
      rw [if_pos htruth] at hrest
      obtain ⟨b, hb, rfl⟩ := hrest
      rw [ihr hA hi.right hb, map_isTrue_beq, Bool.true_and, Option.map_some, Value.isTrue_ofBool]
    | false =>
      rw [if_neg (by simp [htruth])] at hrest
      rw [hrest, htruth, Bool.false_and, Option.map_some, Value.isTrue_ofBool]
  | case2 leaves left right span l r ihl ihr =>
    obtain ⟨n, rfl⟩ := hv.exists_succ
    rw [gives_op hi] at hv
    obtain ⟨a, ha, hrest⟩ := (yields_connective (Steady.evaluateIn hi.left) (Steady.evaluateIn hi.right)).mp hv
    rw [value, ihl (fun i a h => hA i a (getElem?_build _ _ h)) hi.left ha, map_isTrue_beq]
    cases htruth : truth a with
    | true =>
      rw [if_neg (by simp [htruth])] at hrest
      rw [hrest, htruth, Bool.true_or, Option.map_some, Value.isTrue_ofBool]
    | false =>
      rw [if_pos htruth] at hrest
      obtain ⟨b, hb, rfl⟩ := hrest
      rw [ihr hA hi.right hb, map_isTrue_beq, Bool.false_or, Option.map_some, Value.isTrue_ofBool]
  | case3 leaves left span l ih =>
    obtain ⟨n, rfl⟩ := hv.exists_succ
    rw [gives_op hi, operation_of_isStrict _ rfl, yields_strict_unary (Steady.evaluateIn hi.left)] at hv
    rcases hv with ⟨ha, rfl⟩ | ⟨a, ha, hv⟩
    · rw [value, ih hA hi.left ha, Option.map_none, Option.map_none]
    · rw [value, ih hA hi.left ha, Option.map_some, Option.map_some, yields_pure.mp hv, Option.map_some,
        Value.isTrue_ofBool]
  | case4 leaves e =>
    rw [value]
    exact hν.eq_map (hA _ _ Array.getElem?_push_size) hi hv

end Formula

end Provenance.Guard
