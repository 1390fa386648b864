import Provenance.Prepare.Node
import Provenance.Proofs.Prepare.Replaces

/-!
# The rules for arithmetic keep the value

Whole numbers wrap, so numbers can be regrouped at will; the difference of lists
is the one result of these operators that is no number.
-/

namespace Provenance.Prepare

open Eval
open Provenance.Expr (int)

variable {Γ : VarId → Prop}

/-! ## Numbers -/

def isArithmetic : Operator → Bool
  | .add | .sub | .mul | .div | .mod => true
  | _ => false

theorem needsBoth_of_isArithmetic {o : Operator} (h : isArithmetic o = true) : needsBoth o = true := by
  cases o <;> first | rfl | cases h

theorem joinsValues_of_isArithmetic {o : Operator} (h : isArithmetic o = true) : joinsValues o = true := by
  cases o <;> first | rfl | cases h

theorem binary_of_isArithmetic {o : Operator} (h : isArithmetic o = true) (engine : Glob.Engine) (a b : Value) :
    Operate.binary engine o a b = Operate.arithmetic o a b := by
  cases o <;> first | rfl | cases h

section
variable {c : Setting} {σ : Scope (Option Value)} {n : Nat} {o : Operator} {l r e' : Expr} {span : Option Span}
  {w : Value} {i j k : Int64} (hσ : OnPlain Γ σ) (ho : isArithmetic o = true) (hl : Tidy Γ l) (hr : Tidy Γ r)

theorem tidy_arithmetic (ho : isArithmetic o = true) (hl : Tidy Γ l) (hr : Tidy Γ r) :
    Tidy Γ (.op o l (some r) span) :=
  .binary (joinsValues_of_isArithmetic ho) hl hr

include hσ ho hl hr

theorem computes_arithmetic :
    Computes c σ (n + 1) (.op o l (some r) span) (.int k) ↔
      ∃ i j, Computes c σ n l (.int i) ∧ Computes c σ n r (.int j) ∧ Operate.onInts o i j = .ok k := by
  rw [computes_both hσ hl hr (needsBoth_of_isArithmetic ho)]
  simp only [binary_of_isArithmetic ho]
  constructor
  · intro h
    obtain ⟨a, b, ha, hb, hk⟩ := h
    rcases Operate.arithmetic_eq_ok (hl.isPlain hσ ha) (hr.isPlain hσ hb) hk with
      ⟨i, j, k', rfl, rfl, hk, hij⟩ | ⟨-, s, x, t, y, z, -, -, hz, -⟩
    · cases hk
      exact ⟨i, j, ha, hb, hij⟩
    · cases hz
  · intro h
    obtain ⟨i, j, hi, hj, hk⟩ := h
    exact ⟨.int i, .int j, hi, hj, by simp [Operate.arithmetic, hk, Except.map]⟩

/-- Only the difference of lists is no whole number. -/
theorem exists_int_of_computes (hside : o ≠ .sub ∨ (∃ i, l = int i) ∨ ∃ i, r = int i)
    (hw : Computes c σ (n + 1) (.op o l (some r) span) w) : ∃ k, w = .int k := by
  obtain ⟨a, b, ha, hb, hw⟩ := (computes_both hσ hl hr (needsBoth_of_isArithmetic ho)).mp hw
  rw [binary_of_isArithmetic ho] at hw
  rcases Operate.arithmetic_eq_ok (hl.isPlain hσ ha) (hr.isPlain hσ hb) hw with
    ⟨-, -, k, -, -, rfl, -⟩ | ⟨hsub, s, x, t, y, z, rfl, rfl, -, -⟩
  · exact ⟨k, rfl⟩
  · rcases hside with hne | ⟨i, rfl⟩ | ⟨i, rfl⟩
    · exact absurd hsub hne
    · cases eq_of_computes_int ha
    · cases eq_of_computes_int hb

end

section
variable {o : Operator} {l r e : Expr} {span : Option Span}

/-- Whatever has the number that the operator makes of the numbers of its operands. -/
theorem replaces_of_ints {e' : Expr} (ho : isArithmetic o = true) (hl : Tidy Γ l) (hr : Tidy Γ r)
    (hside : o ≠ .sub ∨ (∃ i, l = int i) ∨ ∃ i, r = int i) (he' : Tidy Γ e')
    (h : ∀ {c σ n i j k}, OnPlain Γ σ → Computes c σ n l (.int i) → Computes c σ n r (.int j) →
      Operate.onInts o i j = .ok k → Computes c σ (n + 1) e' (.int k)) : Replaces Γ (.op o l (some r) span) e' := by
  refine .of_succ he' fun hσ hw => ?_
  obtain ⟨k, rfl⟩ := exists_int_of_computes hσ ho hl hr hside hw
  obtain ⟨i, j, hi, hj, hk⟩ := (computes_arithmetic hσ ho hl hr).mp hw
  exact h hσ hi hj hk

theorem computes_neg {c : Setting} {σ : Scope (Option Value)} {n : Nat} {w : Value} (hσ : OnPlain Γ σ)
    (he : Tidy Γ e) :
    Computes c σ (n + 1) (.op .neg e none span) w ↔ ∃ i, Computes c σ n e (.int i) ∧ w = .int (-i) := by
  rw [computes_unary hσ he rfl]
  constructor
  · intro h
    obtain ⟨a, ha, hw⟩ := h
    cases a with
    | int i =>
      cases hw
      exact ⟨i, ha, rfl⟩
    | float x => exact absurd (he.isPlain hσ ha) Operate.not_isPlain_float
    | _ => cases hw
  · intro h
    obtain ⟨i, hi, rfl⟩ := h
    exact ⟨.int i, hi, rfl⟩

theorem replaces_simplifyNeg (he : Tidy Γ e) : Replaces Γ (.op .neg e none span) (simplifyNeg e span) := by
  unfold simplifyNeg
  split
  · cases he with
    | unary _ hinner =>
      refine .of_succ hinner fun hσ hw => ?_
      obtain ⟨i, hi, rfl⟩ := (computes_neg hσ (.unary rfl hinner)).mp hw
      obtain ⟨m, rfl⟩ := hi.exists_succ
      obtain ⟨j, hj, hij⟩ := (computes_neg hσ hinner).mp hi
      cases hij
      rw [Int64.neg_neg]
      exact hinner.lift (hinner.lift hj)
    | binary ho => cases ho
  · cases he with
    | @binary _ _ left right _ _ hl hr =>
      refine .of_succ (tidy_arithmetic rfl hr hl) fun hσ hw => ?_
      obtain ⟨k, hk, rfl⟩ := (computes_neg hσ (tidy_arithmetic rfl hl hr)).mp hw
      obtain ⟨m, rfl⟩ := hk.exists_succ
      obtain ⟨i, j, hi, hj, hij⟩ := (computes_arithmetic hσ rfl hl hr).mp hk
      refine (tidy_arithmetic rfl hr hl).lift ((computes_arithmetic hσ rfl hr hl).mpr ⟨j, i, hj, hi, ?_⟩)
      cases hij
      rw [Operate.onInts, Int64.neg_sub]
  · rename_i i
    refine .of_succ tidy_int fun hσ hw => ?_
    obtain ⟨j, hj, rfl⟩ := (computes_neg hσ he).mp hw
    cases eq_of_computes_int hj
    exact computes_int.mpr rfl
  · exact absurd (isPlain_of_tidy he) Operate.not_isPlain_float
  · exact .refl (.unary rfl he)

theorem replaces_subOf {b : Int64} (hl : Tidy Γ l) :
    Replaces Γ (.op .sub l (some (int b)) span) (subOf l b span) := by
  unfold subOf
  split
  · subst b
    refine replaces_of_ints rfl hl tidy_int (Or.inr (Or.inr ⟨0, rfl⟩)) hl fun hσ hi hj hk => ?_
    cases eq_of_computes_int hj
    cases hk
    rw [Int64.sub_zero]
    exact hl.lift hi
  · exact .refl (tidy_arithmetic rfl hl tidy_int)

theorem replaces_subFrom {a : Int64} (hr : Tidy Γ r) :
    Replaces Γ (.op .sub (int a) (some r) span) (subFrom a r span) := by
  have hside : Operator.sub ≠ .sub ∨ (∃ i, int a = int i) ∨ ∃ i, r = int i := Or.inr (Or.inl ⟨a, rfl⟩)
  unfold subFrom
  split
  · subst a
    have hneg : Tidy Γ (.op .neg r none span) := .unary rfl hr
    refine Replaces.trans ?_ (replaces_simplifyNeg hr)
    refine replaces_of_ints rfl tidy_int hr hside hneg fun hσ hi hj hk => ?_
    cases eq_of_computes_int hi
    cases hk
    rw [Int64.zero_sub]
    exact (computes_neg hσ hr).mpr ⟨_, hj, rfl⟩
  · split
    · rename_i b hb
      cases eq_int_of_int? hb
      refine replaces_of_ints rfl tidy_int tidy_int hside tidy_int fun hσ hi hj hk => ?_
      cases eq_of_computes_int hi
      cases eq_of_computes_int hj
      cases hk
      exact computes_int.mpr rfl
    · exact .refl (tidy_arithmetic rfl tidy_int hr)

end

/-! ## A number in front -/

theorem replaces_regrouped {o o' o'' : Operator} {a : Int64} {l r l' r' : Expr} {span span' : Option Span}
    (ho : isArithmetic o = true) (hne : o ≠ .sub) (ho' : isArithmetic o' = true) (ho'' : isArithmetic o'' = true)
    (hl : Tidy Γ l) (hr : Tidy Γ r) (hl' : Tidy Γ l') (hr' : Tidy Γ r')
    (h : ∀ {c σ n i j k m}, Computes c σ n l (.int i) → Computes c σ n r (.int j) → Operate.onInts o' i j = .ok k →
      Operate.onInts o a k = .ok m → ∃ i' j', Computes c σ (n + 1) l' (.int i') ∧ Computes c σ (n + 1) r' (.int j') ∧
        Operate.onInts o'' i' j' = .ok m) :
    Replaces Γ (.op o (int a) (some (.op o' l (some r) span')) span) (.op o'' l' (some r') span') := by
  refine replaces_of_ints ho tidy_int (tidy_arithmetic ho' hl hr) (Or.inl hne) (tidy_arithmetic ho'' hl' hr')
    fun hσ hi hk hm => ?_
  cases eq_of_computes_int hi
  obtain ⟨n, rfl⟩ := hk.exists_succ
  obtain ⟨i, j, hi, hj, hk⟩ := (computes_arithmetic hσ ho' hl hr).mp hk
  obtain ⟨i', j', hi', hj', hm⟩ := h hi hj hk hm
  exact (computes_arithmetic hσ ho'' hl' hr').mpr ⟨i', j', hi', hj', hm⟩

theorem tidy_operands {o : Operator} {l r : Expr} {span : Option Span} (h : Tidy Γ (.op o l (some r) span)) :
    Tidy Γ l ∧ Tidy Γ r := by
  cases h with
  | binary _ hl hr => exact ⟨hl, hr⟩

section
variable {l r : Expr} {span : Option Span}

theorem replaces_addTo {a : Int64} (hr : Tidy Γ r) :
    Replaces Γ (.op .add (int a) (some r) span) (addTo a r span) := by
  have hne : Operator.add ≠ .sub := by decide
  fun_induction addTo a r span with
  | case1 r span =>
    refine replaces_of_ints rfl tidy_int hr (Or.inl hne) hr fun hσ hi hj hk => ?_
    cases eq_of_computes_int hi
    cases hk
    rw [Int64.zero_add]
    exact hr.lift hj
  | case2 a span _ b =>
    refine replaces_of_ints rfl tidy_int tidy_int (Or.inl hne) tidy_int fun hσ hi hj hk => ?_
    cases eq_of_computes_int hi
    cases eq_of_computes_int hj
    cases hk
    exact computes_int.mpr rfl
  | case3 a span _ left inner span' b hb ih =>
    obtain ⟨hl, hinner⟩ := tidy_operands hr
    cases eq_int_of_int? hb
    refine Replaces.trans ?_ (ih hinner)
    refine replaces_regrouped rfl hne rfl rfl hl hinner tidy_int hinner fun {c σ n i j k m} hi hj hk hm => ?_
    cases eq_of_computes_int hi
    cases hk
    cases hm
    exact ⟨_, j, computes_int.mpr rfl, hinner.lift hj, by rw [Operate.onInts, Int64.add_assoc]⟩
  | case5 a span _ left inner span' b hb =>
    obtain ⟨hl, hinner⟩ := tidy_operands hr
    cases eq_int_of_int? hb
    refine Replaces.trans ?_ (replaces_subFrom hinner)
    refine replaces_regrouped rfl hne rfl rfl hl hinner tidy_int hinner fun {c σ n i j k m} hi hj hk hm => ?_
    cases eq_of_computes_int hi
    cases hk
    cases hm
    exact ⟨_, j, computes_int.mpr rfl, hinner.lift hj, by simp only [Operate.onInts, Except.ok.injEq]; grind⟩
  | case6 a span _ left inner span' b hb _ =>
    obtain ⟨hl, hinner⟩ := tidy_operands hr
    cases eq_int_of_int? hb
    refine Replaces.trans ?_ (replaces_subOf hl)
    refine replaces_regrouped rfl hne rfl rfl hl hinner hl tidy_int fun {c σ n i j k m} hi hj hk hm => ?_
    cases eq_of_computes_int hj
    cases hk
    cases hm
    exact ⟨i, _, hl.lift hi, computes_int.mpr rfl, by simp only [Operate.onInts, Except.ok.injEq]; grind⟩
  | case4 | case7 | case8 => exact .refl (tidy_arithmetic rfl tidy_int hr)

theorem replaces_mulBy {a : Int64} (hr : Tidy Γ r) :
    Replaces Γ (.op .mul (int a) (some r) span) (mulBy a r span) := by
  have hne : Operator.mul ≠ .sub := by decide
  fun_induction mulBy a r span with
  | case1 r span =>
    refine replaces_of_ints rfl tidy_int hr (Or.inl hne) tidy_int fun hσ hi hj hk => ?_
    cases eq_of_computes_int hi
    cases hk
    rw [Int64.zero_mul]
    exact computes_int.mpr rfl
  | case2 r span =>
    refine replaces_of_ints rfl tidy_int hr (Or.inl hne) hr fun hσ hi hj hk => ?_
    cases eq_of_computes_int hi
    cases hk
    rw [Int64.one_mul]
    exact hr.lift hj
  | case3 a span _ _ b =>
    refine replaces_of_ints rfl tidy_int tidy_int (Or.inl hne) tidy_int fun hσ hi hj hk => ?_
    cases eq_of_computes_int hi
    cases eq_of_computes_int hj
    cases hk
    exact computes_int.mpr rfl
  | case4 a span _ _ left inner span' b hb ih =>
    obtain ⟨hl, hinner⟩ := tidy_operands hr
    cases eq_int_of_int? hb
    refine Replaces.trans ?_ (ih hinner)
    refine replaces_regrouped rfl hne rfl rfl hl hinner tidy_int hinner fun {c σ n i j k m} hi hj hk hm => ?_
    cases eq_of_computes_int hi
    cases hk
    cases hm
    exact ⟨_, j, computes_int.mpr rfl, hinner.lift hj, by rw [Operate.onInts, Int64.mul_assoc]⟩
  | case5 | case6 => exact .refl (tidy_arithmetic rfl tidy_int hr)

theorem replaces_swapped {o : Operator} (ho : o = .add ∨ o = .mul) (hl : Tidy Γ l) (hr : Tidy Γ r) :
    Replaces Γ (.op o l (some r) span) (.op o r (some l) span) := by
  have hop : isArithmetic o = true := by rcases ho with rfl | rfl <;> rfl
  have hne : o ≠ .sub := by rcases ho with rfl | rfl <;> decide
  refine replaces_of_ints hop hl hr (Or.inl hne) (tidy_arithmetic hop hr hl) fun hσ hi hj hk => ?_
  refine (computes_arithmetic hσ hop hr hl).mpr ⟨_, _, hj, hi, ?_⟩
  rcases ho with rfl | rfl
  · rwa [Operate.onInts, Int64.add_comm]
  · rwa [Operate.onInts, Int64.mul_comm]

theorem replaces_simplifyAdd (hl : Tidy Γ l) (hr : Tidy Γ r) :
    Replaces Γ (.op .add l (some r) span) (simplifyAdd l r span) := by
  unfold simplifyAdd
  split
  · rename_i a ha
    cases eq_int_of_int? ha
    exact replaces_addTo hr
  · rename_i b _ hb
    cases eq_int_of_int? hb
    split
    · exact .refl (tidy_arithmetic rfl hl tidy_int)
    · exact (replaces_swapped (Or.inl rfl) hl tidy_int).trans (replaces_addTo hl)
  · split
    · exact replaces_swapped (Or.inl rfl) hl hr
    · exact .refl (tidy_arithmetic rfl hl hr)

theorem replaces_simplifySub (hl : Tidy Γ l) (hr : Tidy Γ r) :
    Replaces Γ (.op .sub l (some r) span) (simplifySub l r span) := by
  unfold simplifySub
  split
  · rename_i a ha
    cases eq_int_of_int? ha
    exact replaces_subFrom hr
  · rename_i b _ hb
    cases eq_int_of_int? hb
    exact replaces_subOf hl
  · exact .refl (tidy_arithmetic rfl hl hr)

theorem replaces_simplifyMul (hl : Tidy Γ l) (hr : Tidy Γ r) :
    Replaces Γ (.op .mul l (some r) span) (simplifyMul l r span) := by
  unfold simplifyMul
  split
  · rename_i a ha
    cases eq_int_of_int? ha
    exact replaces_mulBy hr
  · rename_i b _ hb
    cases eq_int_of_int? hb
    split
    · exact .refl (tidy_arithmetic rfl hl tidy_int)
    · exact (replaces_swapped (Or.inr rfl) hl tidy_int).trans (replaces_mulBy hl)
  · split
    · exact replaces_swapped (Or.inr rfl) hl hr
    · exact .refl (tidy_arithmetic rfl hl hr)

theorem onInts_zero {o : Operator} {j k : Int64} (ho : o = .div ∨ o = .mod) (h : Operate.onInts o 0 j = .ok k) :
    k = 0 := by
  rcases ho with rfl | rfl <;>
  · simp only [Operate.onInts] at h
    split at h <;> cases h
    simp

theorem replaces_simplifyDivision {o : Operator} {divide : Int64 → Int64 → Int64}
    (ho : o = .div ∧ divide = (· / ·) ∨ o = .mod ∧ divide = (· % ·)) (hl : Tidy Γ l) (hr : Tidy Γ r) :
    Replaces Γ (.op o l (some r) span) (simplifyDivision o divide l r span) := by
  have hop : isArithmetic o = true := by rcases ho with ⟨rfl, -⟩ | ⟨rfl, -⟩ <;> rfl
  have hne : o ≠ .sub := by rcases ho with ⟨rfl, -⟩ | ⟨rfl, -⟩ <;> decide
  have hself : Replaces Γ (.op o l (some r) span) (.op o l (some r) span) := .refl (tidy_arithmetic hop hl hr)
  have hzero : ∀ {a}, l = int a → a = 0 → Replaces Γ (.op o l (some r) span) (int 0) := by
    rintro _ rfl rfl
    refine replaces_of_ints hop tidy_int hr (Or.inl hne) tidy_int fun hσ hi hj hk => ?_
    cases eq_of_computes_int hi
    cases onInts_zero (ho.imp And.left And.left) hk
    exact computes_int.mpr rfl
  unfold simplifyDivision
  split
  · rename_i a ha _
    by_cases ha₀ : a = 0
    · rw [if_pos ha₀]
      exact hzero (eq_int_of_int? ha) ha₀
    · rw [if_neg ha₀]
      exact hself
  · rename_i a b ha hb
    by_cases ha₀ : a = 0
    · rw [if_pos ha₀]
      exact hzero (eq_int_of_int? ha) ha₀
    · by_cases hb₀ : b = 0
      · rw [if_neg ha₀, if_pos hb₀]
        exact hself
      · rw [if_neg ha₀, if_neg hb₀]
        cases eq_int_of_int? ha
        cases eq_int_of_int? hb
        refine replaces_of_ints hop tidy_int tidy_int (Or.inl hne) tidy_int fun hσ hi hj hk => ?_
        cases eq_of_computes_int hi
        cases eq_of_computes_int hj
        rcases ho with ⟨rfl, rfl⟩ | ⟨rfl, rfl⟩ <;>
        · rw [Operate.onInts, if_neg hb₀] at hk
          cases hk
          exact computes_int.mpr rfl
  · exact hself

end

end Provenance.Prepare
