import Provenance.Proofs.Prepare.LetCount

/-!
# Properties the rules pass on

What a rule makes of an operator is a number or a text, an operand, an operand of
an operand, or an operator applied to such. A property that numbers and texts
have, and that goes up and down with the operators concerned, is therefore passed
on by every rule for operators. What comes out of a loop, a condition, a tuple or
a binding is one of its parts, or the node with the parts as they have become.
-/

namespace Provenance.Prepare

open Provenance.Expr (int ofBool)

/-- The operators whose operands the rules take apart. -/
def isRegrouped (o : Operator) : Bool :=
  o == .add || o == .sub || o == .mul || o == .neg || o == .logNot

/-- The literals that the rules for operators make. -/
def isSimple : Value → Bool
  | .int _ | .float _ | .str _ => true
  | _ => false

theorem simplifyOp_of_isJoin {o : Operator} {l r : Expr} {span : Option Span} (ho : o.isJoin = true) :
    simplifyOp o (some l) (some r) span = some (.op o l (some r) span) := by
  cases o <;> first | rfl | cases ho

structure RuleClosed (P : Expr → Prop) : Prop where
  val : ∀ {v}, isSimple v = true → P (.val v)
  unary : ∀ {o e span}, o.isUnary = true → P e → P (.op o e none span)
  binary : ∀ {o l r span}, o.isUnary = false → o.isJoin = false → P l → P r → P (.op o l (some r) span)
  left : ∀ {o l r span}, isRegrouped o = true → P (.op o l r span) → P l
  right : ∀ {o l r span}, isRegrouped o = true → P (.op o l (some r) span) → P r

namespace RuleClosed

variable {P : Expr → Prop} {l r e : Expr} {o : Operator} {span : Option Span}

theorem int (h : RuleClosed P) (a : Int64) : P (int a) :=
  h.val rfl

theorem ofBool (h : RuleClosed P) (b : Bool) : P (ofBool b) :=
  h.val rfl

/-! ## Truth -/

theorem rightSide (h : RuleClosed P) (ho : o = .logAnd ∨ o = .logOr) (hl : P l) (hr : P r) :
    P (rightSide o l r span) := by
  have hself : P (.op o l (some r) span) := by
    rcases ho with rfl | rfl <;> exact h.binary rfl rfl hl hr
  unfold Prepare.rightSide
  split
  · exact h.ofBool _
  · exact hr
  · exact hr
  · exact hself

theorem simplifyAnd (h : RuleClosed P) {l r : Option Expr} (hl : ∀ a ∈ l, P a) (hr : ∀ a ∈ r, P a) :
    P (simplifyAnd l r span) := by
  unfold Prepare.simplifyAnd
  split
  · have hl := hl _ rfl
    have hr := hr _ rfl
    split
    · exact h.rightSide (Or.inl rfl) hl hr
    · split
      · exact h.int 0
      · exact h.binary rfl rfl hl hr
  · exact h.int 0

theorem simplifyOr (h : RuleClosed P) {l r : Option Expr} (hl : ∀ a ∈ l, P a) (hr : ∀ a ∈ r, P a) :
    P (simplifyOr l r span) := by
  unfold Prepare.simplifyOr
  split
  · exact h.int 0
  · exact h.rightSide (Or.inr rfl) (h.int 0) (hr _ rfl)
  · split
    · exact h.int 1
    · split
      · exact h.int 0
      · exact h.binary rfl rfl (hl _ rfl) (h.int 0)
  · have hl := hl _ rfl
    have hr := hr _ rfl
    split
    · exact h.int 1
    · split
      · exact h.rightSide (Or.inr rfl) hl hr
      · exact h.binary rfl rfl hl hr

theorem simplifyNot (h : RuleClosed P) (he : P e) : P (simplifyNot e span) := by
  unfold Prepare.simplifyNot
  split
  · split
    · exact h.left rfl he
    · exact h.unary rfl he
  · exact h.ofBool _
  · exact h.unary rfl he

/-! ## Arithmetic -/

theorem simplifyNeg (h : RuleClosed P) (he : P e) : P (simplifyNeg e span) := by
  unfold Prepare.simplifyNeg
  split
  · exact h.left rfl he
  · exact h.binary rfl rfl (h.right rfl he) (h.left rfl he)
  · exact h.int _
  · exact h.val rfl
  · exact h.unary rfl he

theorem subFrom (h : RuleClosed P) {a : Int64} (hr : P r) : P (subFrom a r span) := by
  unfold Prepare.subFrom
  split
  · exact h.simplifyNeg hr
  · split
    · exact h.int _
    · exact h.binary rfl rfl (h.int a) hr

theorem subOf (h : RuleClosed P) {b : Int64} (hl : P l) : P (subOf l b span) := by
  unfold Prepare.subOf
  split
  · exact hl
  · exact h.binary rfl rfl hl (h.int b)

theorem addTo (h : RuleClosed P) {a : Int64} (hr : P r) : P (addTo a r span) := by
  fun_induction Prepare.addTo a r span with
  | case1 => exact hr
  | case2 => exact h.int _
  | case3 a span ha left inner span' b hb ih => exact ih (h.right rfl hr)
  | case5 a span ha left inner span' b hb => exact h.subFrom (h.right rfl hr)
  | case6 a span ha left inner span' b hinner hleft => exact h.subOf (h.left rfl hr)
  | _ => exact h.binary rfl rfl (h.int _) hr

theorem mulBy (h : RuleClosed P) {a : Int64} (hr : P r) : P (mulBy a r span) := by
  fun_induction Prepare.mulBy a r span with
  | case1 => exact h.int 0
  | case2 => exact hr
  | case3 => exact h.int _
  | case4 a span ha ha' left inner span' b hb ih => exact ih (h.right rfl hr)
  | _ => exact h.binary rfl rfl (h.int _) hr

theorem simplifyAdd (h : RuleClosed P) (hl : P l) (hr : P r) : P (simplifyAdd l r span) := by
  unfold Prepare.simplifyAdd
  split
  · exact h.addTo hr
  · split
    · exact h.binary rfl rfl hl hr
    · exact h.addTo hl
  · split
    · exact h.binary rfl rfl hr hl
    · exact h.binary rfl rfl hl hr

theorem simplifySub (h : RuleClosed P) (hl : P l) (hr : P r) : P (simplifySub l r span) := by
  unfold Prepare.simplifySub
  split
  · exact h.subFrom hr
  · exact h.subOf hl
  · exact h.binary rfl rfl hl hr

theorem simplifyMul (h : RuleClosed P) (hl : P l) (hr : P r) : P (simplifyMul l r span) := by
  unfold Prepare.simplifyMul
  split
  · exact h.mulBy hr
  · split
    · exact h.binary rfl rfl hl hr
    · exact h.mulBy hl
  · split
    · exact h.binary rfl rfl hr hl
    · exact h.binary rfl rfl hl hr

/-! ## Operators at large -/

/-- The other rules for two operands give a literal, one of them, or the operator with both. -/
theorem simplifyBinary (h : RuleClosed P) (ho : o.isUnary = false) (hjoin : o.isJoin = false) (hl : P l) (hr : P r) :
    P (simplifyBinary o l r span) := by
  have hself : P (.op o l (some r) span) := h.binary ho hjoin hl hr
  unfold Prepare.simplifyBinary
  split
  · unfold simplifyEq
    split
    · exact h.ofBool _
    · split
      · exact h.int 1
      · exact hself
    · exact hself
  · unfold simplifyNe
    split
    · exact h.ofBool _
    · exact hself
  iterate 4
    · unfold simplifyOrder
      split
      · exact h.ofBool _
      · exact hself
  · exact h.simplifyAdd hl hr
  · exact h.simplifySub hl hr
  · exact h.simplifyMul hl hr
  iterate 2
    · unfold simplifyDivision
      split
      · split
        · exact h.int 0
        · exact hself
      · split
        · exact h.int 0
        · split
          · exact hself
          · exact h.int _
      · exact hself
  · unfold simplifyConcat
    split
    · exact hr
    · split
      · exact hl
      · split
        · exact h.val rfl
        · exact hself
  · exact hself

theorem simplifyUnary (h : RuleClosed P) (ho : o.isUnary = true) (he : P e) : P (simplifyUnary o e span) := by
  unfold Prepare.simplifyUnary
  split
  · exact h.simplifyNot he
  · exact h.simplifyNeg he
  · exact h.unary ho he

theorem simplifyOp (h : RuleClosed P) (hjoin : o.isJoin = false) {l r : Option Expr} (hl : ∀ a ∈ l, P a)
    (hr : ∀ a ∈ r, P a) : ∀ t ∈ simplifyOp o l r span, P t := by
  intro t ht
  unfold Prepare.simplifyOp at ht
  split at ht
  · cases ht
    exact h.simplifyAnd hl hr
  · cases ht
    exact h.simplifyOr hl hr
  iterate 2
    split at ht
    · exact hr t ht
    · exact hl t ht
    · cases ht
      exact h.simplifyBinary rfl hjoin (hl _ rfl) (hr _ rfl)
  · by_cases hunary : o.isUnary = true
    · rw [if_pos hunary] at ht
      obtain ⟨a, ha, rfl⟩ := Option.map_eq_some_iff.mp ht
      exact h.simplifyUnary hunary (hl a ha)
    · rw [if_neg hunary] at ht
      split at ht <;> cases ht
      exact h.simplifyBinary (Bool.eq_false_iff.mpr hunary) hjoin (hl _ rfl) (hr _ rfl)

/-- A join of two operands stays as it is. -/
theorem simplifyOp_of_binary (h : RuleClosed P)
    (hbinary : ∀ {o l r span}, P l → P r → P (.op o l (some r) span)) {l r : Option Expr} (hl : ∀ a ∈ l, P a)
    (hr : ∀ a ∈ r, P a) : ∀ t ∈ Prepare.simplifyOp o l r span, P t := by
  by_cases hjoin : o.isJoin = true
  · intro t ht
    match l, r with
    | some l, some r =>
      rw [simplifyOp_of_isJoin hjoin] at ht
      cases ht
      exact hbinary (hl l rfl) (hr r rfl)
    | none, none | none, some _ | some _, none => cases o <;> cases hjoin <;> cases ht
  · exact h.simplifyOp (Bool.eq_false_iff.mpr hjoin) hl hr

end RuleClosed

/-! ## Loops, conditions, tuples and bindings -/

section
variable {t : Expr}

theorem mem_simplifyLoop {x : Var} {source guard body : Option Expr} (h : t ∈ simplifyLoop x source guard body) :
    t ∈ source ∨ ∃ s ∈ source, ∃ g ∈ guard, ∃ b ∈ body, t = .forIn x s g b := by
  match source, guard, body with
  | some s, some g, some b =>
    simp only [simplifyLoop] at h
    split at h
    · cases h
    · split at h <;> cases h
      · exact Or.inl rfl
      · exact Or.inr ⟨s, rfl, g, rfl, b, rfl, rfl⟩
  | none, _, _ | some _, none, _ | some _, some _, none => cases h

theorem mem_simplifyCond {test yes no : Option Expr} (h : t ∈ simplifyCond test yes no) :
    t ∈ yes ∨ t ∈ no ∨ ∃ e ∈ test, t = .cond e yes no := by
  cases test with
  | none => exact Or.inl h
  | some e =>
    simp only [simplifyCond] at h
    split at h
    · cases h
    · split at h
      · split at h
        · exact Or.inl h
        · exact Or.inr (Or.inl h)
      · cases h
        exact Or.inr (Or.inr ⟨e, rfl, rfl⟩)

theorem mem_simplifyTuple {fields : List (Option Expr)} (h : t ∈ simplifyTuple fields) :
    some t ∈ fields ∨ (∃ vs : List Value, (∀ v ∈ vs, some (.val v) ∈ fields) ∧ t = .val (.tuple vs)) ∨
      ∃ es : List Expr, (∀ e ∈ es, some e ∈ fields) ∧ t = .tuple (es.map some) := by
  have hmem : ∀ e ∈ fields.filterMap id, some e ∈ fields := by simp
  unfold simplifyTuple at h
  generalize fields.filterMap id = es at hmem h
  split at h
  · cases h
  · cases h
    exact Or.inl (hmem _ List.mem_cons_self)
  · split at h <;> cases h
    · refine Or.inr (Or.inl ⟨_, fun v hv => ?_, rfl⟩)
      obtain ⟨e, he, hv⟩ := List.mem_filterMap.mp hv
      cases eq_val_of_literal? hv
      exact hmem _ he
    · exact Or.inr (Or.inr ⟨_, hmem, rfl⟩)

/-- A binding goes if its variable is not mentioned, if it has no value, and if it is put in the place of the
variable. -/
theorem mem_simplifyLet {p : Pass} {x : Var} {bound guard body : Option Expr} (h : t ∈ simplifyLet p x bound guard body) :
    ∃ b ∈ body, (b.mentions x.id = false ∧ t = b) ∨ t ∈ p.eliminate x.id b ∨
      (∃ a ∈ bound, isAtom a = true ∧ t ∈ p.simplify (Expr.substitute x.id a b)) ∨ t ∈ bound ∨
      ∃ a ∈ bound, ∃ g ∈ guard, t = .letIn x a g b := by
  match body, guard with
  | some b, some g =>
    refine ⟨b, rfl, ?_⟩
    simp only [simplifyLet] at h
    split at h
    · obtain ⟨a, ha, rfl⟩ := Option.map_eq_some_iff.mp h
      exact Or.inr (Or.inr (Or.inr (Or.inr ⟨a, ha, g, rfl, rfl⟩)))
    · split at h
      · rename_i hmentions
        cases h
        exact Or.inl ⟨by simpa using hmentions, rfl⟩
      · split at h
        · exact Or.inr (Or.inl h)
        · rename_i a
          split at h
          · exact Or.inr (Or.inr (Or.inl ⟨a, rfl, ‹_›, h⟩))
          · split at h <;> cases h
            · exact Or.inr (Or.inr (Or.inr (Or.inl rfl)))
            · exact Or.inr (Or.inr (Or.inr (Or.inr ⟨a, rfl, g, rfl, rfl⟩)))
  | none, _ | some _, none => cases h

end

end Provenance.Prepare
