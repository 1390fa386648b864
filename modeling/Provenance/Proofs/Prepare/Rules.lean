import Provenance.Proofs.Prepare.Arithmetic

/-!
# The rules keep the value

Each rule for an operator, a condition or a tuple replaces the node by one that
says the same (`replaces_simplifyOp`, `replaces_simplifyCond` and
`replaces_simplifyTuple`).
-/

namespace Provenance.Prepare

open Eval
open Provenance.Expr (int ofBool)

variable {Γ : VarId → Prop} {l r e : Expr} {span : Option Span}

/-! ## Comparison and text -/

theorem Tidy.both {o : Operator} (ho : needsBoth o = true) (hl : Tidy Γ l) (hr : Tidy Γ r) :
    Tidy Γ (.op o l (some r) span) :=
  .binary (joinsValues_of_needsBoth ho) hl hr

theorem replaces_of_both {o : Operator} {e' : Expr} (ho : needsBoth o = true) (hl : Tidy Γ l) (hr : Tidy Γ r)
    (he' : Tidy Γ e') (h : ∀ {c σ n a b w}, OnPlain Γ σ → Computes c σ n l a → Computes c σ n r b →
      Operate.binary c.library.engine o a b = .ok w → Computes c σ (n + 1) e' w) : Replaces Γ (.op o l (some r) span) e' := by
  refine .of_succ he' fun hσ hw => ?_
  obtain ⟨a, b, ha, hb, hw⟩ := (computes_both hσ hl hr ho).mp hw
  exact h hσ ha hb hw

theorem replaces_literals {o : Operator} {a b w : Value} (ho : needsBoth o = true) (hl : Tidy Γ (.val a))
    (hr : Tidy Γ (.val b)) (h : ∀ engine, Operate.binary engine o a b = .ok w) :
    Replaces Γ (.op o (.val a) (some (.val b)) span) (.val w) := by
  have hw : w.isPlain = true :=
    Operate.isPlain_of_binary (isPlain_of_tidy hl) (isPlain_of_tidy hr) (h Library.standard.engine)
  refine replaces_of_both ho hl hr (.val hw) fun _ ha hb hu => ?_
  cases eq_of_computes_val hl ha
  cases eq_of_computes_val hr hb
  rw [h] at hu
  cases hu
  exact (computes_val hw).mpr rfl

theorem replaces_simplifyOrder {o : Operator} {holds : Int64 → Int64 → Bool} (ho : needsBoth o = true)
    (hholds : ∀ a b engine, Operate.binary engine o (.int a) (.int b) = .ok (.ofBool (holds a b))) (hl : Tidy Γ l)
    (hr : Tidy Γ r) :
    Replaces Γ (.op o l (some r) span) (simplifyOrder o holds l r span) := by
  unfold simplifyOrder
  split
  · rename_i a b ha hb
    cases eq_int_of_int? ha
    cases eq_int_of_int? hb
    exact replaces_literals ho hl hr (hholds a b)
  · exact .refl (.both ho hl hr)

theorem replaces_simplifyEq (hl : Tidy Γ l) (hr : Tidy Γ r) :
    Replaces Γ (.op .eq l (some r) span) (simplifyEq l r span) := by
  unfold simplifyEq
  split
  · exact replaces_literals rfl hl hr fun _ => rfl
  · rename_i x y
    split
    · subst y
      refine replaces_of_both rfl hl hr tidy_int fun hσ ha hb hw => ?_
      cases ha.unique hb hl.inert
      rw [Operate.binary, Value.equals_self (hl.isPlain hσ ha)] at hw
      cases hw
      exact computes_int.mpr rfl
    · exact .refl (.both rfl hl hr)
  · exact .refl (.both rfl hl hr)

theorem replaces_simplifyNe (hl : Tidy Γ l) (hr : Tidy Γ r) :
    Replaces Γ (.op .ne l (some r) span) (simplifyNe l r span) := by
  unfold simplifyNe
  split
  · exact replaces_literals rfl hl hr fun _ => rfl
  · exact .refl (.both rfl hl hr)

theorem eq_of_isEmptyText (h : isEmptyText e = true) : e = .val (.str "") := by
  unfold isEmptyText at h
  split at h
  · rw [eq_of_beq h]
  · cases h

theorem Operate.concat_empty_left {b w : Value} (h : Operate.concat (.str "") b = .ok w) : w = b := by
  cases b <;> cases h
  rw [String.empty_append]

theorem Operate.concat_empty_right {a w : Value} (h : Operate.concat a (.str "") = .ok w) : w = a := by
  cases a <;> cases h
  rw [String.append_empty]

theorem replaces_simplifyConcat (hl : Tidy Γ l) (hr : Tidy Γ r) :
    Replaces Γ (.op .concat l (some r) span) (simplifyConcat l r span) := by
  unfold simplifyConcat
  by_cases hleft : isEmptyText l = true
  · rw [if_pos hleft]
    refine replaces_of_both rfl hl hr hr fun _ ha hb hw => ?_
    cases eq_of_isEmptyText hleft
    cases eq_of_computes_val hl ha
    cases Operate.concat_empty_left hw
    exact hr.lift hb
  rw [if_neg hleft]
  by_cases hright : isEmptyText r = true
  · rw [if_pos hright]
    refine replaces_of_both rfl hl hr hl fun _ ha hb hw => ?_
    cases eq_of_isEmptyText hright
    cases eq_of_computes_val hr hb
    cases Operate.concat_empty_right hw
    exact hl.lift ha
  rw [if_neg hright]
  split
  · exact replaces_literals rfl hl hr fun _ => rfl
  · exact .refl (.both rfl hl hr)

/-! ## Truth -/

theorem exists_ofBool_of_computes (he : Tidy Γ e) (h : isTruthValue e = true) {c : Setting}
    {σ : Scope (Option Value)} {n : Nat} {w : Value} (hσ : OnPlain Γ σ) (hw : Computes c σ n e w) :
    ∃ t, w = .ofBool t := by
  obtain ⟨n, rfl⟩ := hw.exists_succ
  cases he with
  | @unary _ o e span ho he =>
    obtain ⟨a, -, hw⟩ := (computes_unary hσ he ho).mp hw
    have hnot : o = .logNot := by
      cases o <;> simp_all [isTruthValue, Operator.isUnary]
    subst hnot
    cases hw
    exact ⟨_, rfl⟩
  | @binary _ o l r span ho hl hr =>
    rcases needsBoth_or ho with hboth | ⟨goOn, hgo⟩
    · obtain ⟨a, b, -, -, hw⟩ := (computes_both hσ hl hr hboth).mp hw
      cases o with
      | eq | ne =>
        cases hw
        exact ⟨_, rfl⟩
      | like | lt | gt | contains | unlike | le | ge =>
        obtain ⟨t, -, rfl⟩ := Operate.exists_of_map_eq_ok hw
        exact ⟨_, rfl⟩
      | _ => simp [isTruthValue, needsBoth, joinsValues, Operator.isUnary] at h hboth
    · obtain ⟨a, -, hw⟩ := (computes_connective hσ hl hr hgo).mp hw
      split at hw
      · obtain ⟨b, -, rfl⟩ := hw
        exact ⟨_, rfl⟩
      · exact ⟨_, hw⟩
  | _ => cases h

theorem ofBool_isTrue_ofBool (t : Bool) : Value.ofBool (Value.ofBool t).isTrue = .ofBool t := by
  rw [Value.isTrue_ofBool]

/-- The left side decides the answer. -/
theorem replaces_leftSide {o : Operator} {goOn : Bool} {a : Value} (hl : Tidy Γ (.val a)) (hr : Tidy Γ r)
    (ho : Connects o goOn) (ha : a.isTrue = !goOn) : Replaces Γ (.op o (.val a) (some r) span) (ofBool !goOn) := by
  refine .of_succ tidy_ofBool fun hσ hw => ?_
  obtain ⟨b, hb, hw⟩ := (computes_connective hσ hl hr ho).mp hw
  cases eq_of_computes_val hl hb
  rw [if_neg (by simp [ha]), ha] at hw
  exact computes_ofBool.mpr hw

/-- The left side leaves the answer to the right side. -/
theorem replaces_rightSide {o : Operator} {goOn : Bool} {a : Value} (hself : Tidy Γ (.op o (.val a) (some r) span))
    (hl : Tidy Γ (.val a)) (hr : Tidy Γ r) (ho : Connects o goOn) (ha : a.isTrue = goOn) :
    Replaces Γ (.op o (.val a) (some r) span) (rightSide o (.val a) r span) := by
  have h : ∀ {c σ n w}, OnPlain Γ σ → Computes c σ (n + 1) (.op o (.val a) (some r) span) w →
      ∃ b, Computes c σ n r b ∧ w = .ofBool b.isTrue := by
    intro c σ n w hσ hw
    obtain ⟨b, hb, hw⟩ := (computes_connective hσ hl hr ho).mp hw
    cases eq_of_computes_val hl hb
    rwa [if_pos ha] at hw
  have htruth : isTruthValue r = true → Replaces Γ (.op o (.val a) (some r) span) r := by
    refine fun ht => .of_succ hr fun hσ hw => ?_
    obtain ⟨b, hb, rfl⟩ := h hσ hw
    obtain ⟨t, rfl⟩ := exists_ofBool_of_computes hr ht hσ hb
    rw [ofBool_isTrue_ofBool]
    exact hr.lift hb
  unfold rightSide
  split
  · refine .of_succ tidy_ofBool fun hσ hw => ?_
    obtain ⟨b, hb, rfl⟩ := h hσ hw
    cases eq_of_computes_val hr hb
    exact computes_ofBool.mpr rfl
  · exact htruth rfl
  · exact htruth rfl
  · exact .refl hself

theorem isTrueLiteral_iff : e.isTrueLiteral = true ↔ ∃ a, e = .val a ∧ a.isTrue = true := by
  cases e <;> simp [Expr.isTrueLiteral, Expr.literal?]

theorem isFalseLiteral_iff : e.isFalseLiteral = true ↔ ∃ a, e = .val a ∧ a.isTrue = false := by
  cases e <;> simp [Expr.isFalseLiteral, Expr.literal?]

theorem replaces_simplifyAnd (hl : Tidy Γ l) (hr : Tidy Γ r) :
    Replaces Γ (.op .logAnd l (some r) span) (simplifyAnd (some l) (some r) span) := by
  have hself : Tidy Γ (.op .logAnd l (some r) span) := .binary rfl hl hr
  have hand : Connects .logAnd true := Or.inl ⟨rfl, rfl⟩
  simp only [simplifyAnd]
  by_cases htrue : l.isTrueLiteral = true
  · rw [if_pos htrue]
    obtain ⟨a, rfl, ha⟩ := isTrueLiteral_iff.mp htrue
    exact replaces_rightSide hself hl hr hand ha
  rw [if_neg htrue]
  by_cases hfalse : l.isFalseLiteral = true
  · rw [if_pos hfalse]
    obtain ⟨a, rfl, ha⟩ := isFalseLiteral_iff.mp hfalse
    exact replaces_leftSide hl hr hand ha
  · rw [if_neg hfalse]
    exact .refl hself

theorem replaces_simplifyOr (hl : Tidy Γ l) (hr : Tidy Γ r) :
    Replaces Γ (.op .logOr l (some r) span) (simplifyOr (some l) (some r) span) := by
  have hself : Tidy Γ (.op .logOr l (some r) span) := .binary rfl hl hr
  have hor : Connects .logOr false := Or.inr ⟨rfl, rfl⟩
  simp only [simplifyOr]
  by_cases htrue : l.isTrueLiteral = true
  · rw [if_pos htrue]
    obtain ⟨a, rfl, ha⟩ := isTrueLiteral_iff.mp htrue
    exact replaces_leftSide hl hr hor ha
  rw [if_neg htrue]
  by_cases hfalse : l.isFalseLiteral = true
  · rw [if_pos hfalse]
    obtain ⟨a, rfl, ha⟩ := isFalseLiteral_iff.mp hfalse
    exact replaces_rightSide hself hl hr hor ha
  · rw [if_neg hfalse]
    exact .refl hself

theorem computes_not {c : Setting} {σ : Scope (Option Value)} {n : Nat} {w : Value} (hσ : OnPlain Γ σ)
    (he : Tidy Γ e) :
    Computes c σ (n + 1) (.op .logNot e none span) w ↔ ∃ a, Computes c σ n e a ∧ w = .ofBool !a.isTrue := by
  rw [computes_unary hσ he rfl]
  simp [unaryOf, Operate.unary, eq_comm]

theorem replaces_simplifyNot (he : Tidy Γ e) : Replaces Γ (.op .logNot e none span) (simplifyNot e span) := by
  have hself : Tidy Γ (.op .logNot e none span) := .unary rfl he
  unfold simplifyNot
  split
  · split
    · cases he with
      | unary _ hinner =>
        refine .of_succ hinner fun hσ hw => ?_
        obtain ⟨a, ha, rfl⟩ := (computes_not hσ (.unary rfl hinner)).mp hw
        obtain ⟨n, rfl⟩ := ha.exists_succ
        obtain ⟨b, hb, rfl⟩ := (computes_not hσ hinner).mp ha
        obtain ⟨t, rfl⟩ := exists_ofBool_of_computes hinner ‹_› hσ hb
        rw [Value.isTrue_ofBool, Value.isTrue_ofBool, Bool.not_not]
        exact hinner.lift (hinner.lift hb)
      | binary ho => cases ho
    · exact .refl hself
  · refine .of_succ tidy_ofBool fun hσ hw => ?_
    obtain ⟨a, ha, rfl⟩ := (computes_not hσ he).mp hw
    cases eq_of_computes_val he ha
    exact computes_ofBool.mpr rfl
  · exact .refl hself

/-! ## Operators at large -/

theorem replaces_simplifyUnary {o : Operator} (ho : o.isUnary = true) (he : Tidy Γ e) :
    Replaces Γ (.op o e none span) (simplifyUnary o e span) := by
  unfold simplifyUnary
  split
  · exact replaces_simplifyNot he
  · exact replaces_simplifyNeg he
  · exact .refl (.unary ho he)

theorem replaces_simplifyBinary {o : Operator} (ho : needsBoth o = true) (hl : Tidy Γ l) (hr : Tidy Γ r) :
    Replaces Γ (.op o l (some r) span) (simplifyBinary o l r span) := by
  unfold simplifyBinary
  split
  · exact replaces_simplifyEq hl hr
  · exact replaces_simplifyNe hl hr
  · exact replaces_simplifyOrder rfl (fun _ _ _ => rfl) hl hr
  · exact replaces_simplifyOrder rfl (fun _ _ _ => rfl) hl hr
  · exact replaces_simplifyOrder rfl (fun a b engine => by
      simp [Operate.binary, Operate.precedes, Except.map, ← decide_not, Int64.not_lt]) hl hr
  · exact replaces_simplifyOrder rfl (fun a b engine => by
      simp [Operate.binary, Operate.precedes, Except.map, ← decide_not, Int64.not_lt]) hl hr
  · exact replaces_simplifyAdd hl hr
  · exact replaces_simplifySub hl hr
  · exact replaces_simplifyMul hl hr
  · exact replaces_simplifyDivision (Or.inl ⟨rfl, rfl⟩) hl hr
  · exact replaces_simplifyDivision (Or.inr ⟨rfl, rfl⟩) hl hr
  · exact replaces_simplifyConcat hl hr
  · exact .refl (.both ho hl hr)

theorem simplifyOp_of_isUnary {o : Operator} (ho : o.isUnary = true) (r : Option Expr) :
    simplifyOp o (some e) r span = some (simplifyUnary o e span) := by
  cases o <;> first | rfl | cases ho

theorem simplifyOp_of_needsBoth {o : Operator} (ho : needsBoth o = true) :
    simplifyOp o (some l) (some r) span = some (simplifyBinary o l r span) := by
  cases o <;> first | rfl | cases ho

theorem replaces_simplifyOp {o : Operator} (ho : joinsValues o = true) (hl : Tidy Γ l) (hr : Tidy Γ r)
    (span : Option Span) :
    ∃ e', simplifyOp o (some l) (some r) span = some e' ∧ Replaces Γ (.op o l (some r) span) e' := by
  rcases needsBoth_or ho with hboth | ⟨goOn, ⟨rfl, rfl⟩ | ⟨rfl, rfl⟩⟩
  · exact ⟨_, simplifyOp_of_needsBoth hboth, replaces_simplifyBinary hboth hl hr⟩
  · exact ⟨_, rfl, replaces_simplifyAnd hl hr⟩
  · exact ⟨_, rfl, replaces_simplifyOr hl hr⟩

/-! ## Conditions and tuples -/

theorem replaces_simplifyCond {test yes no : Expr} (ht : Tidy Γ test) (hy : Tidy Γ yes) (hn : Tidy Γ no) :
    ∃ e', simplifyCond (some test) (some yes) (some no) = some e' ∧
      Replaces Γ (.cond test (some yes) (some no)) e' := by
  cases htest : test.literal? with
  | none => exact ⟨.cond test (some yes) (some no), by simp [simplifyCond, htest], .refl (.cond ht hy hn)⟩
  | some a =>
    have hbranch : Tidy Γ (if a.isTrue then yes else no) := by split <;> assumption
    refine ⟨if a.isTrue then yes else no, ?_, .of_succ hbranch fun hσ hw => ?_⟩
    · simp only [simplifyCond, htest, Option.isNone_some, Bool.and_self, Bool.false_eq_true, if_false]
      split <;> rfl
    · cases eq_val_of_literal? htest
      obtain ⟨t, ht', hw⟩ := (computes_cond hσ ht hy hn).mp hw
      cases eq_of_computes_val ht ht'
      exact hbranch.lift hw

theorem filterMap_id_map_some (es : List Expr) : (es.map some).filterMap id = es := by
  simp

theorem forall₂_literals {c : Setting} {σ : Scope (Option Value)} {n : Nat} {es : List Expr} {vs : List Value}
    (h : ∀ e ∈ es, Tidy Γ e) (hall : es.all Expr.isLiteral = true) (hvs : List.Forall₂ (Computes c σ n) es vs) :
    vs = es.filterMap Expr.literal? := by
  induction hvs with
  | nil => rfl
  | @cons e v es vs hv hvs ih =>
    rw [List.all_cons, Bool.and_eq_true] at hall
    obtain ⟨a, ha⟩ := Option.isSome_iff_exists.mp hall.1
    cases eq_val_of_literal? ha
    cases eq_of_computes_val (h _ List.mem_cons_self) hv
    rw [List.filterMap_cons_some ha, ← ih (fun e he => h e (List.mem_cons_of_mem _ he)) hall.2]

theorem isPlain_of_literals {es : List Expr} (h : ∀ e ∈ es, Tidy Γ e) :
    (Value.tuple (es.filterMap Expr.literal?)).isPlain = true := by
  refine Value.isPlain_tuple.mpr fun v hv => ?_
  obtain ⟨e, he, hv⟩ := List.mem_filterMap.mp hv
  cases eq_val_of_literal? hv
  exact isPlain_of_tidy (h _ he)

theorem replaces_simplifyTuple {es : List Expr} (hne : es ≠ []) (h : ∀ e ∈ es, Tidy Γ e) :
    ∃ e', simplifyTuple (es.map some) = some e' ∧ Replaces Γ (.tuple (es.map some)) e' := by
  unfold simplifyTuple
  rw [filterMap_id_map_some]
  match es with
  | [] => exact absurd rfl hne
  | [e] =>
    refine ⟨e, rfl, .of_succ (h e List.mem_cons_self) fun hσ hw => ?_⟩
    obtain ⟨vs, hvs, hw⟩ := (computes_tuple hσ h).mp hw
    cases hvs with
    | cons hv hrest =>
      cases hrest
      cases hw
      exact (h e List.mem_cons_self).lift hv
  | e :: e' :: rest =>
    by_cases hall : (e :: e' :: rest).all Expr.isLiteral = true
    · refine ⟨.val (.tuple ((e :: e' :: rest).filterMap Expr.literal?)), if_pos hall,
        .of_succ (.val (isPlain_of_literals h)) fun hσ hw => ?_⟩
      obtain ⟨vs, hvs, hw⟩ := (computes_tuple hσ h).mp hw
      refine (computes_val (isPlain_of_literals h)).mpr ?_
      rw [← forall₂_literals h hall hvs]
      cases hvs with
      | cons hv hrest =>
        cases hrest
        cases hw
        rfl
    · exact ⟨_, if_neg hall, .refl (.tuple hne h)⟩

end Provenance.Prepare
