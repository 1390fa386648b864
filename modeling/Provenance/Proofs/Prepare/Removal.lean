import Provenance.Proofs.Eval.Mirrors
import Provenance.Proofs.Prepare.Levels
import Provenance.Proofs.Prepare.Scoping

/-!
# Removing a variable that has no value

`Spreads y e` says that the lack of a value of `y` spreads through `e` as `eliminate` lets it. What is left of such
an expression then has the value that the expression has while `y` is bound to nothing (`evaluate_eliminate`).
This is not so for concatenations, which do with one side while they are simplified and with none when they are
evaluated (`eliminate_keeps_concat`).
-/

namespace Provenance.Prepare

open Eval
open Provenance.Expr (Inert Within under)

variable {K K' : Scope (Option Value) → Prop} {X : VarId → Prop} {y : VarId} {n k : Nat} {ev : Expr → Eval (Option Value)}
  {o : Operator} {l l' : Expr} {r r' : Option Expr} {span : Option Span}

/-! ## Operators -/

theorem mirrors_op_left {m' : Eval (Option Value)} (ho : o.isJoin = false)
    (h : Mirrors K X (operation ev o l r span) m') : Mirrors K X (node ev (.op o l r span)) m' := by
  simp only [node, ho]
  exact h.bind_note_left

theorem mirrors_op_right {m : Eval (Option Value)} (ho : o.isJoin = false)
    (h : Mirrors K X m (operation (evaluateIn k) o l r span)) : Mirrors K X m (evaluateIn (k + 1) (.op o l r span)) := by
  refine Mirrors.deeper_right ?_
  simp only [node, ho]
  exact h.bind_note_right

/-- What is made of a node has its value: it is the node, or the literal that the operator makes of literals. -/
inductive Applied (o : Operator) (span : Option Span) : Expr → Option Expr → Expr → Prop
  | stays (l : Expr) (r : Option Expr) : Applied o span l r (.op o l r span)
  | unary {v u : Value} (h : Operate.unary o v = .ok u) : Applied o span (.val v) none (.val u)
  | binary {v w u : Value} (h : ∀ engine, Operate.binary engine o v w = .ok u) :
      Applied o span (.val v) (some (.val w)) (.val u)

section
variable {m : Eval (Option Value)} {v w u : Value}

theorem mirrors_applyUnary (hu : Operate.unary o v = .ok u) (hl : Mirrors K Everything (ev l) (pure (some v))) :
    Mirrors K Everything (operation ev o l none span) (pure (some u)) := by
  have hstrict : operation ev o l none span = strict ev o l none span := by
    cases o <;> first | rfl | cases hu
  have happly : applyUnary o v span = pure (some u) := by
    have h : applyUnary o v span = orReport (Operate.unary o v) span := by cases o <;> first | rfl | cases hu
    rw [h, hu, orReport]
  rw [hstrict]
  refine hl.bind_known ?_
  simp only [happly]
  exact .pure _

theorem mirrors_operate (hu : ∀ engine, Operate.binary engine o v w = .ok u) :
    Mirrors K Everything (operate o v w span) (pure (some u)) := by
  refine .bind_still (respected_still.library (X := Everything)) fun lib => ?_
  rw [hu, orReport]
  exact .pure _

theorem mirrors_applyBinary {b : Expr} (hu : ∀ engine, Operate.binary engine o v w = .ok u)
    (hl : Mirrors K Everything (ev l) (pure (some v))) (hr : Mirrors K Everything (ev b) (pure (some w))) :
    Mirrors K Everything (operation ev o l (some b) span) (pure (some u)) := by
  by_cases ho : o = .union
  · subst ho
    exact hl.bind_known (hr.bind_known (mirrors_operate hu))
  · have hu' := hu Library.standard.engine
    have hstrict : isStrict o = true := by cases o <;> first | rfl | cases hu' | exact absurd rfl ho
    have hcomputed : isComputed o = true := by cases o <;> first | rfl | cases hu'
    rw [operation_of_isStrict _ hstrict]
    refine hl.bind_known (hr.bind_known ?_)
    simp only [applyBinary_of_isComputed _ hcomputed]
    exact mirrors_operate hu

end

theorem Applied.mirrors {t : Expr} (h : Applied o span l' r' t) (ho : o.isJoin = false) (hsome : r.isSome = r'.isSome)
    (hnk : n ≤ k) (hl : Mirrors (Without y X) Everything (evaluateIn n l) (evaluateIn k l'))
    (hr : Mirrors (Without y X) Everything (orNothing (evaluateIn n) r) (orNothing (evaluateIn k) r')) :
    Mirrors (Without y X) Everything (operation (evaluateIn n) o l r span) (evaluateIn (k + 1) t) := by
  cases h with
  | stays =>
    refine mirrors_op_right ho ((respected_without y).operation hl hr span hsome fun a b => ?_)
    exact (congruence_mirrors.applyBinary (mirrors_evaluateIn hnk) o a b span).mono (fun _ _ => trivial) fun _ h => h
  | unary h =>
    cases r with
    | none => exact .deeper_right (mirrors_applyUnary h (.of_val hl))
    | some b => cases hsome
  | binary h =>
    cases r with
    | none => cases hsome
    | some b => exact .deeper_right (mirrors_applyBinary h (.of_val hl) (.of_val hr))

/-! ## Connectives -/

theorem connective_eq (goOn : Bool) : connective ev goOn l r = ev l >>= fun a =>
    if truth a = goOn then orNothing ev r >>= fun b => pure (some (.ofBool (truth b)))
    else pure (some (.ofBool (truth a))) := by
  simp only [connective, operandTruth_eq, bind_assoc, pure_bind]
  rfl

@[simp] theorem truth_ofBool (b : Bool) : truth (some (.ofBool b)) = b := by
  cases b <;> rfl

theorem exists_ofBool_of_connective {goOn : Bool} {c : Setting} {s s' : Session} {v : Option Value}
    (h : connective ev goOn l r c s = (.ok v, s')) : ∃ b, v = some (.ofBool b) := by
  rw [connective_eq] at h
  obtain ⟨a, s₁, -, h⟩ := exists_of_bind_eq_ok h
  split at h
  · obtain ⟨b, s₂, -, h⟩ := exists_of_bind_eq_ok h
    cases h
    exact ⟨_, rfl⟩
  · cases h
    exact ⟨_, rfl⟩

theorem exists_ofBool_of_evaluateIn {c : Setting} {s s' : Session} {v : Option Value} (ho : o = .logAnd ∨ o = .logOr)
    (h : evaluateIn n (.op o l r span) c s = (.ok v, s')) : ∃ b, v = some (.ofBool b) := by
  cases n with
  | zero => cases h
  | succ n =>
    simp only [evaluateIn, deeper] at h
    obtain ⟨s₁, hnode, -⟩ := exists_of_between_eq_ok h
    have hjoin : o.isJoin = false := by rcases ho with rfl | rfl <;> rfl
    simp only [node, hjoin, Bool.false_eq_true, if_false] at hnode
    obtain ⟨v', s₂, hop, hnote⟩ := exists_of_bind_eq_ok hnode
    cases hnote
    rcases ho with rfl | rfl
    · exact exists_ofBool_of_connective hop
    · exact exists_ofBool_of_connective hop

/-- What a connective yields is its truth. -/
theorem mirrors_truth {m : Eval (Option Value)} (ho : o = .logAnd ∨ o = .logOr) (hnk : n ≤ k)
    (h : Mirrors K Everything m (evaluateIn n (.op o l r span))) :
    Mirrors K Everything (m >>= fun v => pure (some (.ofBool (truth v)))) (evaluateIn k (.op o l r span)) := by
  intro c s t b s' hs hst hm
  obtain ⟨v, s₁, hms, hb⟩ := exists_of_bind_eq_ok hm
  cases hb
  obtain ⟨hscope, u, hu, -, hcounts⟩ := h c s s v s' hs ⟨fun _ _ => rfl, rfl⟩ hms
  obtain ⟨b, rfl⟩ := exists_ofBool_of_evaluateIn ho hu
  obtain ⟨-, t', ht', htscope, hcounts'⟩ := mirrors_evaluateIn (K := Anywhere) hnk _ c s t _ u trivial hst hu
  exact ⟨hscope, t', by rw [truth_ofBool, ht'], htscope, hcounts.trans hcounts'⟩

section
variable {ev' : Expr → Eval (Option Value)} {goOn : Bool}

theorem mirrors_operandTruth {e e' : Option Expr} (h : Mirrors K Everything (orNothing ev e) (orNothing ev' e')) :
    Mirrors K Everything (operandTruth ev e) (operandTruth ev' e') := by
  rw [operandTruth_eq, operandTruth_eq]
  exact h.bind fun _ => .pure _

/-- Zero stands for no value as an operand of a connective. -/
theorem mirrors_operandTruth_zero {e : Option Expr} (h : Mirrors K Everything (orNothing ev e) (pure none)) :
    Mirrors K Everything (operandTruth ev e) (operandTruth (evaluateIn (k + 1)) (some (Expr.int 0))) := by
  rw [operandTruth_eq, operandTruth_eq]
  refine h.bind_known ?_
  have hzero : Mirrors K Everything (pure (some (.int 0))) (evaluateIn (k + 1) (Expr.int 0)) := mirrors_val_right _
  exact hzero.bind fun v => .pure (truth v)

theorem mirrors_connective (hl : Mirrors K Everything (operandTruth ev (some l)) (operandTruth ev' (some l')))
    (hr : Mirrors K Everything (operandTruth ev r) (operandTruth ev' r')) :
    Mirrors K Everything (connective ev goOn l r) (connective ev' goOn l' r') := by
  refine hl.bind fun a => ?_
  split
  · exact hr.bind fun _ => .pure _
  · exact .pure _

theorem mirrors_connective_right {v : Option Value} {m' : Eval (Option Value)} (hl : Mirrors K Everything (ev l) (pure v))
    (hv : truth v = goOn) (h : Mirrors K Everything (orNothing ev r >>= fun b => pure (some (.ofBool (truth b)))) m') :
    Mirrors K Everything (connective ev goOn l r) m' := by
  rw [connective_eq]
  refine hl.bind_known ?_
  rwa [if_pos hv]

theorem mirrors_connective_left {v : Option Value} (hl : Mirrors K Everything (ev l) (pure v)) (hv : truth v = !goOn) :
    Mirrors K Everything (connective ev goOn l r) (evaluateIn (k + 1) (Expr.ofBool !goOn)) := by
  have hshut : ¬ truth v = goOn := by simp [hv]
  rw [connective_eq]
  refine hl.bind_known ?_
  rw [if_neg hshut, hv]
  exact mirrors_val_right _

end

theorem mirrors_rightSide {a b : Expr} {m whole : Eval (Option Value)} (hm : Mirrors K Everything m (evaluateIn k b))
    (hself : Mirrors K Everything whole (evaluateIn (k + 1) (.op o a (some b) span)))
    (hright : ∀ {m'}, Mirrors K Everything (m >>= fun v => pure (some (.ofBool (truth v)))) m' →
      Mirrors K Everything whole m') : Mirrors K Everything whole (evaluateIn (k + 1) (rightSide o a b span)) := by
  unfold rightSide
  split
  · exact hright (hm.of_val.bind_known (mirrors_val_right _))
  · exact hright (mirrors_truth (Or.inl rfl) (Nat.le_succ k) hm)
  · exact hright (mirrors_truth (Or.inr rfl) (Nat.le_succ k) hm)
  · exact hself

section
variable {left right : Option Expr} (hl : Mirrors K Everything (ev l) (orNothing (evaluateIn k) left))
  (hr : Mirrors K Everything (orNothing ev r) (orNothing (evaluateIn k) right))
include hl hr

theorem mirrors_simplifyAnd (hstill : right = none → Still (ev l)) :
    Mirrors K Everything (connective ev true l r) (evaluateIn (k + 1) (simplifyAnd left right span)) := by
  cases left with
  | none => exact mirrors_connective_left hl rfl
  | some a =>
    cases right with
    | none =>
      show Mirrors K Everything (connective ev true l r) (evaluateIn (k + 1) (Expr.int 0))
      rw [connective_eq]
      refine Mirrors.bind_still (hstill rfl) fun v => ?_
      split
      · exact hr.bind_known (mirrors_val_right (.int 0))
      · rename_i hv
        rw [Bool.eq_false_iff.mpr hv]
        exact mirrors_val_right (.int 0)
    | some b =>
      have hself : Mirrors K Everything (connective ev true l r) (evaluateIn (k + 1) (.op .logAnd a (some b) span)) :=
        mirrors_op_right rfl (mirrors_connective (mirrors_operandTruth hl) (mirrors_operandTruth hr))
      simp only [simplifyAnd]
      by_cases htrue : a.isTrueLiteral = true
      · rw [if_pos htrue]
        obtain ⟨v, rfl, hv⟩ := isTrueLiteral_iff.mp htrue
        exact mirrors_rightSide hr hself fun h => mirrors_connective_right hl.of_val hv h
      · rw [if_neg htrue]
        by_cases hfalse : a.isFalseLiteral = true
        · rw [if_pos hfalse]
          obtain ⟨v, rfl, hv⟩ := isFalseLiteral_iff.mp hfalse
          exact mirrors_connective_left hl.of_val hv
        · rw [if_neg hfalse]
          exact hself

theorem mirrors_simplifyOr (hk : 0 < k) :
    Mirrors K Everything (connective ev false l r) (evaluateIn (k + 1) (simplifyOr left right span)) := by
  obtain ⟨k, rfl⟩ := Nat.exists_eq_add_one.mpr hk
  cases left with
  | none =>
    have hopen : ∀ {m'}, Mirrors K Everything (orNothing ev r >>= fun v => pure (some (.ofBool (truth v)))) m' →
        Mirrors K Everything (connective ev false l r) m' := fun h => mirrors_connective_right hl rfl h
    cases right with
    | none => exact hopen (hr.bind_known (mirrors_val_right (.int 0)))
    | some b =>
      refine mirrors_rightSide hr (mirrors_op_right rfl ?_) hopen
      exact mirrors_connective (mirrors_operandTruth_zero hl) (mirrors_operandTruth hr)
  | some a =>
    have hshut : ∀ {v : Value}, a = .val v → v.isTrue = true →
        Mirrors K Everything (connective ev false l r) (evaluateIn (k + 1 + 1) (Expr.int 1)) := by
      rintro v rfl hv
      exact mirrors_connective_left hl.of_val hv
    cases right with
    | none =>
      simp only [simplifyOr]
      by_cases htrue : a.isTrueLiteral = true
      · rw [if_pos htrue]
        obtain ⟨v, hval, hv⟩ := isTrueLiteral_iff.mp htrue
        exact hshut hval hv
      · rw [if_neg htrue]
        by_cases hfalse : a.isFalseLiteral = true
        · rw [if_pos hfalse]
          obtain ⟨v, rfl, hv⟩ := isFalseLiteral_iff.mp hfalse
          exact mirrors_connective_right hl.of_val hv (hr.bind_known (mirrors_val_right (.int 0)))
        · rw [if_neg hfalse]
          exact mirrors_op_right rfl (mirrors_connective (mirrors_operandTruth hl) (mirrors_operandTruth_zero hr))
    | some b =>
      have hself : Mirrors K Everything (connective ev false l r)
          (evaluateIn (k + 1 + 1) (.op .logOr a (some b) span)) :=
        mirrors_op_right rfl (mirrors_connective (mirrors_operandTruth hl) (mirrors_operandTruth hr))
      simp only [simplifyOr]
      by_cases htrue : a.isTrueLiteral = true
      · rw [if_pos htrue]
        obtain ⟨v, hval, hv⟩ := isTrueLiteral_iff.mp htrue
        exact hshut hval hv
      · rw [if_neg htrue]
        by_cases hfalse : a.isFalseLiteral = true
        · rw [if_pos hfalse]
          obtain ⟨v, rfl, hv⟩ := isFalseLiteral_iff.mp hfalse
          exact mirrors_rightSide hr hself fun h => mirrors_connective_right hl.of_val hv h
        · rw [if_neg hfalse]
          exact hself

end

/-! ## Unions, tuples and conditions -/

section
variable {m' : Eval (Option Value)}

theorem mirrors_unite_right (hl : Mirrors K Everything (ev l) (pure none)) (hr : Mirrors K Everything (orNothing ev r) m') :
    Mirrors K Everything (unite ev l r span) m' := by
  refine hl.bind_known ?_
  rwa [bind_pure]

theorem mirrors_unite_left (hl : Mirrors K Everything (ev l) m') (hr : Mirrors K Everything (orNothing ev r) (pure none)) :
    Mirrors K Everything (unite ev l r span) m' := by
  rw [← bind_pure m']
  refine hl.bind fun a => hr.bind_known ?_
  cases a with
  | none => exact .pure _
  | some a => exact .pure _

end

theorem fieldValues_filterMap : ∀ fields : List (Option Expr),
    fieldValues ev ((fields.filterMap id).map some) = fieldValues ev fields
  | [] => rfl
  | none :: rest => by
    rw [List.filterMap_cons_none rfl, fieldValues_filterMap rest, fieldValues, orNothing, pure_bind]
    exact (bind_pure _).symm
  | some e :: rest => by
    have hcons : (some e :: rest).filterMap id = e :: rest.filterMap id := List.filterMap_cons_some rfl
    rw [hcons, List.map_cons, fieldValues, fieldValues, fieldValues_filterMap rest]

theorem tupleOf_toList (v : Option Value) : tupleOf v.toList = v := by
  cases v <;> rfl

theorem tupleOf_literals {es : List Expr} (hnil : es ≠ []) (hlone : ∀ e, es ≠ [e]) (h : es.all Expr.isLiteral = true) :
    tupleOf (es.filterMap Expr.literal?) = some (.tuple (es.filterMap Expr.literal?)) := by
  obtain ⟨d, rest, rfl⟩ := List.exists_cons_of_ne_nil hnil
  cases rest with
  | nil => exact absurd rfl (hlone d)
  | cons e rest =>
    simp only [List.all_cons, Bool.and_eq_true] at h
    obtain ⟨hd, he, -⟩ := h
    cases d with
    | val v =>
      cases e with
      | val w => rfl
      | _ => cases he
    | _ => cases hd

/-- The fields of a tuple of literals are known. -/
theorem mirrors_fieldValues_literals : ∀ {es : List Expr}, es.all Expr.isLiteral = true →
    Mirrors K Everything (fieldValues (evaluateIn k) (es.map some)) (pure (es.filterMap Expr.literal?))
  | [], _ => .pure _
  | e :: rest, h => by
    obtain ⟨he, hrest⟩ := Bool.and_eq_true_iff.mp (List.all_cons ▸ h)
    cases e with
    | val v =>
      exact (mirrors_val_left v).bind_known ((mirrors_fieldValues_literals hrest).bind_known (.pure _))
    | _ => cases he

theorem mirrors_simplifyTuple {fields fields' : List (Option Expr)}
    (h : Mirrors K Everything (fieldValues ev fields) (fieldValues (evaluateIn k) fields')) :
    Mirrors K Everything (fieldValues ev fields >>= fun vs => pure (tupleOf vs))
      (orNothing (evaluateIn (k + 1)) (simplifyTuple fields')) := by
  rw [← fieldValues_filterMap fields'] at h
  unfold simplifyTuple
  generalize fields'.filterMap id = es at h
  split
  · exact h.bind_known (.pure _)
  · rename_i e
    have hlone : fieldValues (evaluateIn k) [some e] >>= (fun vs => pure (tupleOf vs)) = evaluateIn k e := by
      simp [fieldValues, orNothing, tupleOf_toList]
    refine Mirrors.lift (e := some e) ?_
    rw [orNothing, ← hlone]
    exact h.bind fun vs => .pure _
  · rename_i hnil hlone
    split
    · rename_i hliterals
      refine (h.trans (mirrors_fieldValues_literals hliterals)).bind_known ?_
      rw [tupleOf_literals (fun h => hnil h) (fun e h => hlone e h) hliterals]
      exact mirrors_val_right _
    · exact (h.bind fun vs => .pure _).deeper_right

theorem mirrors_simplifyCond {test : Expr} {yes no test' yes' no' : Option Expr}
    (ht : Mirrors K Everything (ev test) (orNothing (evaluateIn k) test'))
    (hy : Mirrors K Everything (orNothing ev yes) (orNothing (evaluateIn k) yes'))
    (hn : Mirrors K Everything (orNothing ev no) (orNothing (evaluateIn k) no'))
    (hstill : yes' = none → no' = none → Still (ev test)) :
    Mirrors K Everything (condition ev test yes no) (orNothing (evaluateIn (k + 1)) (simplifyCond test' yes' no')) := by
  cases test' with
  | none => exact ht.bind_known (.note_left hy.lift)
  | some t =>
    simp only [simplifyCond]
    by_cases hnone : (yes'.isNone && no'.isNone) = true
    · rw [if_pos hnone]
      obtain ⟨hyes, hno⟩ := Bool.and_eq_true_iff.mp hnone
      cases Option.isNone_iff_eq_none.mp hyes
      cases Option.isNone_iff_eq_none.mp hno
      refine Mirrors.bind_still (hstill rfl rfl) fun a => .note_left ?_
      split
      · exact hy
      · exact hn
    · rw [if_neg hnone]
      cases hv : t.literal? with
      | some v =>
        cases eq_val_of_literal? hv
        refine ht.of_val.bind_known (.note_left ?_)
        simp only [Option.all_some]
        split
        · exact hy.lift
        · exact hn.lift
      | none =>
        refine Mirrors.deeper_right (ht.bind fun a => (mirrors_note _).bind fun _ => ?_)
        split
        · exact hy
        · exact hn

/-! ## Bindings -/

section
variable {x : Var} {bound guard body : Expr} {v : Option Value} {g : Value} {m' : Eval (Option Value)}

/-- What a binding comes to when its value is not needed. -/
theorem mirrors_letBinding_left (hb : Still (ev bound))
    (h : ∀ v, Mirrors K X (binding x.id v (ev guard >>= fun g => if truth g then ev body else pure none)) m') :
    Mirrors K X (letBinding ev x bound guard body) m' :=
  Mirrors.bind_still hb fun v => .note_left (.indented_left (.note_left (h v)))

theorem mirrors_letBinding_known (hb : Mirrors K Everything (ev bound) (pure v))
    (h : Mirrors K X (binding x.id v (ev guard >>= fun g => if truth g then ev body else pure none)) m') :
    Mirrors K X (letBinding ev x bound guard body) m' :=
  hb.bind_known (.note_left (.indented_left (.note_left h)))

theorem mirrors_passed (hg : Mirrors K Everything (ev guard) (evaluateIn k (.val g))) (htrue : g.isTrue = true)
    (h : Mirrors K X (ev body) m') :
    Mirrors K X (ev guard >>= fun g => if truth g then ev body else pure none) m' := by
  have hpassed : truth (some g) = true := htrue
  refine hg.of_val.bind_known ?_
  rwa [if_pos hpassed]

theorem mirrors_binding_known {m : Eval (Option Value)} {w : Option Value} (hK : ∀ σ, K σ → K' (σ.push x.id v))
    (h : Mirrors K' Everything m (pure w)) : Mirrors K X (binding x.id v m) (pure w) :=
  Mirrors.binding_left (Y := fun _ => False) hK (fun _ h => h.elim) h.known

/-- What is left of the body does without the binding. -/
theorem mirrors_binding_unused {m : Eval (Option Value)} {c : Expr} (hK : ∀ σ, K σ → K' (σ.push x.id v))
    (h : Mirrors K' Everything m (evaluateIn k c)) (hc : Inert c) (hx : Within (x.id ≠ ·) c) :
    Mirrors K Everything (binding x.id v m) (evaluateIn k c) := by
  refine Mirrors.binding_left (Y := (x.id ≠ ·)) hK (fun _ hy => ⟨trivial, hy⟩) (h.trans ?_)
  exact (mirrors_inert (Nat.le_refl k) hc hx).mono (fun _ _ => trivial) fun _ h => h

end

/-! ## Where the lack of a value spreads -/

/-- The lack of a value of the variable spreads through the expression as `eliminate` lets it. What is dropped although
it has a value is inert. -/
inductive Spreads : VarId → Expr → Prop
  | kept {y : VarId} {e : Expr} (h : eliminate y e = some e) : Spreads y e
  | var (y : VarId) : Spreads y (.ref y)
  | left {y : VarId} {o : Operator} {l : Expr} {r : Option Expr} {span : Option Span} (ho : isDemanding o = true)
      (hconcat : o ≠ .concat) (hl : Spreads y l) (hnone : eliminate y l = none) : Spreads y (.op o l r span)
  | right {y : VarId} {o : Operator} {l r : Expr} {span : Option Span} (ho : isDemanding o = true)
      (hconcat : o ≠ .concat) (hunary : o.isUnary = false) (hi : Inert l) (hr : Spreads y r)
      (hnone : eliminate y r = none) : Spreads y (.op o l (some r) span)
  | applied {y : VarId} {o : Operator} {l l' t : Expr} {r r' : Option Expr} {span : Option Span} (ho : o.isJoin = false)
      (hl : Spreads y l) (hr : ∀ a ∈ r, Spreads y a) (hleft : eliminate y l = some l') (hright : r.bind (eliminate y) = r')
      (hsome : r.isSome = r'.isSome) (h : eliminate y (.op o l r span) = some t) (ht : Applied o span l' r' t) :
      Spreads y (.op o l r span)
  | and {y : VarId} {l : Expr} {r : Option Expr} {span : Option Span} (hl : Spreads y l) (hr : ∀ a ∈ r, Spreads y a)
      (hi : r.bind (eliminate y) = none → Inert l) : Spreads y (.op .logAnd l r span)
  | or {y : VarId} {l : Expr} {r : Option Expr} {span : Option Span} (hl : Spreads y l) (hr : ∀ a ∈ r, Spreads y a) :
      Spreads y (.op .logOr l r span)
  | union {y : VarId} {l : Expr} {r : Option Expr} {span : Option Span} (hl : Spreads y l) (hr : ∀ a ∈ r, Spreads y a)
      (hnone : eliminate y l = none ∨ r.bind (eliminate y) = none) : Spreads y (.op .union l r span)
  | tuple {y : VarId} {fields : List (Option Expr)} (h : ∀ a, some a ∈ fields → Spreads y a) : Spreads y (.tuple fields)
  | cond {y : VarId} {test : Expr} {yes no : Option Expr} (ht : Spreads y test) (hy : ∀ a ∈ yes, Spreads y a)
      (hn : ∀ a ∈ no, Spreads y a)
      (hi : yes.bind (eliminate y) = none → no.bind (eliminate y) = none → Inert test) : Spreads y (.cond test yes no)
  | noSource {y : VarId} {x : Var} {source guard body : Expr} (hs : Spreads y source) (hnone : eliminate y source = none) :
      Spreads y (.forIn x source guard body)
  | loop {y : VarId} {x : Var} {source source' guard guard' body body' : Expr} (hx : x.id ≠ y) (hs : Spreads y source)
      (hg : Spreads y guard) (hbody : Spreads y body) (hsource : eliminate y source = some source')
      (hguard : eliminate y guard = some guard') (hsome : eliminate y body = some body')
      (h : eliminate y (.forIn x source guard body) = some (.forIn x source' guard' body')) :
      Spreads y (.forIn x source guard body)
  | binding {y : VarId} {x : Var} {bound bound' guard guard' body body' : Expr} (hx : x.id ≠ y) (hb : Spreads y bound)
      (hg : Spreads y guard) (hbody : Spreads y body) (hbound : eliminate y bound = some bound')
      (hguard : eliminate y guard = some guard') (hsome : eliminate y body = some body')
      (h : eliminate y (.letIn x bound guard body) = some (.letIn x bound' guard' body')) :
      Spreads y (.letIn x bound guard body)
  | noGuard {y : VarId} {x : Var} {bound guard body : Expr} (hx : x.id ≠ y) (hi : Inert bound) (hg : Spreads y guard)
      (hnone : eliminate y guard = none) : Spreads y (.letIn x bound guard body)
  | noBody {y : VarId} {x : Var} {bound guard body : Expr} (hx : x.id ≠ y) (hi : Inert bound) (hig : Inert guard)
      (hbody : Spreads y body) (hnone : eliminate y body = none) : Spreads y (.letIn x bound guard body)
  | unused {y : VarId} {x : Var} {bound guard body body' : Expr} {g : Value} (hx : x.id ≠ y) (hi : Inert bound)
      (hg : Spreads y guard) (hbody : Spreads y body) (hguard : eliminate y guard = some (.val g)) (htrue : g.isTrue = true)
      (hsome : eliminate y body = some body') (hmentions : body'.mentions x.id = false) (hibody : Inert body') :
      Spreads y (.letIn x bound guard body)
  | returned {y : VarId} {x : Var} {bound bound' guard body : Expr} {g : Value} (hx : x.id ≠ y) (hb : Spreads y bound)
      (hg : Spreads y guard) (hbody : Spreads y body) (hbound : eliminate y bound = some bound')
      (hatom : isAtom bound' = false) (hguard : eliminate y guard = some (.val g)) (htrue : g.isTrue = true)
      (hsome : eliminate y body = some (.ref x.id)) : Spreads y (.letIn x bound guard body)
  | onward {y : VarId} {x : Var} {bound guard body body' : Expr} {g : Value} (hx : x.id ≠ y) (hb : Spreads y bound)
      (hg : Spreads y guard) (hbody : Spreads y body) (hbound : eliminate y bound = none)
      (hguard : eliminate y guard = some (.val g)) (htrue : g.isTrue = true) (hsome : eliminate y body = some body')
      (hmentions : body'.mentions x.id = true) (hbody' : Spreads x.id body')
      (hi : ∀ t ∈ eliminate x.id body', Inert t) : Spreads y (.letIn x bound guard body)

/-! ## What is left -/

/-- What is left of the expression does what the expression does while the variable has no value. -/
structure Removes (y : VarId) (e : Expr) : Prop where
  mirrors : ∀ {X : VarId → Prop} {n k : Nat}, ¬ X y → n ≤ k →
    Mirrors (Without y X) Everything (evaluateIn n e) (orNothing (evaluateIn k) (eliminate y e))

theorem Removes.of_node {e : Expr} (h : ∀ {X : VarId → Prop} {n k : Nat}, ¬ X y → n ≤ k →
    Mirrors (Without y X) Everything (node (evaluateIn n) e) (orNothing (evaluateIn (k + 1)) (eliminate y e))) :
    Removes y e := by
  refine ⟨fun {X n k} hX hnk => ?_⟩
  cases n with
  | zero => exact .of_never fun _ _ _ _ h => by cases h
  | succ n =>
    obtain ⟨k, rfl⟩ := Nat.exists_eq_add_one.mpr (Nat.lt_of_lt_of_le (Nat.succ_pos n) hnk)
    exact (h hX (Nat.le_of_succ_le_succ hnk)).deeper_left

theorem Removes.opt (h : ∀ a ∈ r, Removes y a) {X : VarId → Prop} {n k : Nat} (hX : ¬ X y) (hnk : n ≤ k) :
    Mirrors (Without y X) Everything (orNothing (evaluateIn n) r) (orNothing (evaluateIn k) (r.bind (eliminate y))) := by
  cases r with
  | none => exact .pure _
  | some a => exact (h a rfl).mirrors hX hnk

section
variable (hl : Removes y l)
include hl

theorem Removes.left (ho : isDemanding o = true) (hconcat : o ≠ .concat) (hnone : eliminate y l = none) :
    Removes y (.op o l r span) := by
  obtain ⟨hstrict, hjoin⟩ := isDemanding_iff.mp ho
  have hgone : eliminate y (.op o l r span) = none := by
    rw [(traversal_eliminate y).op, hnone]
    cases o <;> first | rfl | exact absurd rfl hconcat | exact absurd ho (by decide)
  refine Removes.of_node fun {X n k} hX hnk => mirrors_op_left hjoin ?_
  have hl := hl.mirrors hX hnk
  rw [hnone] at hl
  rw [hgone, operation_of_isStrict _ hstrict]
  exact hl.bind_known (.pure _)

theorem Removes.applied {t : Expr} (hr : ∀ a ∈ r, Removes y a) (ho : o.isJoin = false) (hleft : eliminate y l = some l')
    (hright : r.bind (eliminate y) = r') (hsome : r.isSome = r'.isSome) (h : eliminate y (.op o l r span) = some t)
    (ht : Applied o span l' r' t) : Removes y (.op o l r span) := by
  refine Removes.of_node fun {X n k} hX hnk => mirrors_op_left ho ?_
  have hl := hl.mirrors hX hnk
  have hr := Removes.opt hr hX hnk
  rw [hleft] at hl
  rw [hright] at hr
  rw [h]
  exact ht.mirrors ho hsome hnk hl hr

theorem Removes.and (hr : ∀ a ∈ r, Removes y a) (hi : r.bind (eliminate y) = none → Inert l) :
    Removes y (.op .logAnd l r span) := by
  refine Removes.of_node fun {X n k} hX hnk => mirrors_op_left rfl ?_
  rw [(traversal_eliminate y).op]
  exact mirrors_simplifyAnd (hl.mirrors hX hnk) (Removes.opt hr hX hnk) fun h => still_evaluateIn (hi h)

theorem Removes.or (hr : ∀ a ∈ r, Removes y a) : Removes y (.op .logOr l r span) := by
  refine Removes.of_node fun {X n k} hX hnk => mirrors_op_left rfl ?_
  rw [(traversal_eliminate y).op]
  cases n with
  | zero =>
    refine .of_never fun c s v s' h => ?_
    rw [operation, connective_eq] at h
    obtain ⟨a, s₁, h, -⟩ := exists_of_bind_eq_ok h
    cases h
  | succ n => exact mirrors_simplifyOr (hl.mirrors hX hnk) (Removes.opt hr hX hnk) (by omega)

theorem Removes.union (hr : ∀ a ∈ r, Removes y a) (hnone : eliminate y l = none ∨ r.bind (eliminate y) = none) :
    Removes y (.op .union l r span) := by
  refine Removes.of_node fun {X n k} hX hnk => mirrors_op_left rfl ?_
  rw [(traversal_eliminate y).op]
  by_cases hleft : eliminate y l = none
  · have hl := hl.mirrors hX hnk
    rw [hleft] at hl ⊢
    exact mirrors_unite_right hl (Removes.opt hr hX (Nat.le_succ_of_le hnk))
  · have hright := hnone.resolve_left hleft
    have hr := Removes.opt hr hX hnk
    rw [hright] at hr ⊢
    have hop : simplifyOp .union (eliminate y l) none span = eliminate y l := by
      cases eliminate y l <;> rfl
    rw [hop]
    exact mirrors_unite_left (hl.mirrors hX (Nat.le_succ_of_le hnk)) hr

end

theorem Removes.right {a : Expr} (hr : Removes y a) (ho : isDemanding o = true) (hconcat : o ≠ .concat)
    (hunary : o.isUnary = false) (hi : Inert l) (hnone : eliminate y a = none) : Removes y (.op o l (some a) span) := by
  obtain ⟨hstrict, hjoin⟩ := isDemanding_iff.mp ho
  have hgone : eliminate y (.op o l (some a) span) = none := by
    rw [(traversal_eliminate y).op, Option.bind_some, hnone]
    generalize eliminate y l = l'
    cases o <;> first
      | exact absurd rfl hconcat
      | exact absurd ho (by decide)
      | exact absurd hunary (by decide)
      | (cases l' <;> rfl)
  refine Removes.of_node fun {X n k} hX hnk => mirrors_op_left hjoin ?_
  have hr := hr.mirrors hX hnk
  rw [hnone] at hr
  rw [hgone, operation_of_isStrict _ hstrict]
  refine Mirrors.bind_still (still_evaluateIn hi) fun v => ?_
  cases v with
  | none => exact .pure _
  | some v => exact hr.bind_known (.pure _)

theorem Removes.tuple {fields : List (Option Expr)} (h : ∀ a, some a ∈ fields → Removes y a) : Removes y (.tuple fields) := by
  refine Removes.of_node fun {X n k} hX hnk => ?_
  have hfields : List.Forall₂ (fun e e' => Mirrors (Without y X) Everything (orNothing (evaluateIn n) e)
      (orNothing (evaluateIn k) e')) fields (fields.map (·.bind (eliminate y))) :=
    List.forall₂_map_right_iff.mpr (List.forall₂_same.mpr fun e he =>
      Removes.opt (fun a ha => h a (Option.mem_def.mp ha ▸ he)) hX hnk)
  rw [(traversal_eliminate y).tuple]
  exact mirrors_simplifyTuple ((respected_without y).fieldValues hfields)

theorem Removes.cond {test : Expr} {yes no : Option Expr} (ht : Removes y test) (hy : ∀ a ∈ yes, Removes y a)
    (hn : ∀ a ∈ no, Removes y a) (hi : yes.bind (eliminate y) = none → no.bind (eliminate y) = none → Inert test) :
    Removes y (.cond test yes no) := by
  refine Removes.of_node fun {X n k} hX hnk => ?_
  rw [(traversal_eliminate y).cond]
  exact mirrors_simplifyCond (ht.mirrors hX hnk) (Removes.opt hy hX hnk) (Removes.opt hn hX hnk) fun h h' =>
    still_evaluateIn (hi h h')

/-! ### Loops and bindings -/

theorem under_ne {x : VarId} {X : VarId → Prop} (hx : x ≠ y) (hX : ¬ X y) : ¬ under (some x) X y :=
  fun h => h.elim hx hX

theorem Scoped.within {Γ Δ : VarId → Prop} {e : Expr} (h : Scoped Γ Δ e) : Within Γ e := by
  induction h with
  | val h => exact fun y hy => by cases hy
  | ref hx =>
    intro y hy
    cases List.mem_singleton.mp hy
    exact hx
  | op _ _ ihl ihr =>
    refine Expr.within_of_parts (fun _ h => by cases h) fun x a ha => ?_
    obtain ⟨rfl, rfl | rfl⟩ := Expr.mem_parts_op.mp ha
    · exact ihl
    · exact ihr a rfl
  | tuple _ ih =>
    refine Expr.within_of_parts (fun _ h => by cases h) fun x a ha => ?_
    obtain ⟨rfl, hmem⟩ := Expr.mem_parts_tuple.mp ha
    exact ih a hmem
  | cond _ _ _ iht ihy ihn =>
    refine Expr.within_of_parts (fun _ h => by cases h) fun x a ha => ?_
    obtain ⟨rfl, rfl | rfl | rfl⟩ := Expr.mem_parts_cond.mp ha
    · exact iht
    · exact ihy a rfl
    · exact ihn a rfl
  | forIn _ _ _ ihs ihg ihbody =>
    refine Expr.within_of_parts (fun _ h => by cases h) fun x a ha => ?_
    obtain ⟨rfl, rfl⟩ | ⟨rfl, rfl⟩ | ⟨rfl, rfl⟩ := Expr.mem_parts_forIn.mp ha
    · exact ihs
    · exact ihg
    · exact ihbody
  | letIn _ _ _ ihb ihg ihbody =>
    refine Expr.within_of_parts (fun _ h => by cases h) fun x a ha => ?_
    obtain ⟨rfl, rfl⟩ | ⟨rfl, rfl⟩ | ⟨rfl, rfl⟩ := Expr.mem_parts_letIn.mp ha
    · exact ihb
    · exact ihg
    · exact ihbody
  | lambda _ ih =>
    refine Expr.within_of_parts (fun _ h => by cases h) fun x a ha => ?_
    obtain ⟨rfl, rfl⟩ := Expr.mem_parts_lambda.mp ha
    exact ih

theorem scoped_around (x : VarId) (e : Expr) : Scoped (under (some x) (x ≠ ·)) (fun _ => True) e :=
  scoped_of_outerVars e (fun y _ => em (x = y)) fun _ _ => trivial

theorem within_of_not_mentions {x : VarId} {e : Expr} (h : e.mentions x = false) : Within (x ≠ ·) e :=
  ((scoped_around x e).of_not_mentions h).within

theorem within_eliminate {x : VarId} {e t : Expr} (h : eliminate x e = some t) : Within (x ≠ ·) t :=
  (scoped_eliminate (scoped_around x e) t h).within

theorem simplifyLet_of_isTrue {p : Pass} {x : Var} {bound : Option Expr} {body : Expr} {g : Value} (hg : g.isTrue = true) :
    simplifyLet p x bound (some (.val g)) (some body) =
      if !body.mentions x.id then some body
      else
        match bound with
        | none => p.eliminate x.id body
        | some b =>
          if isAtom b then p.simplify (Expr.substitute x.id b body)
          else if body.isVar x.id then some b
          else some (.letIn x b (.val g) body) := by
  have htrue : (Expr.val g).isTrueLiteral = true := isTrueLiteral_iff.mpr ⟨g, rfl, hg⟩
  simp only [simplifyLet, htrue]
  rfl

section
variable {x : Var} {bound guard body : Expr}

theorem Removes.noSource {source : Expr} (hs : Removes y source) (hnone : eliminate y source = none) :
    Removes y (.forIn x source guard body) := by
  refine Removes.of_node fun {X n k} hX hnk => ?_
  have hs := hs.mirrors hX hnk
  rw [hnone] at hs
  rw [(traversal_eliminate y).forIn, hnone]
  exact hs.bind_known (.pure _)

variable (hx : x.id ≠ y)
include hx

theorem Removes.loop {source source' guard' body' : Expr} (hs : Removes y source) (hg : Removes y guard)
    (hbody : Removes y body) (hsource : eliminate y source = some source') (hguard : eliminate y guard = some guard')
    (hsome : eliminate y body = some body')
    (h : eliminate y (.forIn x source guard body) = some (.forIn x source' guard' body')) :
    Removes y (.forIn x source guard body) := by
  refine Removes.of_node fun {X n k} hX hnk => ?_
  have hs := hs.mirrors hX hnk
  have hg := hg.mirrors (under_ne hx hX) hnk
  have hbody := hbody.mirrors (under_ne hx hX) hnk
  rw [hsource] at hs
  rw [hguard] at hg
  rw [hsome] at hbody
  rw [h]
  exact ((respected_without y).forLoop hs hg hbody).deeper_right

theorem Removes.binding {bound' guard' body' : Expr} (hb : Removes y bound) (hg : Removes y guard)
    (hbody : Removes y body) (hbound : eliminate y bound = some bound') (hguard : eliminate y guard = some guard')
    (hsome : eliminate y body = some body')
    (h : eliminate y (.letIn x bound guard body) = some (.letIn x bound' guard' body')) :
    Removes y (.letIn x bound guard body) := by
  refine Removes.of_node fun {X n k} hX hnk => ?_
  have hb := hb.mirrors hX hnk
  have hg := hg.mirrors (under_ne hx hX) hnk
  have hbody := hbody.mirrors (under_ne hx hX) hnk
  rw [hbound] at hb
  rw [hguard] at hg
  rw [hsome] at hbody
  rw [h]
  exact ((respected_without y).letBinding hb hg hbody).deeper_right

theorem Removes.noGuard (hi : Inert bound) (hg : Removes y guard) (hnone : eliminate y guard = none) :
    Removes y (.letIn x bound guard body) := by
  refine Removes.of_node fun {X n k} hX hnk => ?_
  have hg := hg.mirrors (under_ne hx hX) hnk
  have hgone : ∀ p b c, simplifyLet p x b none c = none := fun p b c => by cases c <;> rfl
  rw [hnone] at hg
  rw [(traversal_eliminate y).letIn, hnone, hgone]
  refine mirrors_letBinding_left (still_evaluateIn hi) fun v => ?_
  exact mirrors_binding_known (fun σ hσ => hσ.push v) (hg.bind_known (.pure _))

theorem Removes.noBody (hi : Inert bound) (hig : Inert guard) (hbody : Removes y body) (hnone : eliminate y body = none) :
    Removes y (.letIn x bound guard body) := by
  refine Removes.of_node fun {X n k} hX hnk => ?_
  have hbody := hbody.mirrors (under_ne hx hX) hnk
  have hgone : ∀ p b g, simplifyLet p x b g none = none := fun p b g => rfl
  rw [hnone] at hbody
  rw [(traversal_eliminate y).letIn, hnone, hgone]
  refine mirrors_letBinding_left (still_evaluateIn hi) fun v => ?_
  refine mirrors_binding_known (fun σ hσ => hσ.push v) (Mirrors.bind_still (still_evaluateIn hig) fun g => ?_)
  split
  · exact hbody
  · exact .pure _

variable {body' : Expr} {g : Value} (hg : Removes y guard) (hbody : Removes y body)
  (hguard : eliminate y guard = some (.val g)) (htrue : g.isTrue = true)
include hg hbody hguard htrue

theorem Removes.unused (hi : Inert bound) (hsome : eliminate y body = some body') (hmentions : body'.mentions x.id = false)
    (hibody : Inert body') : Removes y (.letIn x bound guard body) := by
  refine Removes.of_node fun {X n k} hX hnk => ?_
  have hg := hg.mirrors (under_ne hx hX) hnk
  have hbody := hbody.mirrors (under_ne hx hX) (Nat.le_succ_of_le hnk)
  rw [hguard] at hg
  rw [hsome] at hbody
  have hleft : eliminate y (.letIn x bound guard body) = some body' := by
    rw [(traversal_eliminate y).letIn, hguard, hsome, simplifyLet_of_isTrue htrue, hmentions]
    rfl
  rw [hleft]
  refine mirrors_letBinding_left (still_evaluateIn hi) fun v => ?_
  exact mirrors_binding_unused (fun σ hσ => hσ.push v) (mirrors_passed hg htrue hbody) hibody
    (within_of_not_mentions hmentions)

theorem Removes.returned {bound' : Expr} (hb : Removes y bound) (hbound : eliminate y bound = some bound')
    (hatom : isAtom bound' = false) (hsome : eliminate y body = some (.ref x.id)) :
    Removes y (.letIn x bound guard body) := by
  refine Removes.of_node fun {X n k} hX hnk => ?_
  have hb := hb.mirrors hX (Nat.le_succ_of_le hnk)
  have hg := hg.mirrors (under_ne hx hX) hnk
  have hbody := hbody.mirrors (under_ne hx hX) hnk
  rw [hbound] at hb
  rw [hguard] at hg
  rw [hsome] at hbody
  have hleft : eliminate y (.letIn x bound guard body) = some bound' := by
    rw [(traversal_eliminate y).letIn, hbound, hguard, hsome, simplifyLet_of_isTrue htrue]
    simp [hatom, Expr.mentions, Expr.nodes, Expr.isVar]
  rw [hleft, orNothing, ← bind_pure (evaluateIn (k + 1) bound')]
  refine hb.bind fun v => .note_left (.indented_left (.note_left ?_))
  let K' : Scope (Option Value) → Prop := fun σ => Without y (under (some x.id) X) σ ∧ σ.read x.id = v
  have hK : ∀ σ, Without y X σ → K' (σ.push x.id v) := fun σ hσ => ⟨hσ.push v, Scope.read_push σ x.id v⟩
  refine mirrors_binding_known hK ?_
  refine mirrors_passed (hg.mono (fun _ hσ => hσ.1) fun _ h => h) htrue ?_
  exact (hbody.mono (fun _ hσ => hσ.1) fun _ h => h).trans (mirrors_ref_left.mono (fun _ hσ => hσ.2) fun _ h => h)

theorem Removes.onward (hb : Removes y bound) (hbound : eliminate y bound = none) (hsome : eliminate y body = some body')
    (hmentions : body'.mentions x.id = true) (hbody' : Removes x.id body') (hi : ∀ t ∈ eliminate x.id body', Inert t) :
    Removes y (.letIn x bound guard body) := by
  refine Removes.of_node fun {X n k} hX hnk => ?_
  have hb := hb.mirrors hX hnk
  have hg := hg.mirrors (under_ne hx hX) hnk
  have hbody := hbody.mirrors (under_ne hx hX) hnk
  have hbody' := hbody'.mirrors (X := fun _ => False) id (Nat.le_succ k)
  rw [hbound] at hb
  rw [hguard] at hg
  rw [hsome] at hbody
  have hleft : eliminate y (.letIn x bound guard body) = eliminate x.id body' := by
    rw [(traversal_eliminate y).letIn, hbound, hguard, hsome, simplifyLet_of_isTrue htrue, hmentions]
    rfl
  rw [hleft]
  refine mirrors_letBinding_known hb ?_
  let K' : Scope (Option Value) → Prop := fun σ => Without y (under (some x.id) X) σ ∧ σ.read x.id = none
  have hK : ∀ σ, Without y X σ → K' (σ.push x.id none) := fun σ hσ => ⟨hσ.push none, Scope.read_push σ x.id none⟩
  have hpassed : Mirrors K' Everything (evaluateIn n guard >>= fun g => if truth g then evaluateIn n body else pure none)
      (orNothing (evaluateIn (k + 1)) (eliminate x.id body')) := by
    refine mirrors_passed (hg.mono (fun _ hσ => hσ.1) fun _ h => h) htrue ?_
    exact (hbody.mono (fun _ hσ => hσ.1) fun _ h => h).trans (hbody'.mono (fun _ hσ => Or.inr hσ.2) fun _ h => h)
  cases ht : eliminate x.id body' with
  | none =>
    rw [ht] at hpassed
    exact mirrors_binding_known hK hpassed
  | some t =>
    rw [ht] at hpassed
    exact mirrors_binding_unused hK hpassed (hi t ht) (within_eliminate ht)

end

theorem Spreads.removes {e : Expr} (h : Spreads y e) : Removes y e := by
  induction h with
  | kept h =>
    refine ⟨fun {X n k} _ hnk => ?_⟩
    rw [h]
    exact mirrors_evaluateIn hnk _
  | var y =>
    refine ⟨fun {X n k} hX _ => ?_⟩
    rw [eliminate_ref]
    exact mirrors_ref_left.mono (fun σ hσ => hσ.resolve_left hX) fun _ hx => hx
  | left ho hconcat _ hnone ihl => exact ihl.left ho hconcat hnone
  | right ho hconcat hunary hi _ hnone ihr => exact ihr.right ho hconcat hunary hi hnone
  | applied ho _ _ hleft hright hsome h ht ihl ihr => exact ihl.applied ihr ho hleft hright hsome h ht
  | and _ _ hi ihl ihr => exact ihl.and ihr hi
  | or _ _ ihl ihr => exact ihl.or ihr
  | union _ _ hnone ihl ihr => exact ihl.union ihr hnone
  | tuple _ ih => exact .tuple ih
  | cond _ _ _ hi iht ihy ihn => exact .cond iht ihy ihn hi
  | noSource _ hnone ihs => exact ihs.noSource hnone
  | loop hx _ _ _ hsource hguard hsome h ihs ihg ihbody => exact .loop hx ihs ihg ihbody hsource hguard hsome h
  | binding hx _ _ _ hbound hguard hsome h ihb ihg ihbody => exact .binding hx ihb ihg ihbody hbound hguard hsome h
  | noGuard hx hi _ hnone ihg => exact .noGuard hx hi ihg hnone
  | noBody hx hi hig _ hnone ihbody => exact .noBody hx hi hig ihbody hnone
  | unused hx hi _ _ hguard htrue hsome hmentions hibody ihg ihbody =>
    exact .unused hx ihg ihbody hguard htrue hi hsome hmentions hibody
  | returned hx _ _ _ hbound hatom hguard htrue hsome ihb ihg ihbody =>
    exact .returned hx ihg ihbody hguard htrue ihb hbound hatom hsome
  | onward hx _ _ _ hbound hguard htrue hsome hmentions _ hi ihb ihg ihbody ihbody' =>
    exact .onward hx ihg ihbody hguard htrue ihb hbound hsome hmentions ihbody' hi

/-- In a session without the variable, what is left of the expression has the value that the expression has where
the variable is bound to nothing, and nothing is left only of what has no value there. -/
theorem evaluate_eliminate {b : Expr} (h : Spreads y b) {c : Setting} {s s' : Session} {v : Option Value}
    (hy : s.scope.lookup? y = none) (hb : evaluate b c { s with scope := s.scope.push y none } = (.ok v, s')) :
    ∃ t', orNothing evaluate (eliminate y b) c s = (.ok v, t') := by
  have hnear : Session.Near Everything { s with scope := s.scope.push y none } s := by
    refine ⟨fun x _ => ?_, rfl⟩
    by_cases hxy : y = x
    · subst hxy
      rw [Scope.read_push, Scope.read, hy, Option.join_none]
    · exact Scope.read_push_of_ne s.scope none hxy
  have hwithout : Without y (fun _ => False) (s.scope.push y none) := Or.inr (Scope.read_push s.scope y none)
  obtain ⟨-, t', ht', -⟩ := h.removes.mirrors id (Nat.le_refl _) c _ s v s' hwithout hnear hb
  refine ⟨t', ?_⟩
  cases ht : eliminate y b with
  | none => rwa [ht] at ht'
  | some t => rwa [ht] at ht'

/-- The expression `let x = 1 + y in (2 * x, z union y)`. -/
def sparse : Expr :=
  .letAlways ⟨1, "x"⟩ (.op .add (.int 1) (some (.ref 0)) none)
    (.tupleOf [.op .mul (.int 2) (some (.ref 1)) none, .op .union (.ref 2) (some (.ref 0)) none])

theorem evaluate_eliminate_sparse : simplify sparse = some sparse ∧ Spreads 0 sparse ∧
    ∃ t', orNothing evaluate (eliminate 0 sparse) ⟨⟨[], []⟩, .standard, .standard⟩
      { Session.new false with scope := [(2, some (.int 5))] } = (.ok (some (.int 5)), t') := by
  have hbound : Spreads 0 (.op .add (.int 1) (some (.ref 0)) none) :=
    .right rfl (by decide) rfl (Expr.inert_val rfl) (.var 0) rfl
  have hunion : Spreads 0 (.op .union (.ref 2) (some (.ref 0)) none) := by
    refine .union (.kept rfl) (fun a ha => ?_) (Or.inr rfl)
    cases ha
    exact .var 0
  have hbody : Spreads 0 (.tupleOf [.op .mul (.int 2) (some (.ref 1)) none, .op .union (.ref 2) (some (.ref 0)) none]) := by
    refine .tuple fun a ha => ?_
    simp only [List.map_cons, List.map_nil, List.mem_cons, Option.some.injEq, List.not_mem_nil, or_false] at ha
    rcases ha with rfl | rfl
    · exact .kept rfl
    · exact hunion
  have hrest : Spreads 1 (.tupleOf [.op .mul (.int 2) (some (.ref 1)) none, .ref 2]) := by
    refine .tuple fun a ha => ?_
    simp only [List.map_cons, List.map_nil, List.mem_cons, Option.some.injEq, List.not_mem_nil, or_false] at ha
    rcases ha with rfl | rfl
    · exact .right rfl (by decide) rfl (Expr.inert_val rfl) (.var 1) rfl
    · exact .kept rfl
  have h : Spreads 0 sparse := by
    refine .onward (by decide) hbound (.kept rfl) hbody rfl rfl rfl rfl rfl hrest fun t ht => ?_
    cases ht
    exact Expr.inert_ref 2
  exact ⟨rfl, h, evaluate_eliminate h rfl rfl⟩

/-- The expression `y ++ "a"`. -/
def appended : Expr :=
  .op .concat (.ref 0) (some (.str "a")) none

theorem eliminate_keeps_concat : simplify appended = some appended ∧
    (evaluate appended ⟨⟨[], []⟩, .standard, .standard⟩ { Session.new false with scope := [(0, none)] }).1 = .ok none ∧
    eliminate 0 appended = some (.str "a") ∧
    (evaluate (.str "a") ⟨⟨[], []⟩, .standard, .standard⟩ (Session.new false)).1 = .ok (some (.str "a")) :=
  ⟨rfl, rfl, rfl, rfl⟩

end Provenance.Prepare
