import Provenance.Proofs.Eval.Ensures
import Provenance.Proofs.Eval.Gives
import Provenance.Proofs.Eval.Restores
import Provenance.Proofs.Prepare.RuleClosed

/-!
# Expressions without a value

`Valueless N e` says that `e` can be seen to have no value once the variables in
`N` have none, from how operators, conditions, tuples and bindings treat parts
without a value. Evaluation agrees, in every session and in every store
(`ensures_none`).
-/

namespace Provenance

namespace Eval

theorem Ensures.of_restores {α : Type} {m : Eval α} {c : Setting} {σ : Scope (Option Value)} (hm : Restores m) :
    Ensures c σ m fun _ => True := by
  intro s a s' hs h
  have hrest := (hm c s).scope
  rw [h] at hrest
  exact ⟨hrest.trans hs, trivial⟩

end Eval

namespace Prepare

open Eval

/-- The set with the variable in it exactly if `d`. -/
def assign (x : VarId) (d : Prop) (N : VarId → Prop) : VarId → Prop :=
  fun y => x = y ∧ d ∨ x ≠ y ∧ N y

/-- Whether the operator is applied to values only: it has none if an operand has none. -/
def isDemanding (o : Operator) : Bool :=
  isStrict o && !o.isJoin

inductive Valueless : (VarId → Prop) → Expr → Prop
  | ref {N : VarId → Prop} {x : VarId} (hx : N x) : Valueless N (.ref x)
  | left {N : VarId → Prop} {o : Operator} {l : Expr} {r : Option Expr} {span : Option Span}
      (ho : isDemanding o = true) (hl : Valueless N l) : Valueless N (.op o l r span)
  | right {N : VarId → Prop} {o : Operator} {l r : Expr} {span : Option Span}
      (ho : isDemanding o = true) (hr : Valueless N r) : Valueless N (.op o l (some r) span)
  | missing {N : VarId → Prop} {o : Operator} {l : Expr} {span : Option Span}
      (ho : isDemanding o = true) (hunary : o.isUnary = false) : Valueless N (.op o l none span)
  | union {N : VarId → Prop} {l : Expr} {r : Option Expr} {span : Option Span}
      (hl : Valueless N l) (hr : ∀ a ∈ r, Valueless N a) : Valueless N (.op .union l r span)
  | tuple {N : VarId → Prop} {fields : List (Option Expr)}
      (h : ∀ a, some a ∈ fields → Valueless N a) : Valueless N (.tuple fields)
  | cond {N : VarId → Prop} {test : Expr} {yes no : Option Expr}
      (hy : ∀ a ∈ yes, Valueless N a) (hn : ∀ a ∈ no, Valueless N a) : Valueless N (.cond test yes no)
  | passed {N : VarId → Prop} {test : Expr} {yes no : Option Expr}
      (ht : test.isTrueLiteral = true) (hy : ∀ a ∈ yes, Valueless N a) : Valueless N (.cond test yes no)
  | untested {N : VarId → Prop} {test : Expr} {yes no : Option Expr}
      (ht : Valueless N test) (hy : ∀ a ∈ yes, Valueless N a) : Valueless N (.cond test yes no)
  | failed {N : VarId → Prop} {test : Expr} {yes no : Option Expr}
      (ht : test.isFalseLiteral = true) (hn : ∀ a ∈ no, Valueless N a) : Valueless N (.cond test yes no)
  | source {N : VarId → Prop} {x : Var} {source guard body : Expr}
      (hs : Valueless N source) : Valueless N (.forIn x source guard body)
  | guard {N : VarId → Prop} {x : Var} {bound guard body : Expr} (d : Prop)
      (hd : d → Valueless N bound) (hg : Valueless (assign x.id d N) guard) : Valueless N (.letIn x bound guard body)
  | body {N : VarId → Prop} {x : Var} {bound guard body : Expr} (d : Prop)
      (hd : d → Valueless N bound) (hbody : Valueless (assign x.id d N) body) : Valueless N (.letIn x bound guard body)

theorem isDemanding_iff {o : Operator} : isDemanding o = true ↔ isStrict o = true ∧ o.isJoin = false := by
  simp [isDemanding]

theorem assign_mono {x : VarId} {d d' : Prop} {N M : VarId → Prop} (hd : d → d') (h : ∀ y, N y → M y) :
    ∀ y, assign x d N y → assign x d' M y :=
  fun y => Or.imp (And.imp id hd) (And.imp id (h y))

theorem Valueless.mono {N M : VarId → Prop} {e : Expr} (h : Valueless N e) (hNM : ∀ x, N x → M x) :
    Valueless M e := by
  induction h generalizing M with
  | ref hx => exact .ref (hNM _ hx)
  | left ho _ ih => exact .left ho (ih hNM)
  | right ho _ ih => exact .right ho (ih hNM)
  | missing ho hunary => exact .missing ho hunary
  | union _ _ ihl ihr => exact .union (ihl hNM) fun a ha => ihr a ha hNM
  | tuple _ ih => exact .tuple fun a ha => ih a ha hNM
  | cond _ _ ihy ihn => exact .cond (fun a ha => ihy a ha hNM) fun a ha => ihn a ha hNM
  | passed ht _ ih => exact .passed ht fun a ha => ih a ha hNM
  | untested _ _ iht ihy => exact .untested (iht hNM) fun a ha => ihy a ha hNM
  | failed ht _ ih => exact .failed ht fun a ha => ih a ha hNM
  | source _ ih => exact .source (ih hNM)
  | guard d _ _ ihb ihg => exact .guard d (fun hd => ihb hd hNM) (ihg (assign_mono id hNM))
  | body d _ _ ihb ihbody => exact .body d (fun hd => ihb hd hNM) (ihbody (assign_mono id hNM))

/-! ## What the rules make of parts with a value -/

section
variable {N : VarId → Prop} {o : Operator} {l : Expr} {r : Option Expr} {span : Option Span}

theorem not_valueless_val (v : Value) : ¬ Valueless N (.val v) := nofun

theorem not_valueless_connective (ho : o = .logAnd ∨ o = .logOr) : ¬ Valueless N (.op o l r span) := by
  intro h
  rcases ho with rfl | rfl <;> cases h <;> contradiction

/-- An expression that has to have a value for an operator to have one. -/
theorem ruleClosed_not_valueless : RuleClosed fun e => ¬ Valueless N e where
  val _ := not_valueless_val _
  unary ho he h := by
    cases h with
    | left _ hl => exact he hl
    | missing _ hunary => rw [ho] at hunary; cases hunary
    | union => cases ho
  binary _ _ hl hr h := by
    cases h with
    | left _ hl' => exact hl hl'
    | right _ hr' => exact hr hr'
    | union hl' _ => exact hl hl'
  left {o} _ _ _ ho h hl := h (.left (by cases o <;> first | rfl | cases ho) hl)
  right {o} _ _ _ ho h hr := h (.right (by cases o <;> first | rfl | cases ho) hr)

theorem not_valueless_rightSide {r : Expr} (ho : o = .logAnd ∨ o = .logOr) : ¬ Valueless N (rightSide o l r span) := by
  unfold rightSide
  split
  · exact not_valueless_val _
  · exact not_valueless_connective (Or.inl rfl)
  · exact not_valueless_connective (Or.inr rfl)
  · exact not_valueless_connective ho

theorem not_valueless_simplifyAnd {l r : Option Expr} : ¬ Valueless N (simplifyAnd l r span) := by
  unfold simplifyAnd
  split
  · split
    · exact not_valueless_rightSide (Or.inl rfl)
    · split
      · exact not_valueless_val _
      · exact not_valueless_connective (Or.inl rfl)
  · exact not_valueless_val _

theorem not_valueless_simplifyOr {l r : Option Expr} : ¬ Valueless N (simplifyOr l r span) := by
  have hor : ∀ {l : Expr} {r : Option Expr}, ¬ Valueless N (.op .logOr l r span) := not_valueless_connective (Or.inr rfl)
  unfold simplifyOr
  split
  · exact not_valueless_val _
  · exact not_valueless_rightSide (Or.inr rfl)
  · split
    · exact not_valueless_val _
    · split
      · exact not_valueless_val _
      · exact hor
  · split
    · exact not_valueless_val _
    · split
      · exact not_valueless_rightSide (Or.inr rfl)
      · exact hor

end

/-! ## Evaluation agrees -/

section
variable {c : Setting} {σ : Scope (Option Value)} {ev : Expr → Eval (Option Value)} {o : Operator} {l : Expr}
  {r : Option Expr} {span : Option Span}

theorem ensures_operation (ho : isStrict o = true) {P : Option Value → Prop} (h : Ensures c σ (strict ev o l r span) P) :
    Ensures c σ (operation ev o l r span) P := by
  rwa [operation_of_isStrict _ ho]

theorem ensures_strict_left (hl : Ensures c σ (ev l) (· = none)) : Ensures c σ (strict ev o l r span) (· = none) := by
  refine hl.bind fun v hv => ?_
  subst hv
  exact .pure rfl

theorem ensures_strict_right {r : Expr} (hev : Restores (ev l)) (hr : Ensures c σ (ev r) (· = none)) :
    Ensures c σ (strict ev o l (some r) span) (· = none) := by
  refine (Ensures.of_restores hev).bind fun v _ => ?_
  cases v with
  | none => exact .pure rfl
  | some a =>
    refine hr.bind fun w hw => ?_
    subst hw
    exact .pure rfl

theorem applyUnary_of_not_isUnary (ho : o.isUnary = false) (a : Value) :
    applyUnary o a span = report (.invalidOperands o a.tag none) span := by
  cases o <;> first | rfl | cases ho

theorem ensures_strict_missing (hev : Restores (ev l)) (ho : o.isUnary = false) :
    Ensures c σ (strict ev o l none span) (· = none) := by
  refine (Ensures.of_restores hev).bind fun v _ => ?_
  cases v with
  | none => exact .pure rfl
  | some a =>
    simp only
    rw [applyUnary_of_not_isUnary ho]
    exact .report

theorem ensures_orNothing {e : Option Expr} (he : ∀ a ∈ e, Ensures c σ (ev a) (· = none)) :
    Ensures c σ (orNothing ev e) (· = none) := by
  cases e with
  | none => exact .pure rfl
  | some a => exact he a rfl

theorem ensures_unite (hl : Ensures c σ (ev l) (· = none)) (hr : ∀ a ∈ r, Ensures c σ (ev a) (· = none)) :
    Ensures c σ (unite ev l r span) (· = none) := by
  refine hl.bind fun v hv => (ensures_orNothing hr).bind fun w hw => ?_
  subst hv
  subst hw
  exact .pure rfl

theorem ensures_fieldValues : ∀ {fields : List (Option Expr)},
    (∀ a, some a ∈ fields → Ensures c σ (ev a) (· = none)) → Ensures c σ (fieldValues ev fields) (· = [])
  | [], _ => .pure rfl
  | e :: rest, h => by
    have he : Ensures c σ (orNothing ev e) (· = none) := ensures_orNothing fun a ha => h a (ha ▸ List.mem_cons_self)
    have hrest : Ensures c σ (fieldValues ev rest) (· = []) :=
      ensures_fieldValues fun a ha => h a (List.mem_cons_of_mem _ ha)
    refine he.bind fun v hv => hrest.bind fun vs hvs => ?_
    subst hv
    subst hvs
    exact .pure rfl

theorem ensures_condition {test : Expr} {yes no : Option Expr} {T : Option Value → Prop} (ht : Ensures c σ (ev test) T)
    (htaken : ∀ t, T t → ∀ a ∈ (if t.all Value.isTrue then yes else no), Ensures c σ (ev a) (· = none)) :
    Ensures c σ (condition ev test yes no) (· = none) :=
  ht.bind fun t h => .note_bind (ensures_orNothing (htaken t h))

theorem ensures_letBinding {x : Var} {bound guard body : Expr} {B : Option Value → Prop}
    {G : Option Value → Option Value → Prop} (hb : Ensures c σ (ev bound) B)
    (hg : ∀ v, B v → Ensures c (σ.push x.id v) (ev guard) (G v))
    (hbody : ∀ v g, B v → G v g → truth g = true → Ensures c (σ.push x.id v) (ev body) (· = none)) :
    Ensures c σ (letBinding ev x bound guard body) (· = none) := by
  refine hb.bind fun v hv => .note_bind (.indented (.note_bind (.binding ((hg v hv).bind fun g h => ?_))))
  split
  · exact hbody v g hv h ‹_›
  · exact .pure rfl

theorem ensures_evaluateIn {n : Nat} {e : Expr} {P : Option Value → Prop}
    (h : ∀ k, Ensures c σ (node (evaluateIn k) e) P) : Ensures c σ (evaluateIn n e) P := by
  cases n with
  | zero =>
    intro s a s' _ h
    cases h
  | succ k => exact (h k).deeper

theorem ensures_val {n : Nat} {a : Value} : Ensures c σ (evaluateIn n (.val a)) (· = some a) :=
  ensures_evaluateIn fun _ => .pure rfl

theorem ensures_if {n : Nat} {e : Expr} {d : Prop} {P : Option Value → Prop}
    (h : d → Ensures c σ (evaluateIn n e) P) : Ensures c σ (evaluateIn n e) fun v => d → P v := by
  by_cases hd : d
  · exact (h hd).mono fun _ hv _ => hv
  · exact (Ensures.of_restores (restores_evaluateIn n e)).mono fun _ _ hd' => absurd hd' hd

theorem ensures_op {n : Nat} {P : Option Value → Prop} (ho : o.isJoin = false)
    (h : ∀ k, Ensures c σ (operation (evaluateIn k) o l r span) P) : Ensures c σ (evaluateIn n (.op o l r span)) P := by
  refine ensures_evaluateIn fun k => ?_
  simp only [node, ho]
  exact (h k).bind fun a ha => .note_bind (.pure ha)

end

def Lacks (N : VarId → Prop) (σ : Scope (Option Value)) : Prop :=
  ∀ x, N x → σ.lookup? x = some none

theorem Lacks.push {N : VarId → Prop} {σ : Scope (Option Value)} {x : VarId} {d : Prop} {v : Option Value}
    (h : Lacks N σ) (hd : d → v = none) : Lacks (assign x d N) (σ.push x v) := by
  intro y hy
  rcases hy with ⟨rfl, hdy⟩ | ⟨hxy, hy⟩
  · rw [Scope.lookup?_push, hd hdy]
  · rw [Scope.lookup?_push_of_ne _ _ hxy, h y hy]

theorem Valueless.ensures_none {N : VarId → Prop} {e : Expr} (h : Valueless N e) {c : Setting}
    {σ : Scope (Option Value)} (hσ : Lacks N σ) (n : Nat) : Ensures c σ (evaluateIn n e) (· = none) := by
  induction h generalizing σ n with
  | @ref N x hx =>
    refine ensures_evaluateIn fun k => .currentScope_bind ?_
    rw [hσ x hx]
    exact .pure rfl
  | left ho _ ih =>
    obtain ⟨hstrict, hjoin⟩ := isDemanding_iff.mp ho
    exact ensures_op hjoin fun k => ensures_operation hstrict (ensures_strict_left (ih hσ k))
  | right ho _ ih =>
    obtain ⟨hstrict, hjoin⟩ := isDemanding_iff.mp ho
    exact ensures_op hjoin fun k =>
      ensures_operation hstrict (ensures_strict_right (restores_evaluateIn k _) (ih hσ k))
  | missing ho hunary =>
    obtain ⟨hstrict, hjoin⟩ := isDemanding_iff.mp ho
    exact ensures_op hjoin fun k =>
      ensures_operation hstrict (ensures_strict_missing (restores_evaluateIn k _) hunary)
  | union _ _ ihl ihr => exact ensures_op rfl fun k => ensures_unite (ihl hσ k) fun a ha => ihr a ha hσ k
  | tuple _ ih =>
    refine ensures_evaluateIn fun k => (ensures_fieldValues fun a ha => ih a ha hσ k).bind fun vs hvs => ?_
    subst hvs
    exact .pure rfl
  | cond _ _ ihy ihn =>
    refine ensures_evaluateIn fun k => ensures_condition (Ensures.of_restores (restores_evaluateIn k _)) ?_
    intro t _ a ha
    split at ha
    · exact ihy a ha hσ k
    · exact ihn a ha hσ k
  | passed ht _ ih =>
    obtain ⟨b, rfl, hb⟩ := isTrueLiteral_iff.mp ht
    refine ensures_evaluateIn fun k => ensures_condition ensures_val ?_
    intro t ht a ha
    rw [ht, Option.all_some, if_pos hb] at ha
    exact ih a ha hσ k
  | untested _ _ iht ihy =>
    refine ensures_evaluateIn fun k => ensures_condition (iht hσ k) ?_
    intro t ht a ha
    subst ht
    exact ihy a ha hσ k
  | failed ht _ ih =>
    obtain ⟨b, rfl, hb⟩ := isFalseLiteral_iff.mp ht
    refine ensures_evaluateIn fun k => ensures_condition ensures_val ?_
    intro t ht a ha
    rw [ht, Option.all_some, if_neg (by simp [hb])] at ha
    exact ih a ha hσ k
  | source _ ih =>
    refine ensures_evaluateIn fun k => (ih hσ k).bind fun v hv => ?_
    subst hv
    exact .pure rfl
  | @guard N x bound guard body d _ _ ihb ihg =>
    refine ensures_evaluateIn fun k => ensures_letBinding (ensures_if fun hd => ihb hd hσ k)
      (fun v hv => ihg (hσ.push hv) k) ?_
    intro v g _ hg htrue
    subst hg
    cases htrue
  | @body N x bound guard body d _ _ ihb ihbody =>
    refine ensures_evaluateIn fun k => ensures_letBinding (ensures_if fun hd => ihb hd hσ k)
      (fun v _ => Ensures.of_restores (restores_evaluateIn k guard)) ?_
    intro v g hv _ _
    exact ihbody (hσ.push hv) k

end Prepare

end Provenance
