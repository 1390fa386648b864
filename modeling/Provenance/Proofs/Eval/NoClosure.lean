import Provenance.Proofs.Eval.Ensures
import Provenance.Proofs.Graph.Lookup

/-!
# Where closures come from

An inert expression makes no closure, so it has one for its value only if a
variable is bound to one or a record of the graph holds one
(`ensures_noClosure`).
-/

namespace Provenance

def Graph.NoClosures (g : Graph) : Prop :=
  ∀ o ∈ g.objects, ∀ r ∈ o.2, r.2.tag ≠ .lambda

namespace Operate

theorem tag_ne_lambda_of_map {α : Type} {r : Except Fault α} {f : α → Value} {w : Value}
    (hf : ∀ a, (f a).tag ≠ .lambda) (h : r.map f = .ok w) : w.tag ≠ .lambda := by
  obtain ⟨a, -, rfl⟩ := exists_of_map_eq_ok h
  exact hf a

theorem tag_ne_lambda_of_orMixed {r : Except TagMismatch Tagged} {w : Value} (h : orMixed r = .ok w) :
    w.tag ≠ .lambda := by
  cases r <;> cases h
  exact nofun

theorem tag_ne_lambda_of_binary {engine : Glob.Engine} {o : Operator} {u v w : Value} (h : binary engine o u v = .ok w) :
    w.tag ≠ .lambda := by
  have hbool : ∀ b, (Value.ofBool b).tag ≠ .lambda := fun _ => nofun
  unfold binary at h
  split at h
  case h_1 | h_2 | h_3 | h_4 | h_5 =>
    unfold arithmetic at h
    split at h
    case h_1 => exact tag_ne_lambda_of_map (f := .int) (fun _ => nofun) h
    case h_2 | h_3 | h_4 => exact tag_ne_lambda_of_map (f := .float) (fun _ => nofun) h
    case h_5 =>
      split at h
      · exact tag_ne_lambda_of_orMixed h
      · cases h
    case h_6 => cases h
  case h_6 | h_7 =>
    cases h
    exact hbool _
  case h_8 | h_9 | h_12 | h_14 => exact tag_ne_lambda_of_map hbool h
  case h_10 | h_11 | h_13 => exact tag_ne_lambda_of_map (fun b => hbool (!b)) h
  case h_15 =>
    unfold concat at h
    split at h
    · cases h
      exact nofun
    · exact tag_ne_lambda_of_orMixed h
    · cases h
  case h_16 | h_17 =>
    split at h
    · exact tag_ne_lambda_of_orMixed h
    · cases h
  case h_18 => cases h

theorem tag_ne_lambda_of_unary {o : Operator} {v w : Value} (h : unary o v = .ok w) : w.tag ≠ .lambda := by
  unfold unary at h
  split at h <;> cases h <;> exact nofun

end Operate

namespace Eval

open Provenance.Expr (Inert under)

/-- The value, if there is one, is no closure. -/
def NoClosure (v : Option Value) : Prop :=
  ∀ w, v = some w → w.tag ≠ .lambda

def NoneBound (X : VarId → Prop) (σ : Scope (Option Value)) : Prop :=
  ∀ x, X x → ∀ v, σ.lookup? x = some v → NoClosure v

theorem noClosure_none : NoClosure none := nofun

theorem noClosure_some {w : Value} (h : w.tag ≠ .lambda) : NoClosure (some w) := fun _ hv => Option.some.inj hv ▸ h

theorem NoneBound.push {X : VarId → Prop} {σ : Scope (Option Value)} {x : VarId} {v : Option Value}
    (h : NoneBound X σ) (hv : NoClosure v) : NoneBound (under (some x) X) (σ.push x v) := by
  intro y hy w hw
  by_cases hxy : x = y
  · subst hxy
    rw [Scope.lookup?_push] at hw
    cases hw
    exact hv
  · rw [Scope.lookup?_push_of_ne _ _ hxy] at hw
    exact h y (hy.resolve_left hxy) w hw

variable {c : Setting} {σ : Scope (Option Value)} {ev : Expr → Eval (Option Value)}

/-! ## Operators -/

theorem noClosure_connective {goOn : Bool} {l : Expr} {r : Option Expr} (hl : Steady (ev l))
    (hr : ∀ a ∈ r, Steady (ev a)) : Ensures c σ (connective ev goOn l r) NoClosure := by
  refine .steady_bind (respected_carriesOver.operandTruth (e := some l) hl) fun a => ?_
  split
  · exact .steady_bind (respected_carriesOver.operandTruth (respected_carriesOver.orNothing hr)) fun _ =>
      .pure (noClosure_some nofun)
  · exact .pure (noClosure_some nofun)

section
variable {o : Operator} {l : Expr} {r : Option Expr} (span : Option Span) (hl : Ensures c σ (ev l) NoClosure)
  (hr : ∀ a ∈ r, Ensures c σ (ev a) NoClosure)

theorem noClosure_orReport {r : Except Fault Value} (h : ∀ v, r = .ok v → v.tag ≠ .lambda) :
    Ensures c σ (orReport r span) NoClosure :=
  .orReport noClosure_none fun v hv => noClosure_some (h v hv)

theorem noClosure_operate {a b : Value} : Ensures c σ (operate o a b span) NoClosure :=
  .operate noClosure_none fun _ hv => noClosure_some (Operate.tag_ne_lambda_of_binary hv)

theorem noClosure_report {f : Fault} : Ensures c σ (report f span) NoClosure :=
  Ensures.report.mono fun _ h => h ▸ noClosure_none

include hr in
theorem noClosure_orNothing : Ensures c σ (orNothing ev r) NoClosure := by
  cases r with
  | none => exact .pure noClosure_none
  | some a => exact hr a rfl

include hl hr in
theorem noClosure_unite : Ensures c σ (unite ev l r span) NoClosure := by
  refine hl.bind fun a ha => (noClosure_orNothing hr).bind fun b hb => ?_
  cases a with
  | none => exact .pure hb
  | some a =>
    cases b with
    | none => exact .pure ha
    | some b => exact noClosure_operate span

theorem noClosure_applyUnary {a : Value} (ha : NoClosure (some a)) :
    Ensures c σ (applyUnary o a span) NoClosure := by
  unfold applyUnary
  split
  case h_4 => exact noClosure_orReport span fun v => Operate.tag_ne_lambda_of_unary
  all_goals exact .pure ha

theorem noClosure_lookupIndex {index key : Value} (hkey : NoClosure (some key)) :
    Ensures c σ (lookupIndex index key span) NoClosure := by
  cases index with
  | index kind =>
    refine .graph_bind (noClosure_orReport span fun v hv => ?_)
    cases kind with
    | identity =>
      cases hv
      exact hkey key rfl
    | _ =>
      cases key <;> cases hv
      all_goals exact nofun
  | _ => exact noClosure_report span

theorem noClosure_readField {object name : Value} (hg : c.graph.NoClosures) :
    Ensures c σ (readField object name span) NoClosure := by
  cases object with
  | object p =>
    cases name with
    | str s =>
      refine .graph_bind (.pure fun w hw => ?_)
      by_cases hs : s = "PNODE"
      · subst hs
        rw [Graph.number_of_attribute? hw]
        exact nofun
      · obtain ⟨rs, hrs, hr⟩ := Graph.record_of_attribute? hw hs
        exact hg _ hrs _ hr
    | _ => exact noClosure_report span
  | _ => exact noClosure_report span

theorem noClosure_applyBinary {a b : Value} (ho : o ≠ .call) (hg : c.graph.NoClosures) (hb : NoClosure (some b)) :
    Ensures c σ (applyBinary ev o a b span) NoClosure := by
  unfold applyBinary
  split
  · exact absurd rfl ho
  · exact noClosure_lookupIndex span hb
  · exact noClosure_readField span hg
  · exact noClosure_operate span

include hl hr in
theorem noClosure_strict (ho : o ≠ .call) (hg : c.graph.NoClosures) : Ensures c σ (strict ev o l r span) NoClosure := by
  refine hl.bind fun a ha => ?_
  cases a with
  | none => exact .pure noClosure_none
  | some a =>
    cases r with
    | none => exact noClosure_applyUnary span ha
    | some r =>
      refine (hr r rfl).bind fun b hb => ?_
      cases b with
      | none => exact .pure noClosure_none
      | some b => exact noClosure_applyBinary span ho hg hb

end

/-! ## Nodes -/

section
variable {x : Var} {guard body : Expr} (hg : Steady (ev guard))
include hg

theorem noClosure_guarded {a : Option Value} (hb : Ensures c (σ.push x.id a) (ev body) NoClosure) :
    Ensures c σ (guarded ev x guard body a) NoClosure := by
  refine .note_bind (.binding (.steady_bind hg fun g => ?_))
  split
  · exact hb
  · exact .pure noClosure_none

theorem noClosure_letBinding {bound : Expr} (ha : Ensures c σ (ev bound) NoClosure)
    (hb : ∀ a, NoClosure a → Ensures c (σ.push x.id a) (ev body) NoClosure) :
    Ensures c σ (letBinding ev x bound guard body) NoClosure :=
  ha.bind fun a ha => .note_bind (.indented (noClosure_guarded hg (hb a ha)))

theorem noClosure_forLoop {source : Expr} (hbody : Steady (ev body)) (hs : Ensures c σ (ev source) NoClosure)
    (hb : ∀ a, NoClosure a → Ensures c (σ.push x.id a) (ev body) NoClosure) :
    Ensures c σ (forLoop ev x source guard body) NoClosure := by
  refine hs.bind fun a ha => ?_
  cases a with
  | none => exact .pure noClosure_none
  | some a =>
    have hitem : ∀ v : Value, Steady (guarded ev x guard body (some v)) := fun v =>
      respected_carriesOver.guarded _ (hg.mono fun _ _ => Or.inr trivial) (hbody.mono fun _ _ => Or.inr trivial)
    refine .note_bind (Ensures.bind (.indented ?_) fun r hr => .note_bind (.pure hr))
    have hlist : ∀ vs : List Value, Ensures c σ (gatherAll (fun item => guarded ev x guard body (some item)) vs .empty >>=
        fun l => pure (some l.reverse.value)) NoClosure := fun vs =>
      .steady_bind (respected_carriesOver.gatherAll hitem _ _) fun _ => .pure (noClosure_some nofun)
    cases a with
    | tuple vs => exact hlist vs
    | list t vs => exact hlist vs
    | range i j =>
      rw [overSource_range]
      exact hlist _
    | all => exact .graph_bind (hlist _)
    | _ => exact noClosure_guarded hg (hb _ ha)

end

theorem noClosure_condition {test : Expr} {yes no : Option Expr} (ht : Steady (ev test))
    (hy : ∀ a ∈ yes, Ensures c σ (ev a) NoClosure) (hn : ∀ a ∈ no, Ensures c σ (ev a) NoClosure) :
    Ensures c σ (condition ev test yes no) NoClosure := by
  refine .steady_bind ht fun t => .note_bind (noClosure_orNothing ?_)
  split
  · exact hy
  · exact hn

theorem noClosure_fieldValues : ∀ {fields : List (Option Expr)}, (∀ a, some a ∈ fields → Ensures c σ (ev a) NoClosure) →
    Ensures c σ (fieldValues ev fields) fun vs => ∀ v ∈ vs, v.tag ≠ .lambda
  | [], _ => .pure nofun
  | e :: rest, h => by
    refine (noClosure_orNothing (r := e) fun a ha => h a (ha ▸ List.mem_cons_self)).bind fun v hv => ?_
    refine (noClosure_fieldValues fun a ha => h a (List.mem_cons_of_mem _ ha)).bind fun vs hvs => .pure fun w hw => ?_
    rcases List.mem_append.mp hw with hw | hw
    · exact hv w (Option.mem_toList.mp hw)
    · exact hvs w hw

theorem noClosure_tupleOf {vs : List Value} (h : ∀ v ∈ vs, v.tag ≠ .lambda) : NoClosure (tupleOf vs) := by
  match vs with
  | [] => exact noClosure_none
  | [v] => exact noClosure_some (h v List.mem_cons_self)
  | v :: v' :: rest => exact noClosure_some nofun

theorem ensures_noClosure (hg : c.graph.NoClosures) : ∀ {n : Nat} {e : Expr} {X : VarId → Prop}
    {σ : Scope (Option Value)}, Inert e → e.Within X → NoneBound X σ → Ensures c σ (evaluateIn n e) NoClosure
  | 0, _, _, _, _, _, _ => fun _ _ _ _ h => by cases h
  | n + 1, e, X, σ, hi, hX, hσ => by
    have hsteady : ∀ {x a}, (x, a) ∈ e.parts → Steady (evaluateIn n a) := fun ha => .evaluateIn (hi.part ha)
    have hpart : ∀ {a}, (none, a) ∈ e.parts → Ensures c σ (evaluateIn n a) NoClosure := fun ha =>
      ensures_noClosure hg (hi.part ha) (hX.part ha) hσ
    have hunder : ∀ {x a}, (some x, a) ∈ e.parts → ∀ v, NoClosure v →
        Ensures c (σ.push x v) (evaluateIn n a) NoClosure := fun ha v hv =>
      ensures_noClosure hg (hi.part ha) (hX.part ha) (hσ.push hv)
    refine .deeper ?_
    cases e with
    | val v =>
      refine .pure (noClosure_some fun h => ?_)
      cases v <;> cases h
      exact absurd hi.self Bool.false_ne_true
    | ref x =>
      refine .currentScope_bind ?_
      split
      · exact .pure (hσ x (hX x (List.mem_singleton_self x)) _ ‹_›)
      · exact noClosure_report none
    | op o l r span =>
      have ho := hi.operator
      simp only [node, ho.2, Bool.false_eq_true, if_false]
      refine Ensures.bind ?_ fun v hv => .note_bind (.pure hv)
      have hl : (none, l) ∈ (Expr.op o l r span).parts := Expr.left_mem_parts
      have hr : ∀ a ∈ r, (none, a) ∈ (Expr.op o l r span).parts := fun a ha => by
        rw [Option.mem_def.mp ha]
        exact Expr.right_mem_parts
      cases o with
      | logAnd => exact noClosure_connective (hsteady hl) fun a ha => hsteady (hr a ha)
      | logOr => exact noClosure_connective (hsteady hl) fun a ha => hsteady (hr a ha)
      | union => exact noClosure_unite span (hpart hl) fun a ha => hpart (hr a ha)
      | _ => exact noClosure_strict span (hpart hl) (fun a ha => hpart (hr a ha)) ho.1 hg
    | tuple fields =>
      refine Ensures.bind (noClosure_fieldValues fun a ha => hpart (by simpa [Expr.parts] using ha)) fun vs hvs => ?_
      exact .pure (noClosure_tupleOf hvs)
    | cond test yes no =>
      exact noClosure_condition (hsteady (x := none) (by simp [Expr.parts]))
        (fun a ha => hpart (by simp [Expr.parts, Option.mem_def.mp ha]))
        fun a ha => hpart (by simp [Expr.parts, Option.mem_def.mp ha])
    | forIn x source guard body =>
      exact noClosure_forLoop (hsteady (x := some x.id) (by simp [Expr.parts]))
        (hsteady (x := some x.id) (by simp [Expr.parts])) (hpart (by simp [Expr.parts]))
        (hunder (by simp [Expr.parts]))
    | letIn x bound guard body =>
      exact noClosure_letBinding (hsteady (x := some x.id) (by simp [Expr.parts])) (hpart (by simp [Expr.parts]))
        (hunder (by simp [Expr.parts]))
    | lambda x body => exact absurd hi.self Bool.false_ne_true

end Eval

end Provenance
