import Provenance.Proofs.Eval.Rescoped
import Provenance.Proofs.Prepare.Intact
import Provenance.Proofs.Prepare.SimplifySound

/-!
# A value in the place of its variable

A direct expression that does not bind `x` itself fares where `x` is bound to a
value as it does, without that binding, with the value written in the place of
`x` (`evaluate_substitute`). What evaluation binds on its way lies above the
binding of `x` on the one side, and takes nothing away from it.
-/

namespace Provenance

namespace Eval

open Provenance.Expr (under substitute substituteOpt)

/-! ## Nodes -/

namespace Respected

variable {R : (VarId → Prop) → ∀ {α : Type}, Eval α → Eval α → Prop} (h : Respected R) {X : VarId → Prop}
  {ev ev' : Expr → Eval (Option Value)} {x : VarId} {b : Expr}

include h

theorem orNothing_substitute {e : Option Expr} (he : ∀ a ∈ e, R X (ev a) (ev' (substitute x b a))) :
    R X (Eval.orNothing ev e) (Eval.orNothing ev' (substituteOpt x b e)) := by
  cases e with
  | none => exact h.pure _
  | some a => exact he a rfl

/-- Unless it is the variable itself, a node is related to the one that it becomes if this holds of its parts. -/
theorem node_substitute {e : Expr} (hi : e.isDirect = true) (hX : ∀ y, x ≠ y → X y) (hne : e ≠ .ref x)
    (hp : ∀ z a, (z, a) ∈ e.parts → R (under z X) (ev a) (ev' (substitute x b a))) :
    R X (Eval.node ev e) (Eval.node ev' (substitute x b e)) := by
  cases e with
  | val v => exact h.pure _
  | ref y =>
    have hxy : y ≠ x := fun heq => hne (congrArg Expr.ref heq)
    rw [substitute, if_neg hxy]
    exact h.readVar (hX y hxy.symm)
  | lambda y body => cases hi
  | forIn y source guard body =>
    exact h.forLoop (hp none source (by simp [Expr.parts])) (hp (some y.id) guard (by simp [Expr.parts]))
      (hp (some y.id) body (by simp [Expr.parts]))
  | letIn y bound guard body =>
    exact h.letBinding (hp none bound (by simp [Expr.parts])) (hp (some y.id) guard (by simp [Expr.parts]))
      (hp (some y.id) body (by simp [Expr.parts]))
  | cond test yes no =>
    refine h.condition (hp none test (by simp [Expr.parts])) (h.orNothing_substitute fun a ha => hp none a ?_)
      (h.orNothing_substitute fun a ha => hp none a ?_)
    · exact Expr.mem_parts_cond.mpr ⟨rfl, Or.inr (Or.inl ha)⟩
    · exact Expr.mem_parts_cond.mpr ⟨rfl, Or.inr (Or.inr ha)⟩
  | tuple fields =>
    refine h.bind (h.fieldValues ?_) fun _ => h.pure _
    rw [Prepare.substituteAll_eq, List.forall₂_map_right_iff, List.forall₂_same]
    intro field hfield
    rw [← Prepare.substituteOpt_eq]
    exact h.orNothing_substitute fun a ha => hp none a (Expr.mem_parts_tuple.mpr ⟨rfl, ha ▸ hfield⟩)
  | op o left right span =>
    simp only [Expr.isDirect, Bool.and_eq_true, bne_iff_ne, Bool.not_eq_true'] at hi
    have hright : R X (Eval.orNothing ev right) (Eval.orNothing ev' (substituteOpt x b right)) :=
      h.orNothing_substitute fun a ha => hp none a (Expr.mem_parts_op.mpr ⟨rfl, Or.inr ha⟩)
    have hsome : right.isSome = (substituteOpt x b right).isSome := by cases right <;> rfl
    simp only [substitute, Eval.node, hi.2]
    exact h.bind (h.operation (hp none left Expr.left_mem_parts) hright span hsome fun _ _ =>
      h.applyBinary hi.1 _ _ span) fun _ => h.bind (h.note _) fun _ => h.pure _

end Respected

/-! ## The binding that is done without -/

/-- Other than the first computation, the second does without the binding of `x` to `v`. In `X` are the variables that
read the same, `x` among them once it is bound anew. -/
def WithoutBinding (x : VarId) (v : Value) (X : VarId → Prop) {α : Type} (m m' : Eval α) : Prop :=
  ∀ c s σ, (∀ y, X y → s.scope.lookup? y = σ.lookup? y) → (¬ X x → s.scope.lookup? x = some (some v)) →
    Rescoped m m' c s σ

theorem respected_withoutBinding (x : VarId) (v : Value) : Respected (WithoutBinding x v) where
  pure _ _ _ _ _ _ := ⟨rfl, rfl⟩
  bind hm hf c s σ hX hx := by
    have h := hm c s σ hX hx
    exact h.bind fun a _ => hf a c _ σ (h.scope ▸ hX) (h.scope ▸ hx)
  note _ _ _ _ _ _ := ⟨rfl, rfl⟩
  report _ _ _ _ _ _ _ := ⟨rfl, rfl⟩
  graph _ _ _ _ _ := ⟨rfl, rfl⟩
  library _ _ _ _ _ := ⟨rfl, rfl⟩
  readVar hy _ _ _ hX _ := .readVar (hX _ hy)
  indented hm c s σ hX hx := (hm c (enter s) σ hX hx).indented
  binding y w hm c s σ hX hx := by
    refine (hm c _ _ (lookup?_push_congr hX) fun hxX => ?_).binding
    -- Not in the larger set, `x` is not what is bound here.
    have hne : y ≠ x := fun h => hxX (Or.inl h)
    exact (Scope.lookup?_push_of_ne _ _ hne).trans (hx fun h => hxX (Or.inr h))

variable {x : VarId} {v : Value} {X : VarId → Prop}

theorem WithoutBinding.deeper {α : Type} {m m' : Eval α} (h : WithoutBinding x v X m m') :
    WithoutBinding x v X (deeper m) (deeper m') := fun c s σ hX hx =>
  (h c { s with depth := s.depth + 1 } σ hX hx).deeper

/-- The variable itself takes one level, and so does the value in its place. -/
theorem withoutBinding_readVar (hx : ¬ X x) : WithoutBinding x v X (readVar x) (pure (some v)) := by
  intro c s σ _ hbound
  have hread := readVar_of_bound (c := c) (hbound hx)
  exact ⟨by rw [hread]; rfl, by rw [hread]⟩

theorem withoutBinding_evaluateIn : ∀ (n : Nat) {X : VarId → Prop} {e : Expr}, e.Direct → x ∉ Prepare.binders e →
    (∀ y, X y ↔ x ≠ y) → WithoutBinding x v X (evaluateIn n e) (evaluateIn n (substitute x (.val v) e))
  | 0, _, _, _, _, _ => fun _ _ _ _ _ => ⟨rfl, rfl⟩
  | n + 1, X, e, he, hbinders, hX => by
    have hpart : ∀ z a, (z, a) ∈ e.parts →
        WithoutBinding x v (under z X) (evaluateIn n a) (evaluateIn n (substitute x (.val v) a)) := by
      intro z a ha
      refine withoutBinding_evaluateIn n (he.part ha) (fun hx => hbinders ?_) fun y => ?_
      · rw [Prepare.binders_eq]
        exact List.mem_append_right _ ((Prepare.binders_sublist ha).subset hx)
      · cases z with
        | none => exact hX y
        | some z =>
          have hzx : x ≠ z := fun hxz => hbinders (hxz ▸ Prepare.mem_binders_of_mem_parts ha)
          exact ⟨fun h => h.elim (fun hzy => hzy ▸ hzx) (hX y).mp, fun h => Or.inr ((hX y).mpr h)⟩
    by_cases hex : e = .ref x
    · subst hex
      rw [substitute, if_pos rfl]
      exact (withoutBinding_readVar fun hx => (hX x).mp hx rfl).deeper
    · exact ((respected_withoutBinding x v).node_substitute he.self (fun y => (hX y).mpr) hex hpart).deeper

end Eval

namespace Prepare

open Eval (evaluate)
open Provenance.Expr (substitute)

/-- With the value in the place of the variable an expression comes to the same outcome, with the same reports and the
same trace, as with the variable bound to it. -/
theorem evaluate_substitute {e : Expr} {x : VarId} (v : Value) (c : Setting) (s : Session) (he : e.Direct)
    (hx : x ∉ binders e) :
    evaluate (substitute x (.val v) e) c s =
      ((evaluate e c { s with scope := s.scope.push x (some v) }).1,
        { (evaluate e c { s with scope := s.scope.push x (some v) }).2 with scope := s.scope }) := by
  have h := Eval.withoutBinding_evaluateIn (v := v) (c.limits.maxDepth - s.depth) he hx (fun y => Iff.rfl) c
    { s with scope := s.scope.push x (some v) } s.scope (fun y hy => Scope.lookup?_push_of_ne _ _ hy)
    fun _ => Scope.lookup?_push _ _ _
  exact h.same

/-- The query `let y = n + 1 in for x in (n, y) do if x == n then x / 0 else (x * n, gone)`. -/
def unsafeFirst : Expr :=
  .letAlways ⟨1, "y"⟩ (.binary .add (.ref 0) (.int 1)) (.forIn ⟨2, "x"⟩ (.tupleOf [.ref 0, .ref 1]) (.int 1)
    (.ifElse (.binary .eq (.ref 2) (.ref 0)) (.binary .div (.ref 2) (.int 0))
      (.tupleOf [.binary .mul (.ref 2) (.ref 0), .ref 3])))

theorem evaluate_substitute_unsafeFirst :
    (evaluate (substitute 0 (.val (.int 3)) unsafeFirst) ⟨⟨[], []⟩, ⟨10, none, 10⟩, .standard⟩ (.new true)).1 =
        .ok (some (.listOf [.int 12])) ∧
      (evaluate (substitute 0 (.val (.int 3)) unsafeFirst) ⟨⟨[], []⟩, ⟨10, none, 10⟩, .standard⟩ (.new true)).2.diagnostics =
        #[⟨.divisionByZero, none⟩, ⟨.unboundVariable 3, none⟩] := by
  have he : unsafeFirst.Inert := by
    unfold Expr.Inert
    decide
  have hx : 0 ∉ binders unsafeFirst := by decide
  rw [evaluate_substitute (.int 3) ⟨⟨[], []⟩, ⟨10, none, 10⟩, .standard⟩ (.new true) he hx]
  exact ⟨rfl, rfl⟩

end Prepare

end Provenance
