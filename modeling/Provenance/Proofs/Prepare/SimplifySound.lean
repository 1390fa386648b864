import Provenance.Proofs.Prepare.Inlining

/-!
# Simplification keeps the value

A pass for expressions with one more binding is sound when the pass before is
(`sound_simplifyWith`), so simplifying replaces a tidy expression by one that
says the same. `Foldable` describes such expressions node by node.
-/

namespace Provenance.Prepare

open Eval
open Provenance.Expr (under)

/-- Every tidy expression is replaced by one that says the same. -/
def Sound (f : Expr → Option Expr) : Prop :=
  ∀ {Γ : VarId → Prop} {e : Expr}, Tidy Γ e → ∃ e', f e = some e' ∧ Replaces Γ e e'

variable {Γ : VarId → Prop} {p : Pass}

theorem replaces_simplifyLet (hp : Sound p.simplify) {x : Var} {bound body : Expr} {g : Value}
    (h : Tidy Γ (.letIn x bound (.val g) body)) :
    ∃ e', simplifyLet p x (some bound) (some (.val g)) (some body) = some e' ∧
      Replaces Γ (.letIn x bound (.val g) body) e' := by
  have hlit : (!(Expr.val g).isTrueLiteral) = false := by
    cases h with
    | letIn hx hb hg htrue hbody => rw [isTrueLiteral_iff.mpr ⟨g, rfl, htrue⟩]; rfl
  simp only [simplifyLet, hlit, Bool.false_eq_true, if_false]
  by_cases hunused : (!body.mentions x.id) = true
  · rw [if_pos hunused]
    exact ⟨body, rfl, replaces_unused h (by simpa using hunused)⟩
  rw [if_neg hunused]
  by_cases hatom : isAtom bound = true
  · have hsub := replaces_substitute h hatom
    obtain ⟨e', he', hrep⟩ := hp hsub.tidy
    rw [if_pos hatom]
    exact ⟨e', he', hsub.trans hrep⟩
  rw [if_neg hatom]
  by_cases hvar : body.isVar x.id = true
  · rw [if_pos hvar]
    cases body with
    | ref y =>
      cases eq_of_beq hvar
      exact ⟨bound, rfl, replaces_bound h⟩
    | _ => cases hvar
  · rw [if_neg hvar]
    exact ⟨_, rfl, .refl h⟩

theorem exists_simplifyAll {es : List Expr}
    (h : ∀ e ∈ es, ∃ e', simplifyWith p e = some e' ∧ Replaces Γ e e') :
    ∃ es', simplifyAll p (es.map some) = es'.map some ∧ List.Forall₂ (Replaces Γ) es es' := by
  induction es with
  | nil => exact ⟨[], rfl, .nil⟩
  | cons e es ih =>
    obtain ⟨e', he', hrep⟩ := h e List.mem_cons_self
    obtain ⟨es', hes', hreps⟩ := ih fun a ha => h a (List.mem_cons_of_mem _ ha)
    exact ⟨e' :: es', by simp only [List.map_cons, simplifyAll, simplifyOpt, he', hes'], .cons hrep hreps⟩

theorem sound_simplifyWith (hp : Sound p.simplify) : Sound (simplifyWith p) := by
  intro Γ e h
  induction h with
  | val h => exact ⟨_, rfl, .refl (.val h)⟩
  | ref h => exact ⟨_, rfl, .refl (.ref h)⟩
  | @unary Γ o e span ho he ih =>
    obtain ⟨e', he', hrep⟩ := ih
    refine ⟨simplifyUnary o e' span, ?_, (follows_unary ho he hrep.follows).replaces.trans
      (replaces_simplifyUnary ho hrep.tidy)⟩
    rw [simplifyWith, he', simplifyOp_of_isUnary ho]
  | @binary Γ o l r span ho hl hr ihl ihr =>
    obtain ⟨l', hl', hrepl⟩ := ihl
    obtain ⟨r', hr', hrepr⟩ := ihr
    obtain ⟨e', he', hrep⟩ := replaces_simplifyOp ho hrepl.tidy hrepr.tidy span
    refine ⟨e', ?_, (follows_binary ho hl hr hrepl.follows hrepr.follows).replaces.trans hrep⟩
    rw [simplifyWith, hl', simplifyOpt, hr', he']
  | cond ht hy hn iht ihy ihn =>
    obtain ⟨t', ht', hrept⟩ := iht
    obtain ⟨y', hy', hrepy⟩ := ihy
    obtain ⟨n', hn', hrepn⟩ := ihn
    obtain ⟨e', he', hrep⟩ := replaces_simplifyCond hrept.tidy hrepy.tidy hrepn.tidy
    refine ⟨e', ?_, (follows_cond ht hy hn hrept.follows hrepy.follows hrepn.follows).replaces.trans hrep⟩
    rw [simplifyWith, ht', simplifyOpt, hy', simplifyOpt, hn', he']
  | @tuple Γ es hne h ih =>
    obtain ⟨es', hes', hreps⟩ := exists_simplifyAll ih
    have hfollows : Replaces Γ (.tuple (es.map some)) (.tuple (es'.map some)) :=
      (follows_tuple hne h (hreps.imp fun _ _ => Replaces.follows)).replaces
    have hne' : es' ≠ [] := by
      intro h
      subst h
      cases hreps
      exact hne rfl
    obtain ⟨e', he', hrep⟩ := replaces_simplifyTuple hne' (tidy_of_forall₂ (hreps.imp fun _ _ => Replaces.follows))
    refine ⟨e', ?_, hfollows.trans hrep⟩
    rw [simplifyWith, hes', he']
  | @letIn Γ x bound g body hx hb hg htrue hbody ihb ihbody =>
    obtain ⟨b', hb', hrepb⟩ := ihb
    obtain ⟨body', hbody', hrepbody⟩ := ihbody
    have hfollows : Replaces Γ (.letIn x bound (.val g) body) (.letIn x b' (.val g) body') :=
      (follows_letIn (.letIn hx hb hg htrue hbody) hx hrepb.follows
        (hrepbody.follows.mono eq_of_pushed)).replaces
    obtain ⟨e', he', hrep⟩ := replaces_simplifyLet hp hfollows.tidy
    refine ⟨e', ?_, hfollows.trans hrep⟩
    rw [simplifyWith, hb', hbody', simplifyWith, he']

theorem sound_pass : ∀ n, Sound (pass n).simplify
  | 0 => fun h => ⟨_, rfl, .refl h⟩
  | n + 1 => sound_simplifyWith (sound_pass n)

theorem sound_simplify : Sound simplify := fun h => sound_pass _ h

/-! ## Foldable expressions -/

/-- Whether the node by itself is a literal without floating point numbers and closures, a reference, or an
operator, a condition, a tuple or a binding with all its parts, where no call, lookup, path or condition on the
binding is involved. -/
def isFoldable : Expr → Bool
  | .val v => v.isPlain
  | .ref _ => true
  | .op o _ none _ => o.isUnary
  | .op o _ (some _) _ => joinsValues o
  | .tuple fields => !fields.isEmpty && fields.all Option.isSome
  | .cond _ yes no => yes.isSome && no.isSome
  | .letIn _ _ guard _ => guard.isTrueLiteral
  | .forIn _ _ _ _ => false
  | .lambda _ _ => false

def Foldable (e : Expr) : Prop :=
  ∀ a ∈ e.nodes, isFoldable a = true

def binder? : Expr → Option VarId
  | .forIn x _ _ _ => some x.id
  | .letIn x _ _ _ => some x.id
  | .lambda x _ => some x.id
  | .val (.lambda _ x _) => some x.id
  | _ => none

def binders (e : Expr) : List VarId :=
  e.nodes.filterMap binder?

section
variable {e a : Expr} {x : Option VarId}

theorem Foldable.self (h : Foldable e) : isFoldable e = true :=
  h e (Expr.self_mem_nodes e)

theorem Foldable.part (h : Foldable e) (ha : (x, a) ∈ e.parts) : Foldable a :=
  fun b hb => h b (Expr.nodes_subset_of_mem_parts ha hb)

theorem binders_eq (e : Expr) : binders e = (binder? e).toList ++ e.nodes.tail.filterMap binder? := by
  rw [binders, Expr.nodes_eq_cons, List.filterMap_cons, List.tail_cons]
  cases binder? e <;> rfl

theorem binders_sublist (ha : (x, a) ∈ e.parts) : (binders a).Sublist (e.nodes.tail.filterMap binder?) :=
  (Expr.nodes_sublist_of_mem_parts ha).filterMap _

theorem binder?_of_mem_parts {y : VarId} (ha : (some y, a) ∈ e.parts) : binder? e = some y := by
  cases e with
  | val v => cases ha
  | ref z => cases ha
  | op o l r span => cases (Expr.mem_parts_op.mp ha).1
  | tuple fields => cases (Expr.mem_parts_tuple.mp ha).1
  | cond test yes no => cases (Expr.mem_parts_cond.mp ha).1
  | forIn z source guard body =>
    obtain ⟨h, -⟩ | ⟨h, -⟩ | ⟨h, -⟩ := Expr.mem_parts_forIn.mp ha
    · cases h
    · exact h.symm
    · exact h.symm
  | letIn z bound guard body =>
    obtain ⟨h, -⟩ | ⟨h, -⟩ | ⟨h, -⟩ := Expr.mem_parts_letIn.mp ha
    · cases h
    · exact h.symm
    · exact h.symm
  | lambda z body => exact (Expr.mem_parts_lambda.mp ha).1.symm

theorem mem_binders_of_mem_parts {y : VarId} (ha : (some y, a) ∈ e.parts) : y ∈ binders e :=
  List.mem_filterMap.mpr ⟨e, Expr.self_mem_nodes e, binder?_of_mem_parts ha⟩

theorem not_under_of_mem_binders (ha : (x, a) ∈ e.parts) (hd : (binders e).Nodup)
    (hΓ : ∀ y ∈ binders e, ¬ Γ y) : ∀ y ∈ binders a, ¬ under x Γ y := by
  intro y hy
  have hmem : y ∈ e.nodes.tail.filterMap binder? := (binders_sublist ha).subset hy
  have hy' : ¬ Γ y := hΓ y (by rw [binders_eq]; exact List.mem_append_right _ hmem)
  cases x with
  | none => exact hy'
  | some x =>
    intro h
    rcases h with rfl | hyΓ
    · rw [binders_eq, binder?_of_mem_parts ha] at hd
      exact (List.nodup_append.mp hd).2.2 x (List.mem_singleton_self x) x hmem rfl
    · exact hy' hyΓ

theorem tidy_of_foldable : ∀ (e : Expr) {Γ : VarId → Prop}, Foldable e → (binders e).Nodup →
    (∀ y ∈ binders e, ¬ Γ y) → Expr.Within Γ e → Tidy Γ e := by
  refine Expr.parts_induction fun e ih => ?_
  intro Γ hf hd hΓ hw
  have htail : (e.nodes.tail.filterMap binder?).Sublist (binders e) := by
    rw [binders_eq]
    exact List.sublist_append_right _ _
  have hpart : ∀ {x a}, (x, a) ∈ e.parts → Tidy (under x Γ) a := fun {x a} ha =>
    ih x a ha (hf.part ha) (((binders_sublist ha).trans htail).nodup hd) (not_under_of_mem_binders ha hd hΓ) (hw.part ha)
  have hself := hf.self
  match e with
  | .val v => exact .val hself
  | .ref y => exact .ref (hw y (List.mem_singleton_self y))
  | .op o l none span => exact .unary hself (hpart Expr.left_mem_parts)
  | .op o l (some r) span => exact .binary hself (hpart Expr.left_mem_parts) (hpart Expr.right_mem_parts)
  | .tuple fields =>
    simp only [isFoldable, Bool.and_eq_true, Bool.not_eq_true', List.isEmpty_eq_false_iff, List.all_eq_true] at hself
    obtain ⟨es, rfl⟩ := Expr.exists_map_some hself.2
    refine .tuple (by simpa using hself.1) fun a ha => hpart (x := none) ?_
    rw [Expr.parts_tuple]
    exact List.mem_map_of_mem ha
  | .cond test (some yes) (some no) =>
    have hnone : ∀ {a}, (none, a) ∈ (Expr.cond test (some yes) (some no)).parts → Tidy Γ a := fun ha =>
      hpart (x := none) ha
    exact .cond (hnone (by simp [Expr.parts])) (hnone (by simp [Expr.parts])) (hnone (by simp [Expr.parts]))
  | .cond test none no => cases hself
  | .cond test (some yes) none => cases hself
  | .letIn x bound guard body =>
    obtain ⟨g, rfl, htrue⟩ := isTrueLiteral_iff.mp hself
    have hguard : Tidy (under (some x.id) Γ) (.val g) := hpart (by simp [Expr.parts])
    exact .letIn (hΓ x.id (mem_binders_of_mem_parts (a := body) (by simp [Expr.parts])))
      (hpart (x := none) (by simp [Expr.parts])) (isPlain_of_tidy hguard) htrue (hpart (by simp [Expr.parts]))

end

/-- Simplifying keeps the value of an expression that is evaluated without a report. -/
theorem evaluate_simplify {e : Expr} {c : Setting} {s s₁ : Session} {v : Option Value} (he : Foldable e)
    (hbinders : (binders e).Nodup) (hfresh : ∀ x ∈ binders e, x ∉ e.freeVars)
    (hscope : ∀ x ∈ e.freeVars, ∃ a, s.scope.lookup? x = some (some a) ∧ a.isPlain = true)
    (h : evaluate e c s = (.ok v, s₁)) (hquiet : s₁.diagnostics = s.diagnostics) :
    ∃ e', simplify e = some e' ∧ ∃ s₂, evaluate e' c s = (.ok v, s₂) ∧ s₂.diagnostics = s.diagnostics := by
  have ht : Tidy (· ∈ e.freeVars) e := tidy_of_foldable e he hbinders hfresh fun _ hy => hy
  obtain ⟨e', he', hrep⟩ := sound_simplify ht
  have hv : Gives true c s.scope (c.limits.maxDepth - s.depth) e v := ⟨s, s₁, rfl, h, fun _ => hquiet⟩
  obtain ⟨w, rfl, -⟩ := ht.hasPlain hscope v hv
  obtain ⟨s₂, hs₂, -, hq⟩ := Yields.run (Steady.evaluateIn hrep.tidy.inert) (hrep.computes hscope hv) fun _ _ => rfl
  exact ⟨e', he', s₂, hs₂, hq rfl⟩

/-- The expression `let y = 9 - x in let z = y in -(0 - (z + (y + 3)))`. -/
def countdown : Expr :=
  .letAlways ⟨1, "y"⟩ (.binary .sub (Expr.int 9) (.ref 0))
    (.letAlways ⟨2, "z"⟩ (.ref 1)
      (.unary .neg (.binary .sub (Expr.int 0) (.binary .add (.ref 2) (.binary .add (.ref 1) (Expr.int 3))))))

def sevenForX : Session :=
  { Session.new false with scope := [(0, some (.int 7))] }

theorem evaluate_simplify_countdown :
    ∃ s₁, evaluate countdown ⟨⟨[], []⟩, ⟨12, none, 0⟩, .standard⟩ sevenForX = (.ok (some (.int 7)), s₁) ∧
      ∃ e', simplify countdown = some e' ∧ ∃ s₂, evaluate e' ⟨⟨[], []⟩, ⟨12, none, 0⟩, .standard⟩ sevenForX =
        (.ok (some (.int 7)), s₂) ∧ s₂.diagnostics = sevenForX.diagnostics := by
  have hbinders : binders countdown = [1, 2] := rfl
  have hfree : countdown.freeVars = [0] := rfl
  refine ⟨_, rfl, evaluate_simplify (e := countdown) ?_ ?_ ?_ ?_ rfl rfl⟩
  · unfold Foldable
    decide
  · simp [hbinders]
  · simp [hbinders, hfree]
  · intro x hx
    rw [hfree, List.mem_singleton] at hx
    subst x
    exact ⟨.int 7, rfl, rfl⟩

end Provenance.Prepare
