import Provenance.Proofs.Prepare.Scoping
import Provenance.Proofs.Prepare.Stable
import Provenance.Proofs.Value.Domain

/-!
# Preparation stays in a domain

All that preparation puts into a query are numbers, texts, tuples of literals
that were there, and lookups in the place of scans. So if a domain has the
expressions whose literals it has, and if it has the indices, then what
preparation makes of an expression in the domain is in the domain again
(`Query.expr_prepare`).
-/

namespace Provenance

namespace Domain

/-- Expressions are of the domain if the literals in them are. -/
structure Composed (D : Domain) : Prop where
  closed : D.Closed
  node : ∀ {e}, (∀ v, e = .val v → D.value v) → (∀ x a, (x, a) ∈ e.parts → D.expr a) → D.expr e
  index : ∀ kind, D.value (.index kind)

namespace Composed

variable {D : Domain} {x : Var} {o : Operator} {l test source bound guard body : Expr} {r yes no : Option Expr}
variable {span : Option Span}

variable (hD : D.Composed)
include hD

theorem val {v : Value} (h : D.value v) : D.expr (.val v) :=
  hD.node (fun w hw => by cases hw; exact h) fun _ _ ha => by cases ha

theorem op (hl : D.expr l) (hr : ∀ a ∈ r, D.expr a) : D.expr (.op o l r span) := by
  refine hD.node (fun _ hv => by cases hv) fun y a ha => ?_
  obtain ⟨-, rfl | ha⟩ := Expr.mem_parts_op.mp ha
  · exact hl
  · exact hr a ha

theorem tuple {fields : List (Option Expr)} (h : ∀ a, some a ∈ fields → D.expr a) : D.expr (.tuple fields) :=
  hD.node (fun _ hv => by cases hv) fun _ a ha => h a (Expr.mem_parts_tuple.mp ha).2

theorem cond (ht : D.expr test) (hy : ∀ a ∈ yes, D.expr a) (hn : ∀ a ∈ no, D.expr a) : D.expr (.cond test yes no) := by
  refine hD.node (fun _ hv => by cases hv) fun y a ha => ?_
  obtain ⟨-, rfl | ha | ha⟩ := Expr.mem_parts_cond.mp ha
  · exact ht
  · exact hy a ha
  · exact hn a ha

theorem forIn (hs : D.expr source) (hg : D.expr guard) (hbody : D.expr body) : D.expr (.forIn x source guard body) := by
  refine hD.node (fun _ hv => by cases hv) fun y a ha => ?_
  obtain ⟨-, rfl⟩ | ⟨-, rfl⟩ | ⟨-, rfl⟩ := Expr.mem_parts_forIn.mp ha
  · exact hs
  · exact hg
  · exact hbody

theorem letIn (hb : D.expr bound) (hg : D.expr guard) (hbody : D.expr body) : D.expr (.letIn x bound guard body) := by
  refine hD.node (fun _ hv => by cases hv) fun y a ha => ?_
  obtain ⟨-, rfl⟩ | ⟨-, rfl⟩ | ⟨-, rfl⟩ := Expr.mem_parts_letIn.mp ha
  · exact hb
  · exact hg
  · exact hbody

theorem lambda (h : D.expr body) : D.expr (.lambda x body) := by
  refine hD.node (fun _ hv => by cases hv) fun y a ha => ?_
  obtain ⟨-, rfl⟩ := Expr.mem_parts_lambda.mp ha
  exact h

end Composed

end Domain

namespace Prepare

open Provenance.Expr (substitute)
open Guard (Lookups)

variable {D : Domain} {p : Pass} {f : Expr → Option Expr} {n : Nat} {e l : Expr} {o : Operator} {span : Option Span}

/-! ## Nodes -/

section
variable (hD : D.Composed)
include hD

theorem ruleClosed_expr : RuleClosed D.expr where
  val {v} h := by
    cases v with
    | int m => exact hD.val (hD.closed.int m)
    | float y => exact hD.val (hD.closed.float y)
    | str s => exact hD.val (hD.closed.str s)
    | _ => cases h
  unary _ he := hD.op he fun _ ha => by cases ha
  binary _ _ hl hr := hD.op hl fun _ ha => by cases ha; exact hr
  left _ h := hD.closed.part h Expr.left_mem_parts
  right _ h := hD.closed.part h Expr.right_mem_parts

theorem expr_simplifyOp {l r : Option Expr} (hl : ∀ a ∈ l, D.expr a) (hr : ∀ a ∈ r, D.expr a) :
    ∀ t ∈ simplifyOp o l r span, D.expr t :=
  (ruleClosed_expr hD).simplifyOp_of_binary (fun hl hr => hD.op hl fun _ ha => by cases ha; exact hr) hl hr

theorem expr_simplifyLoop {x : Var} {source guard body : Option Expr} (hs : ∀ a ∈ source, D.expr a)
    (hg : ∀ a ∈ guard, D.expr a) (hbody : ∀ a ∈ body, D.expr a) : ∀ t ∈ simplifyLoop x source guard body, D.expr t := by
  intro t ht
  obtain ht | ⟨s, hsource, g, hguard, b, hb, rfl⟩ := mem_simplifyLoop ht
  · exact hs t ht
  · exact hD.forIn (hs s hsource) (hg g hguard) (hbody b hb)

theorem expr_simplifyCond {test yes no : Option Expr} (ht : ∀ a ∈ test, D.expr a) (hy : ∀ a ∈ yes, D.expr a)
    (hn : ∀ a ∈ no, D.expr a) : ∀ t ∈ simplifyCond test yes no, D.expr t := by
  intro t h
  obtain h | h | ⟨e, he, rfl⟩ := mem_simplifyCond h
  · exact hy t h
  · exact hn t h
  · exact hD.cond (ht e he) hy hn

theorem expr_simplifyTuple {fields : List (Option Expr)} (h : ∀ a, some a ∈ fields → D.expr a) :
    ∀ t ∈ simplifyTuple fields, D.expr t := by
  intro t ht
  obtain ht | ⟨vs, hvs, rfl⟩ | ⟨es, hes, rfl⟩ := mem_simplifyTuple ht
  · exact h t ht
  · exact hD.val (hD.closed.tuple.mpr fun v hv => hD.closed.literal (h _ (hvs v hv)))
  · refine hD.tuple fun a ha => ?_
    obtain ⟨b, hb, heq⟩ := List.mem_map.mp ha
    cases heq
    exact h a (hes a hb)

theorem expr_substitute {x : VarId} {b : Expr} (hb : D.expr b) : ∀ e, D.expr e → D.expr (substitute x b e) := by
  refine Expr.parts_induction fun e ih he => ?_
  have hpart : ∀ {y a}, (y, a) ∈ e.parts → D.expr (substitute x b a) := fun ha => ih _ _ ha (hD.closed.part he ha)
  cases e with
  | val v => exact he
  | ref y =>
    rw [substitute]
    by_cases hy : y = x
    · rwa [if_pos hy]
    · rwa [if_neg hy]
  | op o l r span =>
    exact hD.op (hpart Expr.left_mem_parts)
      (forall_mem_substituteOpt fun a ha => hpart (Expr.mem_parts_op.mpr ⟨rfl, Or.inr ha⟩))
  | tuple fields =>
    rw [substitute, substituteAll_eq]
    refine hD.tuple fun t ht => ?_
    obtain ⟨a, ha, hat⟩ := List.mem_map.mp ht
    obtain ⟨a, rfl, rfl⟩ := Option.map_eq_some_iff.mp hat
    exact hpart (Expr.mem_parts_tuple.mpr ⟨rfl, ha⟩)
  | cond test yes no =>
    exact hD.cond (hpart (Expr.mem_parts_cond.mpr ⟨rfl, Or.inl rfl⟩))
      (forall_mem_substituteOpt fun a ha => hpart (Expr.mem_parts_cond.mpr ⟨rfl, Or.inr (Or.inl ha)⟩))
      (forall_mem_substituteOpt fun a ha => hpart (Expr.mem_parts_cond.mpr ⟨rfl, Or.inr (Or.inr ha)⟩))
  | forIn y source guard body =>
    exact hD.forIn (hpart (y := none) (by simp [Expr.parts])) (hpart (y := some y.id) (by simp [Expr.parts]))
      (hpart (y := some y.id) (by simp [Expr.parts]))
  | letIn y bound guard body =>
    exact hD.letIn (hpart (y := none) (by simp [Expr.parts])) (hpart (y := some y.id) (by simp [Expr.parts]))
      (hpart (y := some y.id) (by simp [Expr.parts]))
  | lambda y body => exact hD.lambda (hpart (Expr.mem_parts_lambda.mpr ⟨rfl, rfl⟩))

end

/-! ## Simplification -/

/-- The passes stay in the domain, as far as expressions with fewer than `n` bindings go. -/
structure Pass.StaysIn (D : Domain) (n : Nat) (p : Pass) : Prop where
  simplify : ∀ {e}, letCount e < n → D.expr e → ∀ t ∈ p.simplify e, D.expr t
  eliminate : ∀ {x e}, letCount e < n → D.expr e → ∀ t ∈ p.eliminate x e, D.expr t

section
variable (hD : D.Composed)
include hD

theorem expr_simplifyLet (hp : p.StaysIn D n) {x : Var} {bound guard body : Option Expr} (hb : ∀ a ∈ bound, D.expr a)
    (hg : ∀ a ∈ guard, D.expr a) (hbody : ∀ a ∈ body, D.expr a) (hn : letCountOpt body < n) :
    ∀ t ∈ simplifyLet p x bound guard body, D.expr t := by
  intro t ht
  obtain ⟨b, rfl, ⟨-, rfl⟩ | ht | ⟨a, ha, hatom, ht⟩ | ht | ⟨a, ha, g, hguard, rfl⟩⟩ := mem_simplifyLet ht
  · exact hbody t rfl
  · exact hp.eliminate hn (hbody b rfl) t ht
  · refine hp.simplify ?_ (expr_substitute hD (hb a ha) b (hbody b rfl)) t ht
    rwa [letCount_substitute (letCount_of_isAtom hatom)]
  · exact hb t ht
  · exact hD.letIn (hb a ha) (hg g hguard) (hbody b rfl)

theorem Traversal.expr (hf : Traversal p f) (hadds : p.AddsNone) (hp : p.StaysIn D n) :
    ∀ e, letCount e < n + 1 → D.expr e → ∀ t ∈ f e, D.expr t := by
  refine Expr.parts_induction fun e ih hn he => ?_
  have hpart : ∀ {x a}, (x, a) ∈ e.parts → ∀ t ∈ f a, D.expr t := fun ha =>
    ih _ _ ha (Nat.lt_of_le_of_lt (letCount_le_of_mem_parts ha) hn) (hD.closed.part he ha)
  have hbind : ∀ {x : Option VarId} {a : Option Expr}, (∀ b, a = some b → (x, b) ∈ e.parts) →
      ∀ t ∈ a.bind f, D.expr t := by
    intro x a ha t ht
    obtain ⟨b, hab, ht⟩ := Option.bind_eq_some_iff.mp ht
    exact hpart (ha b hab) t ht
  cases e with
  | val v =>
    intro t ht
    rw [hf.val] at ht
    cases ht
    exact he
  | ref x =>
    intro t ht
    rw [hf.ref x t ht]
    exact he
  | op o l r span =>
    rw [hf.op]
    exact expr_simplifyOp hD (hpart Expr.left_mem_parts) (hbind fun a ha => Expr.mem_parts_op.mpr ⟨rfl, Or.inr ha⟩)
  | tuple fields =>
    rw [hf.tuple]
    refine expr_simplifyTuple hD fun t ht => ?_
    obtain ⟨field, hfield, ht⟩ := List.mem_map.mp ht
    obtain ⟨a, rfl, ht⟩ := Option.bind_eq_some_iff.mp ht
    exact hpart (Expr.mem_parts_tuple.mpr ⟨rfl, hfield⟩) t ht
  | cond test yes no =>
    rw [hf.cond]
    exact expr_simplifyCond hD (hpart (Expr.mem_parts_cond.mpr ⟨rfl, Or.inl rfl⟩))
      (hbind fun a ha => Expr.mem_parts_cond.mpr ⟨rfl, Or.inr (Or.inl ha)⟩)
      (hbind fun a ha => Expr.mem_parts_cond.mpr ⟨rfl, Or.inr (Or.inr ha)⟩)
  | forIn x source guard body =>
    rw [hf.forIn]
    exact expr_simplifyLoop hD (hpart (x := none) (by simp [Expr.parts])) (hpart (x := some x.id) (by simp [Expr.parts]))
      (hpart (x := some x.id) (by simp [Expr.parts]))
  | letIn x bound guard body =>
    rw [hf.letIn]
    rw [letCount] at hn
    have hcount := hf.letCountOpt_le hadds body
    exact expr_simplifyLet hD hp (hpart (x := none) (by simp [Expr.parts])) (hpart (x := some x.id) (by simp [Expr.parts]))
      (hpart (x := some x.id) (by simp [Expr.parts])) (by omega)
  | lambda x body =>
    intro t ht
    rw [hf.lambda] at ht
    obtain ⟨a, ha, rfl⟩ := Option.map_eq_some_iff.mp ht
    exact hD.lambda (hpart (Expr.mem_parts_lambda.mpr ⟨rfl, rfl⟩) a ha)

theorem staysIn_pass : ∀ n, (pass n).StaysIn D n
  | 0 => ⟨fun h => absurd h (Nat.not_lt_zero _), fun h => absurd h (Nat.not_lt_zero _)⟩
  | n + 1 => ⟨fun h => (traversal_simplifyWith _).expr hD (addsNone_pass n) (staysIn_pass n) _ h,
      fun h => (traversal_eliminateWith _ _).expr hD (addsNone_pass n) (staysIn_pass n) _ h⟩

theorem expr_simplify (he : D.expr e) : ∀ t ∈ simplify e, D.expr t :=
  (staysIn_pass hD _).simplify (Nat.lt_succ_self _) he

/-! ## Scans -/

theorem expr_of_lookups (h : Lookups D.expr e) : D.expr e := by
  have hbinary : ∀ {o l r}, D.expr l → D.expr r → D.expr (.binary o l r) := fun hl hr =>
    hD.op hl fun _ ha => by cases ha; exact hr
  induction h with
  | object p =>
    refine hD.val (hD.closed.value (l := .singleton (.object p)) ⟨?_, Tagged.sound_singleton _⟩)
    exact List.forall_mem_singleton.mpr (hD.closed.object p)
  | word s => exact hbinary (hD.val (hD.index .argv)) (hD.val (hD.closed.str s))
  | target kind ht => exact hbinary (hD.val (hD.index kind)) ht
  | join _ _ _ ihl ihr => exact hbinary ihl ihr

theorem expr_scanSource {x : VarId} {source guard : Expr} (hs : D.expr source) (hg : D.expr guard) :
    D.expr (scanSource x source guard) := by
  by_cases hall : source = .val .all
  · subst hall
    rcases scanSource_eq x guard with h | h
    · rw [h]
      exact hs
    · refine expr_of_lookups hD (Guard.lookups_source? h fun a ha _ _ target _ htarget _ => ?_)
      have hleaf := Guard.Formula.forall_mem_build (P := D.expr) (fun _ he x a ha => hD.closed.part he ha) #[] guard
        (fun a ha => absurd ha (Array.not_mem_empty a)) hg a ha
      exact hD.closed.part hleaf htarget
  · rwa [scanSource_eq_self hall]

theorem expr_indexScans : ∀ e, D.expr e → D.expr (indexScans e) := by
  refine Expr.parts_induction fun e ih he => ?_
  have hpart : ∀ {x a}, (x, a) ∈ e.parts → D.expr (indexScans a) := fun ha => ih _ _ ha (hD.closed.part he ha)
  have hmap : ∀ {x : Option VarId} {a : Option Expr}, (∀ b, a = some b → (x, b) ∈ e.parts) →
      ∀ t ∈ a.map indexScans, D.expr t := by
    intro x a ha t ht
    obtain ⟨b, hab, rfl⟩ := Option.map_eq_some_iff.mp ht
    exact hpart (ha b hab)
  cases e with
  | val v => rwa [indexScans_val]
  | ref x => rwa [indexScans_ref]
  | op o l r span =>
    rw [indexScans_op]
    exact hD.op (hpart Expr.left_mem_parts) (hmap fun a ha => Expr.mem_parts_op.mpr ⟨rfl, Or.inr ha⟩)
  | tuple fields =>
    rw [indexScans_tuple]
    refine hD.tuple fun t ht => ?_
    obtain ⟨field, hfield, ht⟩ := List.mem_map.mp ht
    obtain ⟨a, rfl, rfl⟩ := Option.map_eq_some_iff.mp ht
    exact hpart (Expr.mem_parts_tuple.mpr ⟨rfl, hfield⟩)
  | cond test yes no =>
    rw [indexScans_cond]
    exact hD.cond (hpart (Expr.mem_parts_cond.mpr ⟨rfl, Or.inl rfl⟩))
      (hmap fun a ha => Expr.mem_parts_cond.mpr ⟨rfl, Or.inr (Or.inl ha)⟩)
      (hmap fun a ha => Expr.mem_parts_cond.mpr ⟨rfl, Or.inr (Or.inr ha)⟩)
  | forIn x source guard body =>
    rw [indexScans]
    have hguard := hpart (x := some x.id) (a := guard) (by simp [Expr.parts])
    exact hD.forIn (expr_scanSource hD (hpart (x := none) (by simp [Expr.parts])) hguard) hguard
      (hpart (x := some x.id) (by simp [Expr.parts]))
  | letIn x bound guard body =>
    rw [indexScans]
    exact hD.letIn (hpart (x := none) (by simp [Expr.parts])) (hpart (x := some x.id) (by simp [Expr.parts]))
      (hpart (x := some x.id) (by simp [Expr.parts]))
  | lambda x body =>
    rw [indexScans]
    exact hD.lambda (hpart (Expr.mem_parts_lambda.mpr ⟨rfl, rfl⟩))

end

end Prepare

namespace Query

theorem expr_prepare {D : Domain} (hD : D.Composed) (o : Options) {e : Expr} (he : D.expr e) :
    ∀ t ∈ (prepare o e).expr, D.expr t := by
  intro t ht
  match o with
  | ⟨false, false, _, _, _⟩ =>
    cases ht
    exact he
  | ⟨false, true, _, _, _⟩ =>
    rw [prepare_indexScans] at ht
    cases ht
    exact Prepare.expr_indexScans hD e he
  | ⟨true, false, _, _, _⟩ => exact Prepare.expr_simplify hD he t ht
  | ⟨true, true, _, _, _⟩ =>
    rw [prepare_both] at ht
    obtain ⟨u, hu, rfl⟩ := Option.map_eq_some_iff.mp ht
    exact Prepare.expr_indexScans hD u (Prepare.expr_simplify hD he u hu)

end Query

end Provenance
