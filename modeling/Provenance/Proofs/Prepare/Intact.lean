import Provenance.Proofs.Prepare.Valueless
import Provenance.Proofs.Prepare.Whole

/-!
# Expressions that do not lose a value

A loop over a collection and a closure have a value whatever becomes of what is
in them, and a path and a binding with a condition may have one, while the rules
remove all four if a part has no value. In an intact expression those parts are
whole, and no test is decided that was not. It stays intact when an atom takes
the place of a variable, and then lacks a value only if it did with the variable
(`Valueless.of_substitute`).
-/

namespace Provenance.Prepare

open Provenance.Expr (under substitute substituteOpt substituteAll)

variable {F Γ Δ N : VarId → Prop} {e l : Expr} {r : Option Expr} {o : Operator} {span : Option Span}

/-- The variables at hand are in `Γ`, and no binding hides one. Those in `F` are not bound by bindings, so no pass
removes them. -/
inductive Intact (F : VarId → Prop) : (VarId → Prop) → Expr → Prop
  | val {Γ : VarId → Prop} (v : Value) : Intact F Γ (.val v)
  | ref {Γ : VarId → Prop} {x : VarId} (hx : Γ x) : Intact F Γ (.ref x)
  | op {Γ : VarId → Prop} {o : Operator} {l : Expr} {r : Option Expr} {span : Option Span} (ho : o.isJoin = false)
      (hl : Intact F Γ l) (hr : ∀ a ∈ r, Intact F Γ a) : Intact F Γ (.op o l r span)
  | join {Γ : VarId → Prop} {o : Operator} {l r : Expr} {span : Option Span} (ho : o.isJoin = true)
      (hl : Whole F l) (hr : Whole F r) : Intact F Γ (.op o l (some r) span)
  | tuple {Γ : VarId → Prop} {fields : List (Option Expr)} (h : ∀ a, some a ∈ fields → Intact F Γ a) :
      Intact F Γ (.tuple fields)
  | cond {Γ : VarId → Prop} {test : Expr} {yes no : Option Expr} (hdecided : test.isLiteral = true ∨ Lasting test)
      (ht : Intact F Γ test) (hy : ∀ a ∈ yes, Intact F Γ a) (hn : ∀ a ∈ no, Intact F Γ a) :
      Intact F Γ (.cond test yes no)
  | forIn {Γ : VarId → Prop} {x : Var} {source guard body : Expr} (hpasses : guard.isTrueLiteral = true ∨ Lasting guard)
      (hs : Intact F Γ source) (hg : Whole F guard) (hbody : Whole F body) : Intact F Γ (.forIn x source guard body)
  | letIn {Γ : VarId → Prop} {x : Var} {bound guard body : Expr} (hx : ¬ Γ x.id) (hxF : ¬ F x.id)
      (hfree : guard.isTrueLiteral = true ∨ Whole F bound) (hb : Intact F Γ bound)
      (hg : Intact F (under (some x.id) Γ) guard) (hbody : Intact F (under (some x.id) Γ) body) :
      Intact F Γ (.letIn x bound guard body)
  | lambda {Γ : VarId → Prop} {x : Var} {body : Expr} (hbody : Whole F body) : Intact F Γ (.lambda x body)

theorem isJoin_of_isRegrouped (ho : isRegrouped o = true) : o.isJoin = false := by
  cases o <;> first | rfl | cases ho

theorem ruleClosed_intact : RuleClosed (Intact F Γ) where
  val _ := .val _
  unary {o} _ _ ho he := .op (by cases o <;> first | rfl | cases ho) he fun _ h => by cases h
  binary _ ho hl hr := .op ho hl fun _ h => by cases h; exact hr
  left ho h := by
    cases h with
    | op _ hl _ => exact hl
    | join hjoin _ _ =>
      rw [isJoin_of_isRegrouped ho] at hjoin
      cases hjoin
  right ho h := by
    cases h with
    | op _ _ hr => exact hr _ rfl
    | join hjoin _ _ =>
      rw [isJoin_of_isRegrouped ho] at hjoin
      cases hjoin

/-! ## Substitution -/

section
variable {x : VarId} {b : Expr}

theorem substituteOpt_eq (x : VarId) (b : Expr) (e : Option Expr) : substituteOpt x b e = e.map (substitute x b) := by
  cases e <;> rfl

theorem substituteAll_eq (x : VarId) (b : Expr) (es : List (Option Expr)) :
    substituteAll x b es = es.map (·.map (substitute x b)) := by
  induction es with
  | nil => rfl
  | cons e es ih => rw [substituteAll, substituteOpt_eq, ih, List.map_cons]

theorem forall_mem_substituteOpt {P : Expr → Prop} {e : Option Expr} (h : ∀ a ∈ e, P (substitute x b a)) :
    ∀ t ∈ substituteOpt x b e, P t := by
  intro t ht
  rw [substituteOpt_eq] at ht
  obtain ⟨a, ha, rfl⟩ := Option.map_eq_some_iff.mp ht
  exact h a ha

theorem substitute_mem_substituteOpt {a : Expr} {e : Option Expr} (h : a ∈ e) : substitute x b a ∈ substituteOpt x b e := by
  rw [substituteOpt_eq]
  exact Option.mem_map_of_mem _ h

theorem substitute_of_not_mentions : ∀ e, e.mentions x = false → substitute x b e = e := by
  refine Expr.parts_induction fun e ih h => ?_
  have hpart : ∀ z a, (z, a) ∈ e.parts → substitute x b a = a := by
    intro z a ha
    refine ih z a ha (Bool.eq_false_iff.mpr fun hm => ?_)
    rw [Expr.mentions_of_mem_parts ha hm] at h
    cases h
  have hopt : ∀ {a : Option Expr}, (∀ t ∈ a, substitute x b t = t) → substituteOpt x b a = a := by
    intro a ha
    cases a with
    | none => rfl
    | some t => exact congrArg some (ha t rfl)
  cases e with
  | val v => rfl
  | ref y =>
    rw [substitute, if_neg]
    intro hy
    subst hy
    simp [Expr.mentions, Expr.nodes, Expr.isVar] at h
  | op o l r span =>
    rw [substitute, hpart none l Expr.left_mem_parts,
      hopt fun t ht => hpart none t (Expr.mem_parts_op.mpr ⟨rfl, Or.inr ht⟩)]
  | tuple fields =>
    rw [substitute, substituteAll_eq]
    refine congrArg Expr.tuple ((List.map_congr_left fun a ha => ?_).trans (List.map_id fields))
    rw [← substituteOpt_eq]
    exact hopt fun t ht => hpart none t (Expr.mem_parts_tuple.mpr ⟨rfl, ht ▸ ha⟩)
  | cond test yes no =>
    rw [substitute, hpart none test (Expr.mem_parts_cond.mpr ⟨rfl, Or.inl rfl⟩),
      hopt fun t ht => hpart none t (Expr.mem_parts_cond.mpr ⟨rfl, Or.inr (Or.inl ht)⟩),
      hopt fun t ht => hpart none t (Expr.mem_parts_cond.mpr ⟨rfl, Or.inr (Or.inr ht)⟩)]
  | forIn y source guard body =>
    rw [substitute, hpart none source (by simp [Expr.parts]), hpart (some y.id) guard (by simp [Expr.parts]),
      hpart (some y.id) body (by simp [Expr.parts])]
  | letIn y bound guard body =>
    rw [substitute, hpart none bound (by simp [Expr.parts]), hpart (some y.id) guard (by simp [Expr.parts]),
      hpart (some y.id) body (by simp [Expr.parts])]
  | lambda y body => rw [substitute, hpart (some y.id) body (by simp [Expr.parts])]

theorem isLiteral_substitute (h : e.isLiteral = true) : substitute x b e = e := by
  cases e <;> first | rfl | cases h

theorem Intact.of_isAtom (h : Intact F Γ b) (hb : isAtom b = true) (hΓ : ∀ y, Γ y → Δ y) : Intact F Δ b := by
  cases h with
  | val v => exact .val v
  | ref h => exact .ref (hΓ _ h)
  | _ => cases hb

theorem Intact.substitute (h : Intact F Δ e) (hxF : ¬ F x) (hatom : isAtom b = true) :
    ∀ {Γ : VarId → Prop}, (∀ y, Δ y ↔ x = y ∨ Γ y) → Intact F Γ b → Intact F Γ (substitute x b e) := by
  have hwhole : ∀ {e : Expr}, Whole F e → Whole F (Expr.substitute x b e) := fun h =>
    h.substitute fun hx => absurd hx hxF
  induction h with
  | val v => exact fun _ _ => .val v
  | @ref Δ z hz =>
    intro Γ hΔ hb
    rw [Expr.substitute]
    split
    · exact hb
    · exact .ref (((hΔ z).mp hz).resolve_left (Ne.symm ‹_›))
  | op ho _ _ ihl ihr => exact fun hΔ hb => .op ho (ihl hΔ hb) (forall_mem_substituteOpt fun a ha => ihr a ha hΔ hb)
  | join ho hl hr => exact fun _ _ => .join ho (hwhole hl) (hwhole hr)
  | tuple _ ih =>
    intro Γ hΔ hb
    refine .tuple fun t ht => ?_
    rw [substituteAll_eq] at ht
    obtain ⟨a, ha, hat⟩ := List.mem_map.mp ht
    obtain ⟨a, rfl, rfl⟩ := Option.map_eq_some_iff.mp hat
    exact ih a ha hΔ hb
  | cond hdecided _ _ _ iht ihy ihn =>
    intro Γ hΔ hb
    refine .cond (hdecided.imp (fun h => ?_) Lasting.substitute) (iht hΔ hb)
      (forall_mem_substituteOpt fun a ha => ihy a ha hΔ hb) (forall_mem_substituteOpt fun a ha => ihn a ha hΔ hb)
    rwa [isLiteral_substitute h]
  | forIn hpasses _ hg hbody ihs =>
    exact fun hΔ hb => .forIn (passes_substitute hpasses) (ihs hΔ hb) (hwhole hg) (hwhole hbody)
  | @letIn Δ z bound guard body hz hzF hfree _ _ _ ihb ihg ihbody =>
    intro Γ hΔ hb
    have hzΓ : ¬ Γ z.id := fun h => hz ((hΔ _).mpr (Or.inr h))
    have hunder : ∀ y, under (some z.id) Δ y ↔ x = y ∨ under (some z.id) Γ y := fun y =>
      (or_congr_right (hΔ y)).trans or_left_comm
    have hb' : Intact F (under (some z.id) Γ) b := hb.of_isAtom hatom fun _ => Or.inr
    refine .letIn hzΓ hzF (hfree.imp (fun h => ?_) hwhole) (ihb hΔ hb) (ihg hunder hb') (ihbody hunder hb')
    rwa [isTrueLiteral_substitute h]
  | lambda hbody => exact fun _ _ => .lambda (hwhole hbody)

theorem isLiteral_of_isTrueLiteral (h : e.isTrueLiteral = true) : e.isLiteral = true := by
  obtain ⟨a, rfl, -⟩ := isTrueLiteral_iff.mp h
  rfl

theorem isLiteral_of_isFalseLiteral (h : e.isFalseLiteral = true) : e.isLiteral = true := by
  obtain ⟨a, rfl, -⟩ := isFalseLiteral_iff.mp h
  rfl

theorem isLiteral_of_substitute (h : e.isLiteral = true ∨ Lasting e)
    (hsub : (Expr.substitute x b e).isLiteral = true) : e.isLiteral = true := by
  refine h.resolve_right fun h => ?_
  rw [Expr.isLiteral, h.substitute.literal?] at hsub
  cases hsub

theorem not_valueless_join (ho : o.isJoin = true) : ¬ Valueless N (.op o l r span) := by
  intro h
  cases h with
  | left hd | right hd | missing hd => simp [(isDemanding_iff.mp hd).2] at ho
  | union => cases ho

theorem assign_assign {x z : VarId} {d d' d'' : Prop} (hxz : x ≠ z) (hd : d'' → d') :
    ∀ y, assign x d'' (assign z d N) y → assign z d (assign x d' N) y := by
  rintro y (⟨rfl, h⟩ | ⟨hxy, ⟨rfl, h⟩ | ⟨hzy, h⟩⟩)
  · exact Or.inr ⟨hxz.symm, Or.inl ⟨rfl, hd h⟩⟩
  · exact Or.inl ⟨rfl, h⟩
  · exact Or.inr ⟨hzy, Or.inr ⟨hxy, h⟩⟩

theorem valueless_of_assign {z : VarId} {d : Prop} (hatom : isAtom b = true) (hz : b ≠ .ref z)
    (h : Valueless (assign z d N) b) : Valueless N b := by
  cases b with
  | val v => exact absurd h (not_valueless_val v)
  | ref y =>
    cases h with
    | ref hy =>
      rcases hy with ⟨rfl, -⟩ | ⟨-, hy⟩
      · exact absurd rfl hz
      · exact .ref hy
  | _ => cases hatom

/-- The variable that is replaced lacks a value if what replaces it does. -/
theorem Valueless.of_substitute (he : Intact F Δ e) (hatom : isAtom b = true) : Δ x → (∀ y, b = .ref y → Δ y) →
    ∀ {N : VarId → Prop}, Valueless N (Expr.substitute x b e) → Valueless (assign x (Valueless N b) N) e := by
  induction he with
  | val v => exact fun _ _ _ h => absurd h (not_valueless_val v)
  | @ref Δ z hz =>
    intro hx hb N h
    rw [Expr.substitute] at h
    split at h
    · exact .ref (Or.inl ⟨‹z = x›.symm, h⟩)
    · cases h with
      | ref hNz => exact .ref (Or.inr ⟨Ne.symm ‹_›, hNz⟩)
  | @op Δ o l r span ho _ _ ihl ihr =>
    intro hx hb N h
    rw [Expr.substitute, substituteOpt_eq] at h
    generalize hr' : r.map (Expr.substitute x b) = r' at h
    cases h with
    | left hd hl => exact .left hd (ihl hx hb hl)
    | right hd hr =>
      obtain ⟨a, rfl, rfl⟩ := Option.map_eq_some_iff.mp hr'
      exact .right hd (ihr a rfl hx hb hr)
    | missing hd hunary =>
      cases Option.map_eq_none_iff.mp hr'
      exact .missing hd hunary
    | union hl hr =>
      refine .union (ihl hx hb hl) fun a ha => ihr a ha hx hb (hr _ ?_)
      rw [← hr']
      exact Option.mem_map_of_mem _ ha
  | join ho _ _ => exact fun _ _ _ h => absurd h (not_valueless_join ho)
  | tuple _ ih =>
    intro hx hb N h
    rw [Expr.substitute, substituteAll_eq] at h
    cases h with
    | tuple h =>
      refine .tuple fun a ha => ih a ha hx hb (h _ ?_)
      exact List.mem_map.mpr ⟨some a, ha, rfl⟩
  | @cond Δ test yes no hdecided _ _ _ iht ihy ihn =>
    intro hx hb N h
    rw [Expr.substitute] at h
    have hliteral : (Expr.substitute x b test).isLiteral = true → Expr.substitute x b test = test := fun h =>
      isLiteral_substitute (isLiteral_of_substitute hdecided h)
    cases h with
    | cond hy hn =>
      exact .cond (fun a ha => ihy a ha hx hb (hy _ (substitute_mem_substituteOpt ha)))
        fun a ha => ihn a ha hx hb (hn _ (substitute_mem_substituteOpt ha))
    | passed ht hy =>
      rw [hliteral (isLiteral_of_isTrueLiteral ht)] at ht
      exact .passed ht fun a ha => ihy a ha hx hb (hy _ (substitute_mem_substituteOpt ha))
    | untested ht hy =>
      exact .untested (iht hx hb ht) fun a ha => ihy a ha hx hb (hy _ (substitute_mem_substituteOpt ha))
    | failed ht hn =>
      rw [hliteral (isLiteral_of_isFalseLiteral ht)] at ht
      exact .failed ht fun a ha => ihn a ha hx hb (hn _ (substitute_mem_substituteOpt ha))
  | forIn _ _ _ _ ihs =>
    intro hx hb N h
    cases h with
    | source hs => exact .source (ihs hx hb hs)
  | @letIn Δ z bound guard body hz _ _ _ _ _ ihb ihg ihbody =>
    intro hx hb N h
    rw [Expr.substitute] at h
    have hzx : x ≠ z.id := by
      intro h
      subst h
      exact hz hx
    have hunder : ∀ {d : Prop}, ∀ y, assign x (Valueless (assign z.id d N) b) (assign z.id d N) y →
        assign z.id d (assign x (Valueless N b) N) y := fun y =>
      assign_assign hzx (valueless_of_assign hatom fun h => hz (hb _ h)) y
    cases h with
    | guard d hd hg =>
      refine .guard d (fun h => ihb hx hb (hd h)) ((ihg (Or.inr hx) (fun y hy => Or.inr (hb y hy)) hg).mono hunder)
    | body d hd hbody =>
      refine .body d (fun h => ihb hx hb (hd h)) ((ihbody (Or.inr hx) (fun y hy => Or.inr (hb y hy)) hbody).mono hunder)
  | lambda _ =>
    intro hx hb N h
    cases h

end

end Provenance.Prepare
