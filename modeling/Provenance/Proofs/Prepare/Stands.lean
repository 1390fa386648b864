import Provenance.Proofs.Prepare.Intact

/-!
# What simplifying finds to have no value

What a pass makes of an intact expression is intact, and if nothing is left or
what is left lacks a value, so did the expression (`Traversal.stands`). So when
simplifying finds no value in an intact expression, evaluation finds none either
(`evaluate_of_simplify_eq_none`). This is not so for loops that lose their body
(`simplify_loses_loops`).
-/

namespace Provenance.Prepare

open Eval
open Provenance.Expr (under)

variable {F Γ Δ N : VarId → Prop} {e l : Expr} {r : Option Expr} {o : Operator} {span : Option Span}

/-! ## Nodes -/

/-- What takes the place of an expression, if anything does, is intact, and it has a value if the expression has. -/
structure Stands (F Γ N : VarId → Prop) (e e' : Option Expr) : Prop where
  intact : ∀ t ∈ e', Intact F Γ t
  valueless : (∀ t ∈ e', Valueless N t) → ∀ a ∈ e, Valueless N a

theorem Stands.of_none (h : Valueless N e) : Stands F Γ N (some e) none := by
  refine ⟨fun t ht => (by cases ht), fun _ a ha => ?_⟩
  cases ha
  exact h

theorem Stands.of_some {t : Expr} (ht : Intact F Γ t) (h : Valueless N t → Valueless N e) :
    Stands F Γ N (some e) (some t) := by
  refine ⟨fun a ha => ?_, fun h' a ha => ?_⟩ <;> cases ha
  · exact ht
  · exact h (h' t rfl)

theorem Stands.of_eq_none (h : Stands F Γ N (some e) none) : Valueless N e :=
  h.valueless (fun _ ht => by cases ht) e rfl

theorem Stands.back {t a : Expr} {e : Option Expr} (h : Stands F Γ N e (some t)) (ht : Valueless N t) (ha : a ∈ e) :
    Valueless N a := by
  refine h.valueless (fun b hb => ?_) a ha
  cases hb
  exact ht

section
variable {l' r' : Option Expr}

theorem stands_simplifyOp_none (ho : isDemanding o = true) (hunary : o.isUnary = false) (hl : Stands F Γ N (some l) l')
    (hr : Stands F Γ N r r') (hnone : l' = none ∨ r' = none) : Stands F Γ N (some (.op o l r span)) none := by
  refine .of_none ?_
  rcases hnone with rfl | rfl
  · exact .left ho hl.of_eq_none
  · cases r with
    | none => exact .missing ho hunary
    | some a => exact .right ho (hr.of_eq_none)

theorem stands_simplifyBinary {left right : Expr} (ho : isDemanding o = true) (hunary : o.isUnary = false)
    (hl : Stands F Γ N (some l) (some left)) (hr : Stands F Γ N r (some right)) :
    Stands F Γ N (some (.op o l r span)) (some (simplifyBinary o left right span)) := by
  have hjoin := (isDemanding_iff.mp ho).2
  refine .of_some (ruleClosed_intact.simplifyBinary hunary hjoin (hl.intact _ rfl) (hr.intact _ rfl)) fun h => ?_
  by_contra hself
  have hleft : ¬ Valueless N left := fun h => hself (.left ho (hl.back h rfl))
  have hright : ¬ Valueless N right := by
    intro h
    cases r with
    | none => exact hself (.missing ho hunary)
    | some a => exact hself (.right ho (hr.back h rfl))
  exact ruleClosed_not_valueless.simplifyBinary hunary hjoin hleft hright h

theorem stands_simplifyUnary (ho : o.isUnary = true) (hl : Stands F Γ N (some l) l') :
    Stands F Γ N (some (.op o l r span)) (l'.map fun e => simplifyUnary o e span) := by
  have hd : isDemanding o = true := by cases o <;> first | rfl | cases ho
  cases l' with
  | none => exact .of_none (.left hd hl.of_eq_none)
  | some left =>
    refine .of_some (ruleClosed_intact.simplifyUnary ho (hl.intact _ rfl)) fun h => ?_
    by_contra hself
    have hleft : ¬ Valueless N left := fun h => hself (.left hd (hl.back h rfl))
    exact ruleClosed_not_valueless.simplifyUnary ho hleft h

theorem stands_union {left right : Expr} (hl : Stands F Γ N (some l) (some left)) (hr : Stands F Γ N r (some right)) :
    Stands F Γ N (some (.op .union l r span)) (some (.op .union left (some right) span)) := by
  refine .of_some (ruleClosed_intact.binary rfl rfl (hl.intact _ rfl) (hr.intact _ rfl)) fun h => ?_
  cases h with
  | left hd | right hd => cases hd
  | union hleft hright => exact .union (hl.back hleft rfl) fun a ha => hr.back (hright right rfl) ha

theorem stands_simplifyOp (ho : o.isJoin = false) (hl : Stands F Γ N (some l) l') (hr : Stands F Γ N r r') :
    Stands F Γ N (some (.op o l r span)) (simplifyOp o l' r' span) := by
  cases o with
  | logAnd =>
    exact .of_some (ruleClosed_intact.simplifyAnd hl.intact hr.intact) fun h => absurd h not_valueless_simplifyAnd
  | logOr => exact .of_some (ruleClosed_intact.simplifyOr hl.intact hr.intact) fun h => absurd h not_valueless_simplifyOr
  | union =>
    cases l' with
    | none =>
      refine ⟨hr.intact, fun h a ha => ?_⟩
      cases ha
      exact .union hl.of_eq_none (hr.valueless h)
    | some left =>
      cases r' with
      | none => exact .of_some (hl.intact _ rfl) fun h => .union (hl.back h rfl) (hr.valueless fun _ ht => nomatch ht)
      | some right => exact stands_union hl hr
  | concat =>
    cases l' with
    | none =>
      refine ⟨hr.intact, fun _ a ha => ?_⟩
      cases ha
      exact .left rfl hl.of_eq_none
    | some left =>
      cases r' with
      | none => exact .of_some (hl.intact _ rfl) fun h => .left rfl (hl.back h rfl)
      | some right => exact stands_simplifyBinary rfl rfl hl hr
  | logNot | neg | optional | repeats | extract => exact stands_simplifyUnary rfl hl
  | step | stepsZ | stepsNZ => cases ho
  | _ =>
    cases l' with
    | none => exact stands_simplifyOp_none rfl rfl hl hr (Or.inl rfl)
    | some left =>
      cases r' with
      | none => exact stands_simplifyOp_none rfl rfl hl hr (Or.inr rfl)
      | some right => exact stands_simplifyBinary rfl rfl hl hr

theorem stands_branch {v : Value} {yes no yes' no' : Option Expr} (hy : Stands F Γ N yes yes') (hn : Stands F Γ N no no') :
    Stands F Γ N (some (.cond (.val v) yes no)) (if v.isTrue then yes' else no') := by
  by_cases hv : v.isTrue = true
  · rw [if_pos hv]
    refine ⟨hy.intact, fun h a ha => ?_⟩
    cases ha
    exact .passed (isTrueLiteral_iff.mpr ⟨v, rfl, hv⟩) (hy.valueless h)
  · rw [if_neg hv]
    refine ⟨hn.intact, fun h a ha => ?_⟩
    cases ha
    exact .failed (isFalseLiteral_iff.mpr ⟨v, rfl, Bool.eq_false_iff.mpr hv⟩) (hn.valueless h)

theorem stands_simplifyCond {test : Expr} {yes no test' yes' no' : Option Expr}
    (hdecided : test.isLiteral = true ∧ test' = some test ∨ Lasting test ∧ ∀ t ∈ test', Lasting t)
    (ht : Stands F Γ N (some test) test') (hy : Stands F Γ N yes yes') (hn : Stands F Γ N no no') :
    Stands F Γ N (some (.cond test yes no)) (simplifyCond test' yes' no') := by
  cases test' with
  | none =>
    refine ⟨hy.intact, fun h a ha => ?_⟩
    cases ha
    exact .untested ht.of_eq_none (hy.valueless h)
  | some t =>
    simp only [simplifyCond]
    by_cases hnone : (yes'.isNone && no'.isNone) = true
    · rw [if_pos hnone]
      simp only [Bool.and_eq_true, Option.isNone_iff_eq_none] at hnone
      obtain ⟨rfl, rfl⟩ := hnone
      exact .of_none (.cond (hy.valueless fun _ ht => by cases ht) (hn.valueless fun _ ht => by cases ht))
    rw [if_neg hnone]
    rcases hdecided with ⟨hliteral, htest⟩ | ⟨-, hlasting⟩
    · cases htest
      obtain ⟨v, hv⟩ := Option.isSome_iff_exists.mp hliteral
      cases eq_val_of_literal? hv
      exact stands_branch hy hn
    · have hlasting := hlasting t rfl
      have htrue : t.isTrueLiteral = false := by simp [Expr.isTrueLiteral, hlasting.literal?]
      have hfalse : t.isFalseLiteral = false := by simp [Expr.isFalseLiteral, hlasting.literal?]
      rw [hlasting.literal?]
      refine .of_some (.cond (Or.inr hlasting) (ht.intact t rfl) hy.intact hn.intact) fun h => ?_
      cases h with
      | cond hy' hn' => exact .cond (hy.valueless hy') (hn.valueless hn')
      | untested ht' hy' => exact .untested (ht.back ht' rfl) (hy.valueless hy')
      | passed h | failed h => simp_all

theorem stands_simplifyTuple {fields fields' : List (Option Expr)} (hintact : ∀ t, some t ∈ fields' → Intact F Γ t)
    (hvalueless : (∀ t, some t ∈ fields' → Valueless N t) → ∀ a, some a ∈ fields → Valueless N a) :
    Stands F Γ N (some (.tuple fields)) (simplifyTuple fields') := by
  have hmem : ∀ t, some t ∈ fields' ↔ t ∈ fields'.filterMap id := by simp
  simp only [hmem] at hintact hvalueless
  unfold simplifyTuple
  generalize fields'.filterMap id = es at hintact hvalueless
  match es with
  | [] => exact .of_none (.tuple (hvalueless fun t ht => by cases ht))
  | [e] =>
    refine .of_some (hintact e List.mem_cons_self) fun h => .tuple (hvalueless fun t ht => ?_)
    cases List.mem_singleton.mp ht
    exact h
  | e :: e' :: rest =>
    simp only
    split
    · exact .of_some (.val _) fun h => absurd h (not_valueless_val _)
    · refine .of_some (.tuple fun t ht => hintact t (by simpa using ht)) fun h => ?_
      cases h with
      | tuple h => exact .tuple (hvalueless fun t ht => h t (List.mem_map_of_mem ht))

theorem stands_simplifyLoop {x : Var} {source guard' body' : Expr} {guard body : Expr} {source' : Option Expr}
    (hpasses : guard'.isTrueLiteral = true ∨ Lasting guard') (hs : Stands F Γ N (some source) source')
    (hg : Whole F guard') (hbody : Whole F body') :
    Stands F Γ N (some (.forIn x source guard body)) (simplifyLoop x source' (some guard') (some body')) := by
  cases source' with
  | none => exact .of_none (.source hs.of_eq_none)
  | some s =>
    simp only [simplifyLoop, isFalseLiteral_of_passes hpasses, Bool.false_eq_true, if_false]
    split
    · exact .of_some (hs.intact s rfl) fun h => .source (hs.back h rfl)
    · refine .of_some (.forIn hpasses (hs.intact s rfl) hg hbody) fun h => ?_
      cases h with
      | source h => exact .source (hs.back h rfl)

end

/-! ## Bindings -/

/-- The passes do for expressions with fewer than `n` bindings what they stand for. -/
structure Pass.Upholds (F : VarId → Prop) (n : Nat) (p : Pass) : Prop where
  simplify : ∀ {Γ N : VarId → Prop} {e : Expr}, letCount e < n → Intact F Γ e → Stands F Γ N (some e) (p.simplify e)
  eliminate : ∀ {Γ N : VarId → Prop} {x : VarId} {e : Expr}, letCount e < n → ¬ F x → ¬ Γ x → N x →
    Intact F (under (some x) Γ) e → Stands F Γ N (some e) (p.eliminate x e)

section
variable {p : Pass} {f : Expr → Option Expr} {n : Nat}

section
variable {x : Var} {bound guard body b g t : Expr}

/-- Below a binding the variable lacks a value exactly if what is bound to it is seen to. -/
abbrev below (x : Var) (bound : Expr) (N : VarId → Prop) : VarId → Prop :=
  assign x.id (Valueless N bound) N

theorem stands_letIn (hx : ¬ Γ x.id) (hxF : ¬ F x.id) (hfree : g.isTrueLiteral = true ∨ Whole F b)
    (hb : Stands F Γ N (some bound) (some b))
    (hg : Stands F (under (some x.id) Γ) (below x bound N) (some guard) (some g))
    (hbody : Stands F (under (some x.id) Γ) (below x bound N) (some body) (some t)) :
    Stands F Γ N (some (.letIn x bound guard body)) (some (.letIn x b g t)) := by
  refine .of_some (.letIn hx hxF hfree (hb.intact _ rfl) (hg.intact _ rfl) (hbody.intact _ rfl)) fun h => ?_
  have hle : ∀ {d : Prop}, (d → Valueless N b) → ∀ y, assign x.id d N y → below x bound N y := fun hd =>
    assign_mono (fun h => hb.back (hd h) rfl) fun _ h => h
  cases h with
  | guard d hd h => exact .guard _ id (hg.back (h.mono (hle hd)) rfl)
  | body d hd h => exact .body _ id (hbody.back (h.mono (hle hd)) rfl)

theorem stands_unused (hxF : ¬ F x.id)
    (hbody : Stands F (under (some x.id) Γ) (below x bound N) (some body) (some t)) (hunused : t.mentions x.id = false) :
    Stands F Γ N (some (.letIn x bound guard body)) (some t) := by
  -- replacing the variable by a literal changes nothing, so it is not missed
  have hsame : Expr.substitute x.id (Expr.int 0) t = t := substitute_of_not_mentions t hunused
  have ht := hbody.intact t rfl
  refine .of_some (hsame ▸ ht.substitute hxF rfl (fun _ => Iff.rfl) (.val _)) fun h => ?_
  rw [← hsame] at h
  have hvalueless := h.of_substitute ht rfl (Or.inl rfl) fun y hy => by cases hy
  refine .body _ id (hbody.back (hvalueless.mono (assign_mono (fun h => ?_) fun _ h => h)) rfl)
  exact absurd h (not_valueless_val _)

theorem stands_eliminated (hp : p.Upholds F n) (hx : ¬ Γ x.id) (hxF : ¬ F x.id) (hb : Valueless N bound)
    (hbody : Stands F (under (some x.id) Γ) (below x bound N) (some body) (some t)) (hn : letCount t < n) :
    Stands F Γ N (some (.letIn x bound guard body)) (p.eliminate x.id t) := by
  have hlack : below x bound N x.id := Or.inl ⟨rfl, hb⟩
  have helim := hp.eliminate hn hxF hx hlack (hbody.intact t rfl)
  refine ⟨helim.intact, fun h a ha => ?_⟩
  cases ha
  have hle : ∀ y, N y → below x bound N y := by
    intro y hy
    by_cases hxy : x.id = y
    · exact hxy ▸ hlack
    · exact Or.inr ⟨hxy, hy⟩
  exact .body _ id (hbody.back (helim.valueless (fun a ha => (h a ha).mono hle) t rfl) rfl)

theorem stands_substituted (hp : p.Upholds F n) (hxF : ¬ F x.id) (hatom : isAtom b = true)
    (hb : Stands F Γ N (some bound) (some b))
    (hbody : Stands F (under (some x.id) Γ) (below x bound N) (some body) (some t)) (hn : letCount t < n) :
    Stands F Γ N (some (.letIn x bound guard body)) (p.simplify (Expr.substitute x.id b t)) := by
  have ht := hbody.intact t rfl
  have hintact := hb.intact b rfl
  have hsub := hp.simplify (N := N) (by rwa [letCount_substitute (letCount_of_isAtom hatom)])
    (ht.substitute hxF hatom (fun _ => Iff.rfl) hintact)
  refine ⟨hsub.intact, fun h a ha => ?_⟩
  cases ha
  have hfree : ∀ y, b = .ref y → under (some x.id) Γ y := by
    rintro y rfl
    cases hintact with
    | ref hy => exact Or.inr hy
  have hvalueless := (hsub.valueless h _ rfl).of_substitute ht hatom (Or.inl rfl) hfree
  exact .body _ id (hbody.back (hvalueless.mono (assign_mono (fun h => hb.back h rfl) fun _ h => h)) rfl)

theorem stands_simplifyLet (hp : p.Upholds F n) {bound' guard' body' : Option Expr} (hx : ¬ Γ x.id) (hxF : ¬ F x.id)
    (hfree : (∀ g ∈ guard', g.isTrueLiteral = true) ∨ ∃ b ∈ bound', Whole F b) (hb : Stands F Γ N (some bound) bound')
    (hg : Stands F (under (some x.id) Γ) (below x bound N) (some guard) guard')
    (hbody : Stands F (under (some x.id) Γ) (below x bound N) (some body) body') (hn : letCountOpt body' < n) :
    Stands F Γ N (some (.letIn x bound guard body)) (simplifyLet p x bound' guard' body') := by
  cases body' with
  | none => exact .of_none (.body _ id hbody.of_eq_none)
  | some t =>
    cases guard' with
    | none => exact .of_none (.guard _ id hg.of_eq_none)
    | some g =>
      rw [letCountOpt_some] at hn
      simp only [simplifyLet]
      by_cases htrue : g.isTrueLiteral = true
      · by_cases hmentions : t.mentions x.id = true
        · simp only [htrue, hmentions, Bool.not_true, Bool.false_eq_true, if_false]
          cases bound' with
          | none => exact stands_eliminated hp hx hxF hb.of_eq_none hbody hn
          | some b =>
            simp only
            by_cases hatom : isAtom b = true
            · rw [if_pos hatom]
              exact stands_substituted hp hxF hatom hb hbody hn
            by_cases hvar : t.isVar x.id = true
            · rw [if_neg hatom, if_pos hvar]
              cases t with
              | ref y =>
                cases eq_of_beq hvar
                refine .of_some (hb.intact b rfl) fun h => .body _ id (hbody.back (.ref ?_) rfl)
                exact Or.inl ⟨rfl, hb.back h rfl⟩
              | _ => cases hvar
            · rw [if_neg hatom, if_neg hvar]
              exact stands_letIn hx hxF (Or.inl htrue) hb hg hbody
        · simp only [htrue, hmentions, Bool.not_true, Bool.not_false, Bool.false_eq_true, if_false, if_true]
          exact stands_unused hxF hbody (Bool.eq_false_iff.mpr hmentions)
      · simp only [htrue, Bool.not_false, if_true]
        obtain ⟨b, hbound, hwhole⟩ := hfree.resolve_left fun h => htrue (h g rfl)
        cases hbound
        exact stands_letIn hx hxF (Or.inr hwhole) hb hg hbody

end

/-! ## Passes -/

theorem stands_bind {e : Option Expr} (h : ∀ a ∈ e, Stands F Γ N (some a) (f a)) : Stands F Γ N e (e.bind f) := by
  cases e with
  | none => exact ⟨fun t ht => (by cases ht), fun _ a ha => by cases ha⟩
  | some a => exact h a rfl

/-- What a pass leaves of the scope is left of it below a binding. -/
theorem under_left {X : VarId → Prop} {x : VarId} (hΓ : ∀ y, Γ y ↔ Δ y ∧ ¬ X y) (hxX : ∀ y, X y → x ≠ y) (y : VarId) :
    under (some x) Γ y ↔ under (some x) Δ y ∧ ¬ X y := by
  simp only [under, hΓ y, or_and_right]
  exact or_congr_left (iff_self_and.mpr fun h hXy => hxX y hXy h)

theorem Traversal.stands (hf : Traversal p f) (hadds : p.AddsNone) (hp : p.Upholds F n) (hwhole : LeavesWhole F f)
    {X : VarId → Prop} (hkept : ∀ x, ¬ X x → f (.ref x) = some (.ref x)) (hgone : ∀ x, X x → f (.ref x) = none)
    (he : Intact F Δ e) : letCount e < n + 1 → ∀ {Γ N : VarId → Prop}, (∀ y, Γ y ↔ Δ y ∧ ¬ X y) →
      (∀ y, X y → N y ∧ Δ y) → Stands F Γ N (some e) (f e) := by
  have hbelow : ∀ {e a : Expr} {x : Option VarId}, letCount e < n + 1 → (x, a) ∈ e.parts → letCount a < n + 1 :=
    fun he ha => Nat.lt_of_le_of_lt (letCount_le_of_mem_parts ha) he
  induction he with
  | val v =>
    intro _ Γ N _ _
    rw [hf.val]
    exact .of_some (.val v) id
  | @ref Δ x hx =>
    intro _ Γ N hΓ hX
    by_cases hgo : X x
    · rw [hgone x hgo]
      exact .of_none (.ref (hX x hgo).1)
    · rw [hkept x hgo]
      exact .of_some (.ref ((hΓ x).mpr ⟨hx, hgo⟩)) id
  | op ho _ _ ihl ihr =>
    intro hn Γ N hΓ hX
    rw [hf.op]
    refine stands_simplifyOp ho (ihl (hbelow hn Expr.left_mem_parts) hΓ hX) (stands_bind fun a ha => ?_)
    exact ihr a ha (hbelow hn (Expr.mem_parts_op.mpr ⟨rfl, Or.inr ha⟩)) hΓ hX
  | @join Δ o l r span ho hl hr =>
    intro _ Γ N _ _
    obtain ⟨l', hl', hl⟩ := hwhole l hl
    obtain ⟨r', hr', hr⟩ := hwhole r hr
    rw [hf.op, hl', Option.bind_some, hr', simplifyOp_of_isJoin ho]
    exact .of_some (.join ho hl hr) fun h => absurd h (not_valueless_join ho)
  | @tuple Δ fields _ ih =>
    intro hn Γ N hΓ hX
    rw [hf.tuple]
    have hstands : ∀ a, some a ∈ fields → Stands F Γ N (some a) (f a) := fun a ha =>
      ih a ha (hbelow hn (Expr.mem_parts_tuple.mpr ⟨rfl, ha⟩)) hΓ hX
    refine stands_simplifyTuple (fun t ht => ?_) fun h a ha => ?_
    · obtain ⟨field, hfield, ht⟩ := List.mem_map.mp ht
      obtain ⟨a, rfl, ht⟩ := Option.bind_eq_some_iff.mp ht
      exact (hstands a hfield).intact t ht
    · refine (hstands a ha).valueless (fun t ht => h t ?_) a rfl
      exact List.mem_map.mpr ⟨some a, ha, ht⟩
  | @cond Δ test yes no hdecided _ _ _ iht ihy ihn =>
    intro hn Γ N hΓ hX
    rw [hf.cond]
    have hpart : ∀ {a}, a = test ∨ yes = some a ∨ no = some a → letCount a < n + 1 := fun ha =>
      hbelow hn (Expr.mem_parts_cond.mpr ⟨rfl, ha⟩)
    refine stands_simplifyCond (hdecided.imp (fun h => ⟨h, ?_⟩) fun h => ⟨h, hf.lasting h⟩)
      (iht (hpart (Or.inl rfl)) hΓ hX) (stands_bind fun a ha => ihy a ha (hpart (Or.inr (Or.inl ha))) hΓ hX)
      (stands_bind fun a ha => ihn a ha (hpart (Or.inr (Or.inr ha))) hΓ hX)
    obtain ⟨v, hv⟩ := Option.isSome_iff_exists.mp h
    cases eq_val_of_literal? hv
    exact hf.val v
  | @forIn Δ x source guard body hpasses _ hg hbody ihs =>
    intro hn Γ N hΓ hX
    obtain ⟨g', hg', hg⟩ := hwhole guard hg
    obtain ⟨body', hbody', hbody⟩ := hwhole body hbody
    rw [hf.forIn, hg', hbody']
    exact stands_simplifyLoop (hf.passes hpasses g' hg') (ihs (hbelow (x := none) hn (by simp [Expr.parts])) hΓ hX)
      hg hbody
  | @letIn Δ x bound guard body hx hxF hfree _ _ _ ihb ihg ihbody =>
    intro hn Γ N hΓ hX
    rw [hf.letIn]
    have hxX : ∀ y, X y → x.id ≠ y := by
      rintro y hy rfl
      exact hx (hX _ hy).2
    have hΓ' := under_left hΓ hxX
    have hX' : ∀ y, X y → below x bound N y ∧ under (some x.id) Δ y := fun y hy =>
      ⟨Or.inr ⟨hxX y hy, (hX y hy).1⟩, Or.inr (hX y hy).2⟩
    rw [letCount] at hn
    have hcount := hf.letCountOpt_le hadds body
    refine stands_simplifyLet hp (fun h => hx ((hΓ _).mp h).1) hxF (hfree.imp (fun h g hg => ?_) fun h => ?_)
      (ihb (by omega) hΓ hX) (ihg (by omega) hΓ' hX') (ihbody (by omega) hΓ' hX') (by omega)
    · obtain ⟨a, rfl, -⟩ := isTrueLiteral_iff.mp h
      rw [hf.val] at hg
      cases hg
      exact h
    · obtain ⟨b', hb', hb⟩ := hwhole bound h
      exact ⟨b', hb', hb⟩
  | @lambda Δ x body hbody =>
    intro _ Γ N _ _
    obtain ⟨body', hbody', hbody⟩ := hwhole body hbody
    rw [hf.lambda, hbody']
    exact .of_some (.lambda hbody) fun h => by cases h

end

theorem upholds_pass : ∀ n, (pass n).Upholds F n
  | 0 => ⟨fun h => absurd h (Nat.not_lt_zero _), fun h => absurd h (Nat.not_lt_zero _)⟩
  | n + 1 => by
    have hwhole : LeavesWhole F (pass n).simplify := leavesWhole_pass n
    constructor
    · intro Γ N e hn he
      have hf := traversal_simplifyWith (pass n)
      exact hf.stands (X := fun _ => False) (addsNone_pass n) (upholds_pass n)
        (hf.leavesWhole hwhole fun _ _ => rfl) (fun _ _ => rfl) (fun _ h => h.elim) he hn (fun y => by simp)
        fun _ h => h.elim
    · intro Γ N x e hn hxF hx hxN he
      have hf := traversal_eliminateWith (pass n) x
      have hkept : ∀ y, ¬ x = y → eliminateWith (pass n) x (.ref y) = some (.ref y) := fun y hxy => by
        rw [eliminateWith, if_neg (Ne.symm hxy)]
      refine hf.stands (X := fun y => x = y) (addsNone_pass n) (upholds_pass n)
        (hf.leavesWhole hwhole fun y hy => hkept y ?_) hkept (fun y hxy => ?_) he hn (fun y => ?_) ?_
      · rintro rfl
        exact hxF hy
      · rw [eliminateWith, if_pos hxy.symm]
      · exact ⟨fun h => ⟨Or.inr h, fun hxy => hx (hxy ▸ h)⟩, fun h => h.1.resolve_left h.2⟩
      · rintro y rfl
        exact ⟨hxN, Or.inl rfl⟩

/-- Where simplifying finds no value, evaluation finds none. -/
theorem evaluate_of_simplify_eq_none {F Γ : VarId → Prop} {e : Expr} {c : Setting} {s s' : Session} {v : Option Value}
    (he : Intact F Γ e) (hnone : simplify e = none) (h : evaluate e c s = (.ok v, s')) : v = none := by
  have hstands : Stands F Γ (fun _ => False) (some e) (simplify e) :=
    (upholds_pass _).simplify (Nat.lt_succ_self _) he
  rw [hnone] at hstands
  have hensures := hstands.of_eq_none.ensures_none (c := c) (σ := s.scope) (fun _ hx => hx.elim)
    (c.limits.maxDepth - s.depth)
  exact (hensures s v s' rfl h).2

/-- The expression `let x = () in let y = x in if f.NAME == "a" then for z in y do z.NAME else x + 1`. -/
def unanswered : Expr :=
  .letAlways ⟨1, "x"⟩ (.tuple []) (.letAlways ⟨2, "y"⟩ (.ref 1)
    (.ifElse (.binary .eq (.field (.ref 0) "NAME") (.str "a"))
      (.forIn ⟨3, "z"⟩ (.ref 2) (.int 1) (.field (.ref 3) "NAME"))
      (.binary .add (.ref 1) (.int 1))))

theorem intact_unanswered : Intact (fun y => y = 0 ∨ y = 3) (· = 0) unanswered := by
  have htest : Intact (fun y => y = 0 ∨ y = 3) (under (some 2) (under (some 1) (· = 0)))
      (.binary .eq (.field (.ref 0) "NAME") (.str "a")) := by
    refine .op rfl (.op rfl (.ref (by simp [under])) ?_) ?_ <;> exact fun a ha => by cases ha; exact .val _
  refine .letIn (by simp) (by simp) (Or.inl rfl) (.tuple fun a ha => by cases ha) (.val _) ?_
  refine .letIn (by simp [under]) (by simp) (Or.inl rfl) (.ref (by simp [under])) (.val _) ?_
  refine .cond (Or.inr (.left rfl (.ruleless rfl))) htest (fun a ha => ?_) fun a ha => ?_ <;> cases ha
  · exact .forIn (Or.inl rfl) (.ref (by simp [under])) (.val _) (.binary rfl (.ref (by simp)) (.val _))
  · exact .op rfl (.ref (by simp [under])) fun a ha => by cases ha; exact .val _

def objectForF : Session :=
  { Session.new false with scope := [(0, some (.object 5))] }

theorem evaluate_of_simplify_eq_none_unanswered : simplify unanswered = none ∧
    ∃ v s', evaluate unanswered ⟨⟨[], []⟩, ⟨12, none, 0⟩, .standard⟩ objectForF = (.ok v, s') ∧ v = none := by
  have h : evaluate unanswered ⟨⟨[], []⟩, ⟨12, none, 0⟩, .standard⟩ objectForF = (.ok none, _) := rfl
  exact ⟨rfl, _, _, h, evaluate_of_simplify_eq_none intact_unanswered rfl h⟩

/-- The loop `for dead in ALL suchthat 0 do dead`. -/
def deadLoop : Expr :=
  .forIn ⟨0, "dead"⟩ .all (.int 0) (.ref 0)

/-- The expression `let x = () in for y in ALL do x`. -/
def emptiedLoop : Expr :=
  .letAlways ⟨0, "x"⟩ (.tuple []) (.forIn ⟨1, "y"⟩ .all (.int 1) (.ref 0))

/-- Neither loop is intact, and both have a value. -/
theorem simplify_loses_loops :
    (simplify deadLoop = none ∧
      (evaluate deadLoop ⟨⟨[], []⟩, .standard, .standard⟩ (Session.new false)).1 = .ok (some (.listOf []))) ∧
    simplify emptiedLoop = none ∧
      (evaluate emptiedLoop ⟨⟨[], []⟩, .standard, .standard⟩ (Session.new false)).1 = .ok (some (.listOf [])) :=
  ⟨⟨rfl, rfl⟩, rfl, rfl⟩

end Provenance.Prepare
