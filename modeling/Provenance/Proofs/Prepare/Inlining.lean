import Provenance.Prepare.Simplify
import Provenance.Proofs.Prepare.Rules

/-!
# Bindings that go

An atom can stand for the variable that is bound to it (`replaces_substitute`),
and a binding that nothing refers to can be left out (`replaces_unused`).
-/

namespace Provenance.Prepare

open Eval
open Provenance.Expr (under substitute substituteAll)

variable {Δ Γ : VarId → Prop} {x : VarId} {b e : Expr}

/-! ## Substitution -/

/-- The scopes agree on `Γ`, and what the atom `b` has in the second is bound to `x` in the first. -/
def StandsFor (Γ : VarId → Prop) (x : VarId) (b : Expr) (σ τ : Bindings) : Prop :=
  (∀ y, Γ y → σ.lookup? y = τ.lookup? y) ∧
    ∃ a, σ.lookup? x = some (some a) ∧
      (a.isPlain = true ∧ b = .val a ∨ ∃ y, Γ y ∧ b = .ref y ∧ τ.lookup? y = some (some a))

theorem StandsFor.computes {c : Setting} {σ τ : Bindings} {n : Nat} {w : Value} (h : StandsFor Γ x b σ τ)
    (hw : Computes c σ n (.ref x) w) : Computes c τ n b w := by
  obtain ⟨-, a, ha, hb⟩ := h
  obtain ⟨n, rfl⟩ := hw.exists_succ
  cases (gives_ref ha).mp hw
  rcases hb with ⟨hplain, rfl⟩ | ⟨y, -, rfl, hy⟩
  · exact (computes_val hplain).mpr rfl
  · exact (gives_ref hy).mpr rfl

theorem StandsFor.of_pushed {z : VarId} {σ τ : Bindings} (hzx : z ≠ x) (hz : ¬ Γ z)
    (h : Pushed z (StandsFor Γ x b) σ τ) : StandsFor (under (some z) Γ) x b σ τ := by
  obtain ⟨σ₀, τ₀, u, ⟨hagree, a, ha, hb⟩, rfl, rfl⟩ := h
  refine ⟨fun y hy => ?_, a, by rw [Scope.lookup?_push_of_ne _ _ hzx, ha], ?_⟩
  · by_cases hzy : z = y
    · subst hzy
      rw [Scope.lookup?_push, Scope.lookup?_push]
    · rw [Scope.lookup?_push_of_ne _ _ hzy, Scope.lookup?_push_of_ne _ _ hzy, hagree y (hy.resolve_left hzy)]
  · refine hb.imp id fun ⟨y, hy, hby, hlookup⟩ => ⟨y, Or.inr hy, hby, ?_⟩
    have hzy : z ≠ y := by
      intro h
      subst h
      exact hz hy
    rw [Scope.lookup?_push_of_ne _ _ hzy, hlookup]

theorem Tidy.of_isAtom (h : Tidy Γ b) (hb : isAtom b = true) (hΓ : ∀ y, Γ y → Δ y) : Tidy Δ b := by
  cases h with
  | val h => exact .val h
  | ref h => exact .ref (hΓ _ h)
  | _ => cases hb

theorem substituteAll_map_some (es : List Expr) :
    substituteAll x b (es.map some) = (es.map (substitute x b)).map some := by
  induction es with
  | nil => rfl
  | cons e es ih => simp only [List.map_cons, substituteAll, Expr.substituteOpt, ih]

theorem follows_substitute (he : Tidy Δ e) : ∀ {Γ : VarId → Prop}, (∀ y, Δ y ↔ x = y ∨ Γ y) → Tidy Γ b →
    isAtom b = true → Follows Δ Γ (StandsFor Γ x b) e (substitute x b e) := by
  induction he with
  | val h =>
    intro Γ _ _ _
    refine ⟨.val h, fun {c σ τ n w} _ _ _ hw => ?_⟩
    obtain ⟨n, rfl⟩ := hw.exists_succ
    exact (computes_val h).mpr ((computes_val h).mp hw)
  | @ref Δ z hz =>
    intro Γ hΔ hb hatom
    rw [substitute]
    split
    · subst z
      exact ⟨hb, fun _ _ hR hw => hR.computes hw⟩
    · have hΓ : Γ z := ((hΔ z).mp hz).resolve_left (Ne.symm ‹_›)
      refine ⟨.ref hΓ, fun {c σ τ n w} _ _ hR hw => ?_⟩
      have hlookup := lookup?_of_gives hw
      obtain ⟨n, rfl⟩ := hw.exists_succ
      rw [hR.1 z hΓ] at hlookup
      exact (gives_ref hlookup).mpr rfl
  | unary ho he ih =>
    intro Γ hΔ hb hatom
    exact follows_unary ho he (ih hΔ hb hatom)
  | binary ho hl hr ihl ihr =>
    intro Γ hΔ hb hatom
    exact follows_binary ho hl hr (ihl hΔ hb hatom) (ihr hΔ hb hatom)
  | cond ht hy hn iht ihy ihn =>
    intro Γ hΔ hb hatom
    exact follows_cond ht hy hn (iht hΔ hb hatom) (ihy hΔ hb hatom) (ihn hΔ hb hatom)
  | @tuple Δ es hne h ih =>
    intro Γ hΔ hb hatom
    rw [substitute, substituteAll_map_some]
    refine follows_tuple hne h ?_
    exact List.forall₂_map_right_iff.mpr (List.forall₂_same.mpr fun e he => ih e he hΔ hb hatom)
  | @letIn Δ z bound g body hz hbound hg htrue hbody ihbound ihbody =>
    intro Γ hΔ hb hatom
    have hzx : z.id ≠ x := fun h => hz ((hΔ _).mpr (Or.inl h.symm))
    have hzΓ : ¬ Γ z.id := fun h => hz ((hΔ _).mpr (Or.inr h))
    have hunder : ∀ y, under (some z.id) Δ y ↔ x = y ∨ under (some z.id) Γ y := fun y =>
      (or_congr_right (hΔ y)).trans or_left_comm
    have hb' : Tidy (under (some z.id) Γ) b := hb.of_isAtom hatom fun _ => Or.inr
    exact follows_letIn (.letIn hz hbound hg htrue hbody) hzΓ (ihbound hΔ hb hatom)
      ((ihbody hunder hb' hatom).mono (StandsFor.of_pushed hzx hzΓ))

section
variable {v : Var} {g : Value} {bound body : Expr}

theorem replaces_substitute (h : Tidy Γ (.letIn v b (.val g) body)) (hatom : isAtom b = true) :
    Replaces Γ (.letIn v b (.val g) body) (substitute v.id b body) := by
  cases h with
  | letIn hv hb hg htrue hbody =>
    have hfollows := follows_substitute hbody (fun _ => Iff.rfl) hb hatom
    refine .of_succ hfollows.tidy fun hσ hw => ?_
    obtain ⟨a, ha, hw⟩ := (computes_letIn hσ (.letIn hv hb hg htrue hbody) hb htrue).mp hw
    refine hfollows.tidy.lift (hfollows.computes (hσ.push (hb.isPlain hσ ha)) hσ ⟨fun y hy => ?_, a, ?_, ?_⟩ hw)
    · refine Scope.lookup?_push_of_ne _ _ ?_
      intro h
      subst h
      exact hv hy
    · exact Scope.lookup?_push _ _ _
    · cases hb with
      | val hplain =>
        cases eq_of_computes_val (.val hplain : Tidy Γ _) ha
        exact Or.inl ⟨hplain, rfl⟩
      | @ref _ y hy => exact Or.inr ⟨y, hy, rfl, lookup?_of_gives ha⟩
      | _ => cases hatom

/-! ## Bindings without a use -/

theorem Tidy.restrict (h : Tidy Δ e) : ∀ {Γ : VarId → Prop}, (∀ y, Γ y → Δ y) →
    (∀ y, e.mentions y = true → Δ y → Γ y) → Tidy Γ e := by
  have hpart : ∀ {Δ Γ : VarId → Prop} {e a : Expr}, (∀ y, e.mentions y = true → Δ y → Γ y) →
      (none, a) ∈ e.parts → ∀ y, a.mentions y = true → Δ y → Γ y := fun h ha y hy =>
    h y (Expr.mentions_of_mem_parts ha hy)
  induction h with
  | val h => exact fun _ _ => .val h
  | @ref Δ y h => exact fun _ hΓ => .ref (hΓ y (by simp [Expr.mentions, Expr.nodes, Expr.isVar]) h)
  | unary ho _ ih => exact fun hsub hΓ => .unary ho (ih hsub (hpart hΓ (by simp [Expr.parts])))
  | binary ho _ _ ihl ihr =>
    exact fun hsub hΓ => .binary ho (ihl hsub (hpart hΓ (by simp [Expr.parts])))
      (ihr hsub (hpart hΓ (by simp [Expr.parts])))
  | cond _ _ _ iht ihy ihn =>
    exact fun hsub hΓ => .cond (iht hsub (hpart hΓ (by simp [Expr.parts])))
      (ihy hsub (hpart hΓ (by simp [Expr.parts]))) (ihn hsub (hpart hΓ (by simp [Expr.parts])))
  | tuple hne _ ih =>
    exact fun hsub hΓ => .tuple hne fun e he => ih e he hsub (hpart hΓ (by simpa [Expr.parts] using he))
  | @letIn Δ z bound g body hz _ hg htrue _ ihbound ihbody =>
    intro Γ hsub hΓ
    refine .letIn (fun h => hz (hsub _ h)) (ihbound hsub (hpart hΓ (by simp [Expr.parts]))) hg htrue
      (ihbody (fun y => Or.imp_right (hsub y)) fun y hy => Or.imp_right ?_)
    exact hΓ y (Expr.mentions_of_mem_parts (z := some z.id) (by simp [Expr.parts]) hy)

theorem Tidy.within (h : Tidy Γ e) : Expr.Within Γ e := by
  induction h with
  | val h => exact fun y hy => by cases hy
  | ref h =>
    intro y hy
    cases List.mem_singleton.mp hy
    exact h
  | unary _ _ ih | binary _ _ _ ihl ihr | cond _ _ _ iht ihy ihn | letIn _ _ _ _ _ ihbound ihbody =>
    refine Expr.within_of_parts (by simp) fun x a ha => ?_
    simp only [Expr.parts, Option.toList, List.map_nil, List.map_cons, List.cons_append, List.nil_append,
      List.mem_cons, Prod.mk.injEq, List.not_mem_nil, or_false] at ha
    grind [Expr.Within, Expr.freeVars, under]
  | tuple _ _ ih =>
    refine Expr.within_of_parts (by simp) fun x a ha => ?_
    rw [Expr.parts_tuple] at ha
    obtain ⟨e, he, heq⟩ := List.mem_map.mp ha
    cases heq
    exact ih _ he

theorem replaces_unused (h : Tidy Γ (.letIn v bound (.val g) body)) (hunused : body.mentions v.id = false) :
    Replaces Γ (.letIn v bound (.val g) body) body := by
  cases h with
  | letIn hv hb hg htrue hbody =>
    have ht : Tidy Γ body := by
      refine hbody.restrict (fun _ => Or.inr) fun y hy hunder => hunder.resolve_left ?_
      intro h
      subst h
      rw [hy] at hunused
      cases hunused
    refine .of_succ ht fun hσ hw => ?_
    obtain ⟨a, ha, hw⟩ := (computes_letIn hσ (.letIn hv hb hg htrue hbody) hb htrue).mp hw
    refine hw.carry ht.inert (Nat.le_succ _) fun y hy => Scope.lookup?_push_of_ne _ _ ?_
    intro h
    subst h
    exact hv (ht.within _ hy)

theorem replaces_bound (h : Tidy Γ (.letIn v bound (.val g) (.ref v.id))) :
    Replaces Γ (.letIn v bound (.val g) (.ref v.id)) bound := by
  cases h with
  | letIn hv hb hg htrue hbody =>
    refine .of_succ hb fun hσ hw => ?_
    obtain ⟨a, ha, hw⟩ := (computes_letIn hσ (.letIn hv hb hg htrue hbody) hb htrue).mp hw
    have hlookup := lookup?_of_gives hw
    rw [Scope.lookup?_push] at hlookup
    cases hlookup
    exact hb.lift ha

end

end Provenance.Prepare
