import Provenance.Proofs.Prepare.Tidy

/-!
# Replacing an expression

`Replaces Γ e e'`: wherever `Γ` is bound to plain values, `e'` has the value
that `e` has, if that reports nothing, and needs no more levels for it. The
parts of a node may be replaced one by one, also where the two expressions are
not meant for the same scope (`Follows`).
-/

namespace Provenance.Prepare

open Eval
open Provenance.Expr (Inert under int ofBool)

abbrev Bindings := Scope (Option Value)

/-- In related scopes that bind `Δ` and `Γ` to plain values, the second expression has the value that
the first has, if that reports nothing. -/
structure Follows (Δ Γ : VarId → Prop) (R : Bindings → Bindings → Prop) (e e' : Expr) : Prop where
  tidy : Tidy Γ e'
  computes : ∀ {c σ τ n w}, OnPlain Δ σ → OnPlain Γ τ → R σ τ → Computes c σ n e w → Computes c τ n e' w

structure Replaces (Γ : VarId → Prop) (e e' : Expr) : Prop where
  tidy : Tidy Γ e'
  computes : ∀ {c σ n w}, OnPlain Γ σ → Computes c σ n e w → Computes c σ n e' w

variable {Δ Γ : VarId → Prop} {R : Bindings → Bindings → Prop}

theorem Replaces.refl {e : Expr} (h : Tidy Γ e) : Replaces Γ e e :=
  ⟨h, fun _ hw => hw⟩

theorem Replaces.trans {e e' e'' : Expr} (h : Replaces Γ e e') (h' : Replaces Γ e' e'') : Replaces Γ e e'' :=
  ⟨h'.tidy, fun hσ hw => h'.computes hσ (h.computes hσ hw)⟩

/-- A value takes one level at least. -/
theorem Replaces.of_succ {e e' : Expr} (he' : Tidy Γ e') (h : ∀ {c σ n w}, OnPlain Γ σ → Computes c σ (n + 1) e w →
    Computes c σ (n + 1) e' w) : Replaces Γ e e' := by
  refine ⟨he', fun {c σ n w} hσ hw => ?_⟩
  obtain ⟨n, rfl⟩ := hw.exists_succ
  exact h hσ hw

theorem Replaces.follows {e e' : Expr} (h : Replaces Γ e e') : Follows Γ Γ Eq e e' :=
  ⟨h.tidy, fun hσ _ hR hw => hR ▸ h.computes hσ hw⟩

theorem Follows.replaces {e e' : Expr} (h : Follows Γ Γ Eq e e') : Replaces Γ e e' :=
  ⟨h.tidy, fun hσ hw => h.computes hσ hσ rfl hw⟩

theorem Follows.mono {R' : Bindings → Bindings → Prop} {e e' : Expr} (h : Follows Δ Γ R e e')
    (hR : ∀ {σ τ}, R' σ τ → R σ τ) : Follows Δ Γ R' e e' :=
  ⟨h.tidy, fun hσ hτ hστ hw => h.computes hσ hτ (hR hστ) hw⟩

/-! ## Part by part -/

section
variable {o : Operator} {l l' r r' : Expr} {span : Option Span}

theorem follows_unary (ho : o.isUnary = true) (h : Tidy Δ l) (h' : Follows Δ Γ R l l') :
    Follows Δ Γ R (.op o l none span) (.op o l' none span) where
  tidy := .unary ho h'.tidy
  computes {c σ τ n w} hσ hτ hR hw := by
    obtain ⟨n, rfl⟩ := hw.exists_succ
    obtain ⟨a, ha, hw⟩ := (computes_unary hσ h ho).mp hw
    exact (computes_unary hτ h'.tidy ho).mpr ⟨a, h'.computes hσ hτ hR ha, hw⟩

theorem follows_binary (ho : joinsValues o = true) (hl : Tidy Δ l) (hr : Tidy Δ r) (hl' : Follows Δ Γ R l l')
    (hr' : Follows Δ Γ R r r') : Follows Δ Γ R (.op o l (some r) span) (.op o l' (some r') span) where
  tidy := .binary ho hl'.tidy hr'.tidy
  computes {c σ τ n w} hσ hτ hR hw := by
    obtain ⟨n, rfl⟩ := hw.exists_succ
    have hleft : ∀ {a}, Computes c σ n l a → Computes c τ n l' a := hl'.computes hσ hτ hR
    have hright : ∀ {b}, Computes c σ n r b → Computes c τ n r' b := hr'.computes hσ hτ hR
    rcases needsBoth_or ho with hboth | ⟨goOn, hgo⟩
    · obtain ⟨a, b, ha, hb, hw⟩ := (computes_both hσ hl hr hboth).mp hw
      exact (computes_both hτ hl'.tidy hr'.tidy hboth).mpr ⟨a, b, hleft ha, hright hb, hw⟩
    · obtain ⟨a, ha, hw⟩ := (computes_connective hσ hl hr hgo).mp hw
      refine (computes_connective hτ hl'.tidy hr'.tidy hgo).mpr ⟨a, hleft ha, ?_⟩
      by_cases ha' : a.isTrue = goOn
      · rw [if_pos ha'] at hw ⊢
        obtain ⟨b, hb, hw⟩ := hw
        exact ⟨b, hright hb, hw⟩
      · rwa [if_neg ha'] at hw ⊢

end

theorem follows_cond {test yes no test' yes' no' : Expr} (ht : Tidy Δ test) (hy : Tidy Δ yes) (hn : Tidy Δ no)
    (ht' : Follows Δ Γ R test test') (hy' : Follows Δ Γ R yes yes') (hn' : Follows Δ Γ R no no') :
    Follows Δ Γ R (.cond test (some yes) (some no)) (.cond test' (some yes') (some no')) where
  tidy := .cond ht'.tidy hy'.tidy hn'.tidy
  computes {c σ τ n w} hσ hτ hR hw := by
    obtain ⟨n, rfl⟩ := hw.exists_succ
    obtain ⟨t, ht₁, hw⟩ := (computes_cond hσ ht hy hn).mp hw
    refine (computes_cond hτ ht'.tidy hy'.tidy hn'.tidy).mpr ⟨t, ht'.computes hσ hτ hR ht₁, ?_⟩
    by_cases htrue : t.isTrue = true
    · rw [if_pos htrue] at hw ⊢
      exact hy'.computes hσ hτ hR hw
    · rw [if_neg htrue] at hw ⊢
      exact hn'.computes hσ hτ hR hw

theorem forall₂_computes {c : Setting} {σ τ : Bindings} {n : Nat} {es es' : List Expr} {vs : List Value}
    (hσ : OnPlain Δ σ) (hτ : OnPlain Γ τ) (hR : R σ τ) (h : List.Forall₂ (Follows Δ Γ R) es es')
    (hvs : List.Forall₂ (Computes c σ n) es vs) : List.Forall₂ (Computes c τ n) es' vs := by
  induction h generalizing vs with
  | nil => cases hvs; exact .nil
  | cons he _ ih =>
    cases hvs with
    | cons hv hvs => exact .cons (he.computes hσ hτ hR hv) (ih hvs)

theorem tidy_of_forall₂ {es es' : List Expr} (h : List.Forall₂ (Follows Δ Γ R) es es') : ∀ e ∈ es', Tidy Γ e := by
  induction h with
  | nil =>
    intro e he
    cases he
  | cons he _ ih =>
    intro e he'
    rcases List.mem_cons.mp he' with rfl | he'
    · exact he.tidy
    · exact ih e he'

theorem follows_tuple {es es' : List Expr} (hne : es ≠ []) (h : ∀ e ∈ es, Tidy Δ e)
    (h' : List.Forall₂ (Follows Δ Γ R) es es') : Follows Δ Γ R (.tuple (es.map some)) (.tuple (es'.map some)) where
  tidy := by
    refine .tuple ?_ (tidy_of_forall₂ h')
    intro h
    subst h
    cases h'
    exact hne rfl
  computes {c σ τ n w} hσ hτ hR hw := by
    obtain ⟨n, rfl⟩ := hw.exists_succ
    obtain ⟨vs, hvs, hw⟩ := (computes_tuple hσ h).mp hw
    exact (computes_tuple hτ (tidy_of_forall₂ h')).mpr ⟨vs, forall₂_computes hσ hτ hR h' hvs, hw⟩

def Pushed (x : VarId) (R : Bindings → Bindings → Prop) (σ τ : Bindings) : Prop :=
  ∃ σ₀ τ₀ a, R σ₀ τ₀ ∧ σ = σ₀.push x a ∧ τ = τ₀.push x a

theorem eq_of_pushed {x : VarId} {σ τ : Bindings} (h : Pushed x Eq σ τ) : σ = τ := by
  obtain ⟨σ₀, -, a, rfl, rfl, rfl⟩ := h
  rfl

theorem follows_letIn {x : Var} {bound body bound' body' : Expr} {g : Value}
    (h : Tidy Δ (.letIn x bound (.val g) body)) (hx : ¬ Γ x.id) (hb' : Follows Δ Γ R bound bound')
    (hbody' : Follows (under (some x.id) Δ) (under (some x.id) Γ) (Pushed x.id R) body body') :
    Follows Δ Γ R (.letIn x bound (.val g) body) (.letIn x bound' (.val g) body') := by
  cases h with
  | letIn hxΔ hb hg htrue hbody =>
    have ht : Tidy Γ (.letIn x bound' (.val g) body') := .letIn hx hb'.tidy hg htrue hbody'.tidy
    refine ⟨ht, fun {c σ τ n w} hσ hτ hR hw => ?_⟩
    obtain ⟨n, rfl⟩ := hw.exists_succ
    obtain ⟨a, ha, hw⟩ := (computes_letIn hσ (.letIn hxΔ hb hg htrue hbody) hb htrue).mp hw
    have ha' : Computes c τ n bound' a := hb'.computes hσ hτ hR ha
    refine (computes_letIn hτ ht hb'.tidy htrue).mpr ⟨a, ha', ?_⟩
    exact hbody'.computes (hσ.push (hb.isPlain hσ ha)) (hτ.push (hb'.tidy.isPlain hτ ha')) ⟨σ, τ, _, hR, rfl, rfl⟩ hw

/-! ## Literals -/

section
variable {e : Expr} {a : Value} {i : Int64}

theorem eq_val_of_literal? (h : e.literal? = some a) : e = .val a := by
  cases e <;> simp_all [Expr.literal?]

theorem eq_int_of_int? (h : e.int? = some i) : e = int i := by
  cases e with
  | val v => cases v <;> simp_all [Expr.int?, Expr.literal?, Value.int?, int]
  | _ => simp [Expr.int?, Expr.literal?] at h

theorem tidy_int : Tidy Γ (int i) := .val rfl

theorem tidy_ofBool {b : Bool} : Tidy Γ (ofBool b) := .val (Value.isPlain_ofBool b)

theorem isPlain_of_tidy (h : Tidy Γ (.val a)) : a.isPlain = true := by
  cases h with
  | val h => exact h

variable {c : Setting} {σ : Scope (Option Value)} {n : Nat} {w : Value}

theorem eq_of_computes_val (h : Tidy Γ (.val a)) (hw : Computes c σ n (.val a) w) : w = a :=
  Option.some.inj (eq_of_gives_val h.inert hw)

theorem computes_int : Computes c σ (n + 1) (int i) w ↔ w = .int i :=
  computes_val rfl

theorem computes_ofBool {b : Bool} : Computes c σ (n + 1) (ofBool b) w ↔ w = .ofBool b :=
  computes_val (Value.isPlain_ofBool b)

theorem eq_of_computes_int (h : Computes c σ n (int i) w) : w = .int i :=
  Option.some.inj (eq_of_gives_val (Expr.inert_val rfl) h)

theorem Tidy.lift (h : Tidy Γ e) (hw : Computes c σ n e w) : Computes c σ (n + 1) e w :=
  hw.mono h.inert (Nat.le_succ n)

end

end Provenance.Prepare
