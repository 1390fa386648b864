import Provenance.Proofs.Eval.Respect

/-!
# Outcomes that carry over

A direct expression that has an outcome in one session has the same one, with
the same reports, in every session that binds its free variables alike, and with
every number of levels that is at least as large (`evaluateIn_carriesOver`). The
bindings are afterwards what they were.
-/

namespace Provenance.Eval

open Provenance.Expr (under)

def Agree (X : VarId → Prop) (s t : Session) : Prop :=
  ∀ x, X x → s.scope.lookup? x = t.scope.lookup? x

theorem lookup?_push_congr {X : VarId → Prop} {σ τ : Scope (Option Value)} {x : VarId} {v : Option Value}
    (h : ∀ y, X y → σ.lookup? y = τ.lookup? y) :
    ∀ y, under (some x) X y → (σ.push x v).lookup? y = (τ.push x v).lookup? y := by
  intro y hy
  by_cases hxy : x = y
  · subst hxy
    rw [Scope.lookup?_push, Scope.lookup?_push]
  · rw [Scope.lookup?_push_of_ne _ _ hxy, Scope.lookup?_push_of_ne _ _ hxy]
    exact h y (hy.resolve_left hxy)

/-- What the first computation makes of a session the second makes of every session that agrees
with it. -/
def CarriesOver (X : VarId → Prop) {α : Type} (m m' : Eval α) : Prop :=
  ∀ (c : Setting) (s t : Session) (a : α) (s' : Session), Agree X s t → m c s = (.ok a, s') →
    s'.scope = s.scope ∧ ∃ t' ds, m' c t = (.ok a, t') ∧ t'.scope = t.scope ∧
      s'.diagnostics = s.diagnostics ++ ds ∧ t'.diagnostics = t.diagnostics ++ ds

namespace CarriesOver

variable {X : VarId → Prop} {α β : Type}

theorem mono {Y : VarId → Prop} {m m' : Eval α} (hXY : ∀ x, X x → Y x) (h : CarriesOver X m m') :
    CarriesOver Y m m' :=
  fun c s t a s' hst hm => h c s t a s' (fun x hx => hst x (hXY x hx)) hm

theorem of_silent {m : Eval α} (a : Setting → α)
    (h : ∀ c s, ∃ s', m c s = (.ok (a c), s') ∧ s'.scope = s.scope ∧ s'.diagnostics = s.diagnostics) :
    CarriesOver X m m := by
  intro c s t b s' _ hm
  obtain ⟨s₁, hs, hscope, hdiag⟩ := h c s
  obtain ⟨t₁, ht, htscope, htdiag⟩ := h c t
  rw [hs] at hm
  cases hm
  exact ⟨hscope, t₁, #[], ht, htscope, by simp [hdiag], by simp [htdiag]⟩

theorem bind {m m' : Eval α} {f f' : α → Eval β} (hm : CarriesOver X m m')
    (hf : ∀ a, CarriesOver X (f a) (f' a)) : CarriesOver X (m >>= f) (m' >>= f') := by
  intro c s t b s₂ hst h
  obtain ⟨a, s₁, hms, hfa⟩ := exists_of_bind_eq_ok h
  obtain ⟨hs₁, t₁, ds, ht, ht₁, hds, hdt⟩ := hm c s t a s₁ hst hms
  have hagree : Agree X s₁ t₁ := by
    intro x hx
    rw [hs₁, ht₁, hst x hx]
  obtain ⟨hs₂, t₂, ds', ht', ht₂, hds', hdt'⟩ := hf a c s₁ t₁ b s₂ hagree hfa
  refine ⟨hs₂.trans hs₁, t₂, ds ++ ds', ?_, ht₂.trans ht₁, ?_, ?_⟩
  · rw [bind_of_ok ht, ht']
  · rw [hds', hds, Array.append_assoc]
  · rw [hdt', hdt, Array.append_assoc]

theorem report (f : Fault) (span : Option Span) : CarriesOver X (report f span) (report f span) := by
  intro c s t a s' _ h
  cases h
  exact ⟨rfl, _, #[⟨f, span⟩], rfl, rfl, rfl, rfl⟩

theorem readVar {x : VarId} (hx : X x) : CarriesOver X (readVar x) (readVar x) := by
  intro c s t a s' hst h
  have hxs := hst x hx
  cases hl : s.scope.lookup? x with
  | some v =>
    rw [readVar_of_bound hl] at h
    cases h
    exact ⟨rfl, t, #[], readVar_of_bound (hxs ▸ hl), rfl, by simp, by simp⟩
  | none =>
    rw [readVar_of_unbound hl] at h
    rw [readVar_of_unbound (hxs ▸ hl)]
    exact report _ none c s t a s' hst h

theorem between {Y : VarId → Prop} {m m' : Eval α} {before after : Session → Session} (hm : CarriesOver Y m m')
    (hY : ∀ s t, Agree X s t → Agree Y (before s) (before t))
    (hdiag : ∀ s, (before s).diagnostics = s.diagnostics ∧ (after s).diagnostics = s.diagnostics)
    (hscope : ∀ s s', s'.scope = (before s).scope → (after s').scope = s.scope) :
    CarriesOver X (between before after m) (between before after m') := by
  intro c s t a s₂ hst h
  obtain ⟨s₁, hms, rfl⟩ := exists_of_between_eq_ok h
  obtain ⟨hs₁, t₁, ds, ht, ht₁, hds, hdt⟩ := hm c _ _ a s₁ (hY s t hst) hms
  refine ⟨hscope s s₁ hs₁, after t₁, ds, ?_, hscope t t₁ ht₁, ?_, ?_⟩
  · rw [between_apply, ht]
  · rw [(hdiag s₁).2, hds, (hdiag s).1]
  · rw [(hdiag t₁).2, hdt, (hdiag t).1]

end CarriesOver

theorem respected_carriesOver : Respected @CarriesOver where
  pure a := .of_silent (fun _ => a) fun c s => ⟨s, rfl, rfl, rfl⟩
  bind := CarriesOver.bind
  note line := .of_silent (fun _ => ()) fun c s => ⟨_, rfl, rfl, rfl⟩
  report := CarriesOver.report
  graph := .of_silent Setting.graph fun c s => ⟨s, rfl, rfl, rfl⟩
  library := .of_silent Setting.library fun c s => ⟨s, rfl, rfl, rfl⟩
  readVar := CarriesOver.readVar
  indented hm := hm.between (fun _ _ h => h) (fun _ => ⟨rfl, rfl⟩) fun _ _ h => h
  binding x v hm := by
    refine hm.between (fun _ _ => lookup?_push_congr) (fun s => ⟨rfl, diagnostics_unbind s⟩) fun s s' h => ?_
    rw [unbind_of_push h]

theorem evaluateIn_carriesOver {X : VarId → Prop} : ∀ {n k : Nat} {e : Expr}, n ≤ k → e.Direct → e.Within X →
    CarriesOver X (evaluateIn n e) (evaluateIn k e)
  | 0, _, _, _, _, _ => fun _ _ _ _ _ _ h => by cases h
  | n + 1, 0, _, h, _, _ => by omega
  | n + 1, k + 1, e, h, hi, hX => by
    have hnode : CarriesOver X (node (evaluateIn n) e) (node (evaluateIn k) e) :=
      respected_carriesOver.node hi.self hX fun x a ha =>
        evaluateIn_carriesOver (by omega) (hi.part ha) (hX.part ha)
    simp only [evaluateIn, deeper]
    exact hnode.between (fun _ _ h => h) (fun _ => ⟨rfl, rfl⟩) fun _ _ h => h

end Provenance.Eval
