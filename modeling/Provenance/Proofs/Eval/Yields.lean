import Provenance.Proofs.Eval.CarryOver

/-!
# What a computation yields in a scope

A steady computation has the same outcome in all sessions with the same
bindings, so its outcome can be spoken of without a session: `Yields` says that
it has an outcome in a scope and, when `quiet`, that it reports nothing. What a
node yields is what its parts yield, put together (`yields_bind` and so on).
-/

namespace Provenance.Eval

open Provenance.Expr (Direct)

/-- What the computation makes of a session it makes of all with the same bindings. -/
abbrev Steady {α : Type} (m : Eval α) : Prop :=
  CarriesOver (fun _ => True) m m

theorem Steady.binding {α : Type} {m : Eval α} (h : Steady m) (x : VarId) (v : Option Value) :
    Steady (binding x v m) :=
  respected_carriesOver.binding x v (h.mono fun _ _ => Or.inr trivial)

theorem Steady.evaluateIn {n : Nat} {e : Expr} (h : Direct e) : Steady (evaluateIn n e) :=
  evaluateIn_carriesOver (Nat.le_refl n) h fun _ _ => trivial

/-- In some session with the given bindings the computation has the outcome and, when `quiet`,
reports nothing. -/
def Yields (quiet : Bool) (c : Setting) (σ : Scope (Option Value)) {α : Type} (m : Eval α) (a : α) : Prop :=
  ∃ s s', s.scope = σ ∧ m c s = (.ok a, s') ∧ (quiet = true → s'.diagnostics = s.diagnostics)

variable {q : Bool} {c : Setting} {σ : Scope (Option Value)} {α β : Type}

theorem Yields.of_run {m : Eval α} {a : α} {s s' : Session} (h : m c s = (.ok a, s')) : Yields false c s.scope m a :=
  ⟨s, s', rfl, h, fun hq => by cases hq⟩

theorem Yields.weaken {m : Eval α} {a : α} (h : Yields q c σ m a) : Yields false c σ m a := by
  obtain ⟨s, s', hs, hm, -⟩ := h
  exact ⟨s, s', hs, hm, fun hq => by cases hq⟩

theorem Yields.run {m m' : Eval α} {a : α} {X : VarId → Prop} (hm : CarriesOver X m m') (h : Yields q c σ m a)
    {t : Session} (ht : ∀ x, X x → σ.lookup? x = t.scope.lookup? x) :
    ∃ t', m' c t = (.ok a, t') ∧ t'.scope = t.scope ∧ (q = true → t'.diagnostics = t.diagnostics) := by
  obtain ⟨s, s', rfl, hs, hq⟩ := h
  obtain ⟨-, t', ds, htt, hscope, hds, hdt⟩ := hm c s t a s' ht hs
  refine ⟨t', htt, hscope, fun h => ?_⟩
  have hnil : ds = #[] := by simpa [hq h] using hds
  rw [hdt, hnil, Array.append_empty]

theorem Yields.unique {m m' : Eval α} {a b : α} {q' : Bool} (hm : CarriesOver (fun _ => True) m m')
    (h : Yields q c σ m a) (h' : Yields q' c σ m' b) : a = b := by
  obtain ⟨t, t', rfl, ht, -⟩ := h'
  obtain ⟨t'', ht', -⟩ := h.run hm (t := t) fun _ _ => rfl
  rw [ht] at ht'
  cases ht'
  rfl

/-! ## The elementary computations -/

def inScope (σ : Scope (Option Value)) : Session :=
  { Session.new false with scope := σ }

theorem yields_pure {a b : α} : Yields q c σ (pure a) b ↔ b = a := by
  constructor
  · intro h
    obtain ⟨s, s', -, h, -⟩ := h
    cases h
    rfl
  · intro h
    subst h
    exact ⟨inScope σ, _, rfl, rfl, fun _ => rfl⟩

theorem yields_note {line : Unit → String} {u : Unit} : Yields q c σ (note line) u :=
  ⟨inScope σ, _, rfl, rfl, fun _ => rfl⟩

theorem yields_graph {g : Graph} : Yields q c σ graph g ↔ g = c.graph := by
  constructor
  · intro h
    obtain ⟨s, s', -, h, -⟩ := h
    cases h
    rfl
  · intro h
    subst h
    exact ⟨inScope σ, _, rfl, rfl, fun _ => rfl⟩

theorem yields_library {lib : Library} : Yields q c σ library lib ↔ lib = c.library := by
  constructor
  · intro h
    obtain ⟨s, s', -, h, -⟩ := h
    cases h
    rfl
  · intro h
    subst h
    exact ⟨inScope σ, _, rfl, rfl, fun _ => rfl⟩

theorem yields_report {f : Fault} {span : Option Span} {v : Option Value} :
    Yields q c σ (report f span) v ↔ q = false ∧ v = none := by
  constructor
  · intro h
    obtain ⟨s, s', -, h, hq⟩ := h
    cases h
    refine ⟨Bool.eq_false_iff.mpr fun hq' => ?_, rfl⟩
    have := congrArg Array.size (hq hq')
    simp at this
  · intro h
    obtain ⟨rfl, rfl⟩ := h
    exact ⟨inScope σ, _, rfl, rfl, fun h => by cases h⟩

theorem yields_orReport {r : Except Fault Value} {span : Option Span} {v : Value} :
    Yields q c σ (orReport r span) (some v) ↔ r = .ok v := by
  cases r with
  | ok w => simp [orReport, yields_pure, eq_comm]
  | error f => simp [orReport, yields_report]

theorem yields_readVar {x : VarId} {a v : Option Value} (h : σ.lookup? x = some a) :
    Yields q c σ (readVar x) v ↔ v = a := by
  constructor
  · intro h
    obtain ⟨s, s', rfl, hv, -⟩ := h
    rw [readVar_of_bound h] at hv
    cases hv
    rfl
  · intro h
    subst h
    exact ⟨inScope σ, _, rfl, readVar_of_bound h, fun _ => rfl⟩

theorem lookup?_of_yields {x : VarId} {v : Value} (h : Yields q c σ (readVar x) (some v)) :
    σ.lookup? x = some (some v) := by
  cases hl : σ.lookup? x with
  | some a => rw [(yields_readVar hl).mp h]
  | none =>
    obtain ⟨s, s', rfl, hv, -⟩ := h
    rw [readVar_of_unbound hl] at hv
    cases hv

/-! ## Putting computations together -/

theorem yields_bind {m : Eval α} {f : α → Eval β} {b : β} (hm : Steady m) (hf : ∀ a, Steady (f a)) :
    Yields q c σ (m >>= f) b ↔ ∃ a, Yields q c σ m a ∧ Yields q c σ (f a) b := by
  constructor
  · intro h
    obtain ⟨s, s₂, rfl, h, hq⟩ := h
    obtain ⟨a, s₁, hms, hfa⟩ := exists_of_bind_eq_ok h
    obtain ⟨hs₁, -, ds, -, -, hds, -⟩ := hm c s s a s₁ (fun _ _ => rfl) hms
    obtain ⟨-, -, ds', -, -, hds', -⟩ := hf a c s₁ s₁ b s₂ (fun _ _ => rfl) hfa
    have hnil : q = true → ds = #[] ∧ ds' = #[] := by
      intro h
      have := congrArg Array.size (hq h)
      rw [hds', hds, Array.size_append, Array.size_append] at this
      exact ⟨Array.eq_empty_of_size_eq_zero (by omega), Array.eq_empty_of_size_eq_zero (by omega)⟩
    refine ⟨a, ⟨s, s₁, rfl, hms, fun h => ?_⟩, ⟨s₁, s₂, hs₁, hfa, fun h => ?_⟩⟩
    · rw [hds, (hnil h).1, Array.append_empty]
    · rw [hds', (hnil h).2, Array.append_empty]
  · intro h
    obtain ⟨a, ⟨s, s₁, rfl, hs, hq⟩, hfa⟩ := h
    have hs₁ := (hm c s s a s₁ (fun _ _ => rfl) hs).1
    obtain ⟨s₂, hs₂, -, hq'⟩ := hfa.run (hf a) (t := s₁) fun x _ => by rw [hs₁]
    exact ⟨s, s₂, rfl, by rw [bind_of_ok hs, hs₂], fun h => (hq' h).trans (hq h)⟩

theorem yields_operate {o : Operator} {a b : Value} {span : Option Span} {v : Option Value} :
    Yields q c σ (operate o a b span) v ↔ Yields q c σ (orReport (Operate.binary c.library.engine o a b) span) v := by
  rw [operate, yields_bind respected_carriesOver.library fun _ => respected_carriesOver.orReport _ _]
  simp only [yields_library, exists_eq_left]

theorem yields_note_bind {line : Unit → String} {f : Unit → Eval β} {b : β} (hf : Steady (f ())) :
    Yields q c σ (note line >>= f) b ↔ Yields q c σ (f ()) b := by
  rw [yields_bind (respected_carriesOver.note line) fun _ => hf]
  exact ⟨fun ⟨_, _, h⟩ => h, fun h => ⟨(), yields_note, h⟩⟩

theorem yields_bind_note {m : Eval α} {line : α → Unit → String} {a : α} (hm : Steady m) :
    Yields q c σ (m >>= fun r => note (line r) >>= fun _ => pure r) a ↔ Yields q c σ m a := by
  have hnote : ∀ r, Steady (note (line r) >>= fun _ => pure r) := fun r =>
    respected_carriesOver.bind (respected_carriesOver.note _) fun _ => respected_carriesOver.pure r
  rw [yields_bind hm hnote]
  constructor
  · intro h
    obtain ⟨r, hr, h⟩ := h
    rw [yields_note_bind (respected_carriesOver.pure r), yields_pure] at h
    rwa [h]
  · intro h
    exact ⟨a, h, (yields_note_bind (respected_carriesOver.pure a)).mpr (yields_pure.mpr rfl)⟩

theorem yields_between {m : Eval α} {before after : Session → Session} {τ : Scope (Option Value)} {a : α}
    (hm : Steady m) (hτ : ∀ s, s.scope = σ → (before s).scope = τ)
    (hdiag : ∀ s, (before s).diagnostics = s.diagnostics ∧ (after s).diagnostics = s.diagnostics) :
    Yields q c σ (between before after m) a ↔ Yields q c τ m a := by
  constructor
  · intro h
    obtain ⟨s, s', hs, h, hq⟩ := h
    obtain ⟨s₁, hms, rfl⟩ := exists_of_between_eq_ok h
    exact ⟨before s, s₁, hτ s hs, hms, fun h => by rw [← (hdiag s₁).2, hq h, (hdiag s).1]⟩
  · intro h
    obtain ⟨t', ht, -, hq⟩ := h.run hm (t := before (inScope σ)) fun x _ => by rw [hτ _ rfl]
    refine ⟨inScope σ, after t', rfl, by rw [between_apply, ht], fun h => ?_⟩
    rw [(hdiag t').2, hq h, (hdiag _).1]

theorem yields_indented {m : Eval α} {a : α} (hm : Steady m) : Yields q c σ (indented m) a ↔ Yields q c σ m a :=
  yields_between hm (fun _ h => h) fun _ => ⟨rfl, rfl⟩

theorem yields_binding {m : Eval α} {x : VarId} {v : Option Value} {a : α} (hm : Steady m) :
    Yields q c σ (binding x v m) a ↔ Yields q c (σ.push x v) m a :=
  yields_between hm (fun s h => by rw [← h]) fun s => ⟨rfl, diagnostics_unbind s⟩

end Provenance.Eval
