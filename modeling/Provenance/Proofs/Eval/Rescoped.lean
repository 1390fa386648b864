import Provenance.Proofs.Eval.CarryOver

/-!
# Computations in another scope

Where the bindings are others, `Rescoped` says, a computation still comes to the
same outcome, with the same reports, the same trace and the same counts, and it
leaves the bindings as it finds them, even if it is aborted.
-/

namespace Provenance.Eval

/-- Where the bindings are those of `σ`, the second computation does what the first one does where it is. -/
structure Rescoped {α : Type} (m m' : Eval α) (c : Setting) (s : Session) (σ : Scope (Option Value)) : Prop where
  same : m' c { s with scope := σ } = ((m c s).1, { (m c s).2 with scope := σ })
  scope : (m c s).2.scope = s.scope

namespace Rescoped

variable {α β : Type} {m m' : Eval α} {c : Setting} {s : Session} {σ : Scope (Option Value)}

theorem bind {f f' : α → Eval β} (hm : Rescoped m m' c s σ)
    (hf : ∀ a, (m c s).1 = .ok a → Rescoped (f a) (f' a) c (m c s).2 σ) : Rescoped (m >>= f) (m' >>= f') c s σ := by
  obtain ⟨hsame, hscope⟩ := hm
  rcases hms : m c s with ⟨e | a, s₁⟩
  · rw [hms] at hsame hscope
    exact ⟨by rw [bind_of_abort hms, bind_of_abort hsame], by rwa [bind_of_abort hms]⟩
  · rw [hms] at hsame hscope hf
    have h := hf a rfl
    exact ⟨by rw [bind_of_ok hms, bind_of_ok hsame, h.same], by rw [bind_of_ok hms, h.scope, hscope]⟩

theorem readVar {x : VarId} (hx : s.scope.lookup? x = σ.lookup? x) :
    Rescoped (Eval.readVar x) (Eval.readVar x) c s σ := by
  cases hl : s.scope.lookup? x with
  | some v =>
    have hσ := readVar_of_bound (c := c) (s := { s with scope := σ }) (hx ▸ hl)
    exact ⟨by rw [hσ, readVar_of_bound hl], by rw [readVar_of_bound hl]⟩
  | none =>
    have hσ := readVar_of_unbound (c := c) (s := { s with scope := σ }) (hx ▸ hl)
    exact ⟨by rw [hσ, readVar_of_unbound hl]; rfl, by rw [readVar_of_unbound hl]; rfl⟩

theorem binding {x : VarId} {v : Option Value}
    (hm : Rescoped m m' c { s with scope := s.scope.push x v } (σ.push x v)) :
    Rescoped (binding x v m) (binding x v m') c s σ := by
  have hunbind := unbind_of_push hm.scope
  refine ⟨?_, ?_⟩
  · simp only [Eval.binding, between_apply, hm.same, hunbind]
    rfl
  · simp only [Eval.binding, between_apply, hunbind]

theorem indented (hm : Rescoped m m' c (enter s) σ) : Rescoped (indented m) (indented m') c s σ := by
  have hsame : m' c (enter { s with scope := σ }) = _ := hm.same
  refine ⟨?_, hm.scope⟩
  simp only [Eval.indented, between_apply, hsame]
  rfl

theorem deeper (hm : Rescoped m m' c { s with depth := s.depth + 1 } σ) : Rescoped (deeper m) (deeper m') c s σ := by
  refine ⟨?_, hm.scope⟩
  simp only [Eval.deeper, between_apply, hm.same]

end Rescoped

end Provenance.Eval
