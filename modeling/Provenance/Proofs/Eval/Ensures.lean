import Provenance.Proofs.Eval.Yields

/-!
# What an outcome is known to satisfy

`Ensures c σ m P`: in every session with the bindings `σ`, an outcome of the
computation satisfies `P`, and the bindings are afterwards what they were. The
computation need not be steady. `Returns m P` is the same in all sessions, with
nothing said about bindings.
-/

namespace Provenance.Eval

def Ensures (c : Setting) (σ : Scope (Option Value)) {α : Type} (m : Eval α) (P : α → Prop) : Prop :=
  ∀ s a s', s.scope = σ → m c s = (.ok a, s') → s'.scope = σ ∧ P a

variable {c : Setting} {σ : Scope (Option Value)} {α β : Type}

namespace Ensures

theorem mono {m : Eval α} {P Q : α → Prop} (h : Ensures c σ m P) (hPQ : ∀ a, P a → Q a) : Ensures c σ m Q :=
  fun s a s' hs hm => ⟨(h s a s' hs hm).1, hPQ a (h s a s' hs hm).2⟩

theorem pure {a : α} {P : α → Prop} (h : P a) : Ensures c σ (pure a) P := by
  intro s b s' hs hm
  cases hm
  exact ⟨hs, h⟩

theorem bind {m : Eval α} {f : α → Eval β} {P : α → Prop} {Q : β → Prop} (hm : Ensures c σ m P)
    (hf : ∀ a, P a → Ensures c σ (f a) Q) : Ensures c σ (m >>= f) Q := by
  intro s b s₂ hs h
  obtain ⟨a, s₁, hms, hfa⟩ := exists_of_bind_eq_ok h
  obtain ⟨hs₁, ha⟩ := hm s a s₁ hs hms
  exact hf a ha s₁ b s₂ hs₁ hfa

theorem of_steady {m : Eval α} (hm : Steady m) : Ensures c σ m (Yields false c σ m) := by
  intro s a s' hs h
  obtain ⟨hs', -⟩ := hm c s s a s' (fun _ _ => rfl) h
  exact ⟨hs'.trans hs, s, s', hs, h, fun hq => by cases hq⟩

theorem steady_bind {m : Eval α} {f : α → Eval β} {Q : β → Prop} (hm : Steady m)
    (hf : ∀ a, Ensures c σ (f a) Q) : Ensures c σ (m >>= f) Q :=
  (of_steady hm).bind fun a _ => hf a

theorem note_bind {line : Unit → String} {f : Unit → Eval β} {Q : β → Prop} (hf : Ensures c σ (f ()) Q) :
    Ensures c σ (note line >>= f) Q :=
  steady_bind (respected_carriesOver.note line) fun _ => hf

theorem report {f : Fault} {span : Option Span} : Ensures c σ (report f span) (· = none) := by
  intro s a s' hs h
  cases h
  exact ⟨hs, rfl⟩

theorem orReport {r : Except Fault Value} {span : Option Span} {P : Option Value → Prop} (hnone : P none)
    (hok : ∀ v, r = .ok v → P (some v)) : Ensures c σ (orReport r span) P := by
  cases r with
  | ok v => exact .pure (hok v rfl)
  | error f => exact report.mono fun _ h => h ▸ hnone

theorem change {f : Session → Session} (hf : ∀ s, (f s).scope = s.scope) : Ensures c σ (change f) fun _ => True := by
  intro s a s' hs h
  cases h
  exact ⟨(hf s).trans hs, trivial⟩

theorem graph_bind {f : Graph → Eval β} {Q : β → Prop} (hf : Ensures c σ (f c.graph) Q) :
    Ensures c σ (graph >>= f) Q :=
  (of_steady respected_carriesOver.graph).bind fun _ hg => yields_graph.mp hg ▸ hf

theorem library_bind {f : Library → Eval β} {Q : β → Prop} (hf : Ensures c σ (f c.library) Q) :
    Ensures c σ (library >>= f) Q :=
  (of_steady respected_carriesOver.library).bind fun _ hlib => yields_library.mp hlib ▸ hf

theorem operate {o : Operator} {a b : Value} {span : Option Span} {P : Option Value → Prop} (hnone : P none)
    (hok : ∀ v, Operate.binary c.library.engine o a b = .ok v → P (some v)) : Ensures c σ (operate o a b span) P :=
  library_bind (orReport hnone hok)

theorem currentScope_bind {f : Scope (Option Value) → Eval β} {Q : β → Prop} (hf : Ensures c σ (f σ) Q) :
    Ensures c σ (currentScope >>= f) Q := by
  refine bind (P := (· = σ)) ?_ fun a ha => ha ▸ hf
  intro s a s' hs h
  cases h
  exact ⟨hs, hs⟩

theorem between {m : Eval α} {P : α → Prop} {before after : Session → Session} {τ : Scope (Option Value)}
    (hm : Ensures c τ m P) (hbefore : ∀ s, s.scope = σ → (before s).scope = τ)
    (hafter : ∀ s, s.scope = τ → (after s).scope = σ) : Ensures c σ (between before after m) P := by
  intro s a s' hs h
  obtain ⟨s₁, hms, rfl⟩ := exists_of_between_eq_ok h
  obtain ⟨hs₁, ha⟩ := hm _ _ _ (hbefore s hs) hms
  exact ⟨hafter s₁ hs₁, ha⟩

theorem indented {m : Eval α} {P : α → Prop} (hm : Ensures c σ m P) : Ensures c σ (indented m) P :=
  hm.between (fun _ h => h) fun _ h => h

theorem binding {m : Eval α} {P : α → Prop} {x : VarId} {v : Option Value} (hm : Ensures c (σ.push x v) m P) :
    Ensures c σ (binding x v m) P :=
  hm.between (fun s h => by rw [← h]) fun s h => by rw [unbind_of_push h]

theorem deeper {m : Eval α} {P : α → Prop} (hm : Ensures c σ m P) : Ensures c σ (deeper m) P :=
  hm.between (fun _ h => h) fun _ h => h

end Ensures

/-! ## Outcomes in all sessions -/

def Returns {α : Type} (m : Eval α) (P : α → Prop) : Prop :=
  ∀ c s a s', m c s = (.ok a, s') → P a

namespace Returns

variable {m : Eval α} {P : α → Prop} {Q : β → Prop}

theorem pure {a : α} (h : P a) : Returns (pure a) P := by
  intro c s b s' hb
  cases hb
  exact h

theorem bind {f : α → Eval β} (hm : Returns m P) (hf : ∀ a, P a → Returns (f a) Q) : Returns (m >>= f) Q := by
  intro c s b s' h
  obtain ⟨a, s₁, ha, hb⟩ := exists_of_bind_eq_ok h
  exact hf a (hm c s a s₁ ha) c s₁ b s' hb

theorem andThen {f : α → Eval β} (hf : ∀ a, Returns (f a) Q) : Returns (m >>= f) Q :=
  bind (P := fun _ => True) (fun _ _ _ _ _ => trivial) fun a _ => hf a

theorem indented (hm : Returns m P) : Returns (indented m) P := by
  intro c s a s' h
  obtain ⟨s₁, h, -⟩ := exists_of_between_eq_ok h
  exact hm c _ a s₁ h

/-- What follows a computation has to be told only for its outcomes. -/
theorem bind_congr {f g : α → Eval β} (hm : Returns m P) (hfg : ∀ a, P a → f a = g a) : m >>= f = m >>= g := by
  funext c s
  rw [bind_apply, bind_apply]
  cases h : m c s with
  | mk r s₁ =>
    cases r with
    | ok a => exact congrFun (congrFun (hfg a (hm c s a s₁ h)) c) s₁
    | error e => rfl

end Returns

end Provenance.Eval
