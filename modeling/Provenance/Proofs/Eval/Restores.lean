import Provenance.Proofs.Eval.Congruence

/-!
# What an evaluation leaves behind

Whether an evaluation has an outcome or is aborted, wherever that happens, what
it opened is closed afterwards: the bindings and the depth are what they were,
and no binding was missed when it was to end. Reports and the trace have only
grown, and so have the counts (`evaluate_restores`).
-/

namespace Provenance

/-- The second session comes after the first, and all that was opened in between is closed. -/
structure Session.Restored (s s' : Session) : Prop where
  scope : s'.scope = s.scope
  depth : s'.depth = s.depth
  diagnostics : ∃ ds, s'.diagnostics = s.diagnostics ++ ds
  trace : ∃ more, s'.log.text = s.log.text ++ more
  nextClosure : s.nextClosure ≤ s'.nextClosure
  pathSteps : s.pathSteps ≤ s'.pathSteps
  balanced : s'.balanced = s.balanced

namespace Session.Restored

theorem refl (s : Session) : s.Restored s :=
  ⟨rfl, rfl, ⟨#[], by simp⟩, ⟨"", by simp⟩, Nat.le_refl _, Nat.le_refl _, rfl⟩

theorem trans {s t u : Session} (h : s.Restored t) (h' : t.Restored u) : s.Restored u := by
  obtain ⟨ds, hds⟩ := h.diagnostics
  obtain ⟨ds', hds'⟩ := h'.diagnostics
  obtain ⟨more, hmore⟩ := h.trace
  obtain ⟨more', hmore'⟩ := h'.trace
  refine ⟨h'.scope.trans h.scope, h'.depth.trans h.depth, ⟨ds ++ ds', ?_⟩, ⟨more ++ more', ?_⟩,
    Nat.le_trans h.nextClosure h'.nextClosure, Nat.le_trans h.pathSteps h'.pathSteps, h'.balanced.trans h.balanced⟩
  · rw [hds', hds, Array.append_assoc]
  · rw [hmore', hmore, String.append_assoc]

end Session.Restored

/-! ## The trace -/

theorem foldl_append_eq (pieces : List String) (text : String) :
    pieces.foldl (· ++ ·) text = text ++ pieces.foldl (· ++ ·) "" := by
  induction pieces generalizing text with
  | nil => simp
  | cons p rest ih =>
    rw [List.foldl_cons, List.foldl_cons, ih, ih ("" ++ p), String.empty_append, String.append_assoc]

theorem Log.text_step (l : Log) (line : Unit → String) : ∃ more, (l.step line).text = l.text ++ more := by
  unfold Log.step
  split
  · simp only [Log.text, Outline.line]
    rw [foldl_append_eq, String.append_assoc, String.append_assoc]
    exact ⟨_, rfl⟩
  · exact ⟨"", by simp⟩

@[simp] theorem Log.text_enter (l : Log) : l.enter.text = l.text := by
  unfold Log.enter
  split <;> rfl

@[simp] theorem Log.text_leave (l : Log) : l.leave.text = l.text := by
  unfold Log.leave
  split <;> rfl

namespace Eval

open Session (Restored)

def Restores {α : Type} (m : Eval α) : Prop :=
  ∀ c s, Restored s (m c s).2

/-! ## The elementary computations -/

theorem Restores.of_silent {α : Type} {m : Eval α} (h : ∀ c s, (m c s).2 = s) : Restores m := by
  intro c s
  rw [h]
  exact .refl s

theorem Restores.bind {α β : Type} {m : Eval α} {f : α → Eval β} (hm : Restores m) (hf : ∀ a, Restores (f a)) :
    Restores (m >>= f) := by
  intro c s
  have h := hm c s
  rw [bind_apply]
  cases hms : m c s with
  | mk r s₁ =>
    rw [hms] at h
    cases r with
    | ok a => exact h.trans (hf a c s₁)
    | error e => exact h

theorem restores_note (line : Unit → String) : Restores (note line) := fun _ s =>
  { Restored.refl s with trace := s.log.text_step line }

theorem restores_report (f : Fault) (span : Option Span) : Restores (report f span) := by
  refine (restores_note _).bind fun _ => .bind (fun c s => ?_) fun _ => .of_silent fun _ _ => rfl
  exact { Restored.refl s with diagnostics := ⟨#[⟨f, span⟩], rfl⟩ }

theorem countStep_snd (c : Setting) (s : Session) : (countStep c s).2 = { s with pathSteps := s.pathSteps + 1 } := by
  unfold countStep
  cases c.limits.maxPathSteps with
  | none => rfl
  | some k =>
    simp only
    split <;> rfl

theorem generations_snd (c : Setting) (s : Session) : (generations c s).2 = s := by
  unfold generations
  split <;> rfl

theorem restores_countStep : Restores countStep := by
  intro c s
  rw [countStep_snd]
  exact { Restored.refl s with pathSteps := Nat.le_succ _ }

theorem restored_enter (s : Session) : s.Restored (enter s) :=
  { Restored.refl s with trace := ⟨"", by simp [enter]⟩ }

theorem restored_leave (s : Session) : s.Restored (leave s) :=
  { Restored.refl s with trace := ⟨"", by simp [leave]⟩ }

/-! ## What is opened is closed -/

theorem Restores.indented {α : Type} {m : Eval α} (hm : Restores m) : Restores (indented m) := fun c s =>
  (restored_enter s).trans ((hm c _).trans (restored_leave _))

theorem Restores.binding {α : Type} {m : Eval α} (x : VarId) (v : Option Value) (hm : Restores m) :
    Restores (binding x v m) := by
  intro c s
  have h := hm c { s with scope := s.scope.push x v }
  rw [Eval.binding, between_apply, unbind_of_push h.scope]
  exact ⟨rfl, h.depth, h.diagnostics, h.trace, h.nextClosure, h.pathSteps, h.balanced⟩

theorem Restores.deeper {α : Type} {m : Eval α} (hm : Restores m) : Restores (deeper m) := by
  intro c s
  have h := hm c { s with depth := s.depth + 1 }
  rw [Eval.deeper, between_apply]
  exact { h with depth := by rw [h.depth, Nat.add_sub_cancel] }

theorem congruence_restores : Congruence fun m _ => Restores m where
  pure _ := .of_silent fun _ _ => rfl
  bind := Restores.bind
  note := restores_note
  report := restores_report
  graph := .of_silent fun _ _ => rfl
  library := .of_silent fun _ _ => rfl
  readVar _ := .bind (.of_silent fun _ _ => rfl) fun σ => by
    split
    · exact .of_silent fun _ _ => rfl
    · exact restores_report _ _
  routed _ hf := .bind (.of_silent fun _ _ => rfl) fun _ => hf _
  noteRoute := relates_noteRoute (fun m _ => Restores m) (.of_silent fun _ _ => rfl) Restores.bind restores_note
    (.of_silent fun _ _ => rfl)
  freshClosure _ s := { Restored.refl s with nextClosure := Nat.le_succ _ }
  countStep := restores_countStep
  enter _ := restored_enter
  leave _ := restored_leave
  indented := Restores.indented
  binding := Restores.binding
  deeper := Restores.deeper

theorem restores_evaluateIn (n : Nat) (e : Expr) : Restores (evaluateIn n e) := by
  refine congruence_restores.evaluateIn (d := 0) (fun _ => .of_silent fun _ _ => rfl) ?_ n e
  intro ev ev' hev r live found
  exact @Congruence.generationLoop _ ev ev' congruence_restores hev r (.of_silent generations_snd)
    (.of_silent fun _ _ => rfl) live found

/-- An evaluation closes what it opens, whether it has an outcome or is aborted. -/
theorem evaluate_restores (e : Expr) (c : Setting) (s : Session) : s.Restored (evaluate e c s).2 :=
  restores_evaluateIn _ e c s

end Eval

end Provenance
