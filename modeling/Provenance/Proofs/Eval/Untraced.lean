import Provenance.Query
import Provenance.Proofs.Eval.Restores

/-!
# The trace only observes

Evaluated without a trace, an expression comes to what it comes to with one, is
aborted where it is aborted with one, and leaves the same session but for the
log (`Observes`). The log of the one run may then be levels deeper than that of
the other, as an abort leaves the levels of the generations of a path open, so
a log that is on is compared with one that has never been written to.

The route of a path is where the two runs part: it is noted line by line only
if there is a trace.
-/

namespace Provenance

/-- The session as it would be if nothing had been traced. -/
def Session.untraced (s : Session) : Session :=
  { s with log := .new false }

namespace Eval

open Provenance.Path

variable {α β : Type}

/-- The computation does the same whether it is traced or not. -/
def Observes (m : Eval α) : Prop :=
  ∀ c s, m c s.untraced = ((m c s).1, (m c s).2.untraced)

/-! ## What is not traced -/

theorem Observes.bind {m : Eval α} {f : α → Eval β} (hm : Observes m) (hf : ∀ a, Observes (f a)) :
    Observes (m >>= f) := by
  intro c s
  rw [bind_apply, bind_apply, hm c s]
  cases hms : m c s with
  | mk r s₁ =>
    cases r with
    | ok a => exact hf a c s₁
    | error e => rfl

theorem Observes.between {m : Eval α} {before after : Session → Session} (hm : Observes m)
    (hbefore : ∀ s, before s.untraced = (before s).untraced) (hafter : ∀ s, after s.untraced = (after s).untraced) :
    Observes (between before after m) := by
  intro c s
  rw [between_apply, between_apply, hbefore, hm, hafter]

theorem untraced_unbind (s : Session) : unbind s.untraced = (unbind s).untraced := by
  unfold unbind Session.untraced
  cases s.scope.pop? <;> rfl

theorem observes_countStep : Observes countStep := by
  intro c s
  unfold countStep
  cases c.limits.maxPathSteps with
  | none => rfl
  | some k =>
    by_cases h : k < s.pathSteps + 1
    · simp only [if_pos h]
      exact if_pos h
    · simp only [if_neg h]
      exact if_neg h

theorem observes_generations : Observes generations := by
  intro c s
  unfold generations
  split <;> rfl

theorem observes_note (line : Unit → String) : Observes (note line) :=
  fun _ _ => rfl

theorem observes_report (f : Fault) (span : Option Span) : Observes (report f span) :=
  (observes_note _).bind fun _ => .bind (fun _ _ => rfl) fun _ _ _ => rfl

/-! ## What is only traced -/

theorem untraced_noteAll (c : Setting) : ∀ (lines : List String) (s : Session),
    (noteAll lines c s).1 = .ok () ∧ (noteAll lines c s).2.untraced = s.untraced
  | [], _ => ⟨rfl, rfl⟩
  | line :: rest, s => untraced_noteAll c rest { s with log := s.log.step fun _ => line }

theorem observes_noteRoute (r : Route) : Observes (noteRoute r) := by
  intro c s
  have hquiet : noteRoute r c s.untraced = (.ok (), s.untraced) := rfl
  cases htrace : s.log.enabled with
  | false =>
    have h : noteRoute r c s = (.ok (), s) := by
      rw [noteRoute, bind_apply, isTracing, htrace]
      rfl
    rw [hquiet, h]
  | true =>
    have h : noteRoute r c s = noteAll (segmentLines 0 r.segments ++ r.automaton.lines) c s := by
      rw [noteRoute, bind_apply, isTracing, htrace]
      rfl
    obtain ⟨hvalue, hsession⟩ := untraced_noteAll c (segmentLines 0 r.segments ++ r.automaton.lines) s
    rw [hquiet, h, hvalue, hsession]

/-! ## Evaluation -/

theorem congruence_observes : Congruence fun m _ => Observes m where
  pure _ _ _ := rfl
  bind := Observes.bind
  note := observes_note
  report := observes_report
  graph _ _ := rfl
  library _ _ := rfl
  readVar _ := .bind (fun _ _ => rfl) fun σ => by
    split
    · exact fun _ _ => rfl
    · exact observes_report _ _
  routed _ hf := .bind (fun _ _ => rfl) fun _ => hf _
  noteRoute := observes_noteRoute
  freshClosure _ _ := rfl
  countStep := observes_countStep
  enter _ _ := rfl
  leave _ _ := rfl
  indented hm := hm.between (fun _ => rfl) fun _ => rfl
  binding _ _ hm := hm.between (fun _ => rfl) untraced_unbind
  deeper hm := hm.between (fun _ => rfl) fun _ => rfl

theorem observes_evaluateIn (n : Nat) (e : Expr) : Observes (evaluateIn n e) := by
  refine congruence_observes.evaluateIn (d := 0) (fun _ _ _ => rfl) ?_ n e
  intro ev ev' hev r live found
  exact @Congruence.generationLoop _ ev ev' congruence_observes hev r observes_generations (fun _ _ => rfl) live found

theorem observes_evaluate (e : Expr) : Observes (evaluate e) := by
  intro c s
  exact observes_evaluateIn _ e c s

end Eval

namespace Query

/-! ## Sessions of queries -/

/-- After any query the next starts from sessions that differ in the log only. -/
theorem inTurn_of_observes {run : Expr → Eval (Option Value)} (hrun : ∀ e, Eval.Observes (run e)) (c : Setting) :
    ∀ (es : List Expr) (s : Session),
      inTurn run c es s.untraced = ((inTurn run c es s).1, (inTurn run c es s).2.untraced)
  | [], _ => rfl
  | e :: rest, s => by
    have hlater := inTurn_of_observes hrun c rest (run e c s).2
    simp only [inTurn, hrun e c s, hlater]
    rfl

/-- Queries in one session come to the same with and without a trace: the outcome of each and what it
reports, and the session that is left but for its log. Without a trace the log stays empty. -/
theorem inTurn_untraced (c : Setting) (es : List Expr) :
    (inTurn Eval.evaluate c es (.new false)).1 = (inTurn Eval.evaluate c es (.new true)).1 ∧
      (inTurn Eval.evaluate c es (.new false)).2 =
        { (inTurn Eval.evaluate c es (.new true)).2 with log := .new false } ∧
      (inTurn Eval.evaluate c es (.new false)).2.log.text = "" := by
  have h : inTurn Eval.evaluate c es (.new false) =
      ((inTurn Eval.evaluate c es (.new true)).1, (inTurn Eval.evaluate c es (.new true)).2.untraced) :=
    inTurn_of_observes Eval.observes_evaluate c es (.new true)
  rw [h]
  exact ⟨rfl, rfl, rfl⟩

end Query

end Provenance
