import Provenance.Proofs.Eval.Budget
import Provenance.Query

/-!
# Open levels of the trace

A level of the trace that is opened around a computation is closed after it, but
for the level of a generation, which an abort leaves open. So an evaluation with
an outcome leaves as many levels open as there were, and so does one that tested
no neighbour. One that is aborted otherwise may leave more, up to one for each
level of expressions that it could still go down; and if it is aborted over the
limit on steps it does, since steps are counted in generations only
(`evaluate_levels`).
-/

namespace Provenance

def Session.levels (s : Session) : Nat :=
  s.log.outline.depth

/-- How a session is left behind after a computation with the outcome `r`, which may leave up to `n` levels open.
If that is `strict`, going over the limit on steps always leaves a level open. -/
structure Session.Left {α : Type} (strict : Prop) (n : Nat) (s : Session) (r : Except Abort α) (s' : Session) :
    Prop where
  traced : s'.log.enabled = true
  grows : s.pathSteps ≤ s'.pathSteps
  lower : s.levels ≤ s'.levels
  upper : s'.levels ≤ s.levels + n
  closed : ∀ a, r = .ok a → s'.levels = s.levels
  still : s'.pathSteps = s.pathSteps → s'.levels = s.levels
  cut : strict → ∀ k, r = .error (.pathStepsExceeded k) → s.levels < s'.levels

namespace Session.Left

variable {α β : Type} {strict : Prop} {n : Nat} {s s₁ s' : Session}

theorem andThen {a : α} {r : Except Abort β} (h : Left strict n s (.ok a) s₁) (h' : Left strict n s₁ r s') :
    Left strict n s r s' := by
  have hlevels : s₁.levels = s.levels := h.closed a rfl
  refine ⟨h'.traced, h.grows.trans h'.grows, hlevels ▸ h'.lower, hlevels ▸ h'.upper,
    fun b hb => (h'.closed b hb).trans hlevels, fun hsteps => ?_, fun hs k hk => hlevels ▸ h'.cut hs k hk⟩
  have := h.grows
  have := h'.grows
  exact (h'.still (by omega)).trans hlevels

theorem abort {e : Abort} (h : Left strict n s (.error e : Except Abort α) s') :
    Left strict n s (.error e : Except Abort β) s' :=
  { h with closed := fun _ hb => by cases hb
           cut := fun hs k hk => h.cut hs k (by cases hk; rfl) }

theorem mono {strict' : Prop} {k : Nat} {r : Except Abort α} (h : Left strict n s r s') (hstrict : strict' → strict)
    (hk : n ≤ k) : Left strict' k s r s' :=
  { h with upper := h.upper.trans (Nat.add_le_add_left hk _)
           cut := fun hs => h.cut (hstrict hs) }

theorem done {strict' : Prop} {k : Nat} {a : α} (h : Left strict n s (.ok a) s') : Left strict' k s (.ok a) s' :=
  { h with upper := h.closed a rfl ▸ Nat.le_add_right _ _
           cut := fun _ _ hk => by cases hk }

/-- Levels and steps count from where they stood. -/
theorem shift {r : Except Abort α} {t t' : Session} {k : Nat} (h : Left strict n s r s')
    (htraced : t'.log.enabled = s'.log.enabled) (hsteps : t.pathSteps = s.pathSteps)
    (hsteps' : t'.pathSteps = s'.pathSteps) (hlevels : t.levels + k = s.levels) (hlevels' : t'.levels + k = s'.levels) :
    Left strict n t r t' := by
  obtain ⟨h₁, h₂, h₃, h₄, h₅, h₆, h₇⟩ := h
  refine ⟨htraced.trans h₁, by omega, by omega, by omega, fun a ha => ?_, fun hs => ?_, fun hs k hk => ?_⟩
  · have := h₅ a ha
    omega
  · have := h₆ (by omega)
    omega
  · have := h₇ hs k hk
    omega

end Session.Left

namespace Eval

open Session (Left)
open Provenance.Path

variable {α β : Type} {strict : Prop} {n : Nat}

/-- A computation in a session with a trace leaves up to `n` levels open. -/
def Closes (strict : Prop) (n : Nat) (m : Eval α) : Prop :=
  ∀ c s, s.log.enabled = true → Left strict n s (m c s).1 (m c s).2

/-! ## The elementary computations -/

theorem Closes.mono {strict' : Prop} {k : Nat} {m : Eval α} (h : Closes strict n m) (hstrict : strict' → strict)
    (hk : n ≤ k) : Closes strict' k m := fun c s hs =>
  (h c s hs).mono hstrict hk

/-- For a computation that neither opens levels nor counts steps. -/
theorem Closes.of_level {m : Eval α} (h : ∀ c s, (m c s).2.log.enabled = s.log.enabled ∧
    (m c s).2.levels = s.levels ∧ (m c s).2.pathSteps = s.pathSteps ∧ ∀ k, (m c s).1 ≠ .error (.pathStepsExceeded k)) :
    Closes strict n m := fun c s hs => by
  obtain ⟨htraced, hlevels, hsteps, hcut⟩ := h c s
  exact ⟨htraced.trans hs, by omega, by omega, by omega, fun _ _ => hlevels, fun _ => hlevels,
    fun _ k hk => absurd hk (hcut k)⟩

/-- For a computation that only reads. -/
theorem Closes.of_silent {m : Eval α} (h : ∀ c s, (m c s).2 = s ∧ ∀ k, (m c s).1 ≠ .error (.pathStepsExceeded k)) :
    Closes strict n m :=
  .of_level fun c s => by rw [(h c s).1]; exact ⟨rfl, rfl, rfl, (h c s).2⟩

theorem Closes.bind {m : Eval α} {f : α → Eval β} (hm : Closes strict n m) (hf : ∀ a, Closes strict n (f a)) :
    Closes strict n (m >>= f) := by
  intro c s hs
  have left := hm c s hs
  rw [bind_apply]
  rcases h : m c s with ⟨e | a, s₁⟩
  · rw [h] at left
    exact left.abort
  · rw [h] at left
    exact left.andThen (hf a c s₁ left.traced)

theorem levels_step (l : Log) (line : Unit → String) : (l.step line).outline.depth = l.outline.depth := by
  unfold Log.step
  split <;> rfl

theorem closes_note (line : Unit → String) : Closes strict n (note line) :=
  .of_level fun _ s => ⟨Log.enabled_step _ _, levels_step s.log line, rfl, fun _ h => by cases h⟩

theorem closes_report (f : Fault) (span : Option Span) : Closes strict n (report f span) :=
  (closes_note _).bind fun _ => .bind (.of_level fun _ _ => ⟨rfl, rfl, rfl, fun _ h => by cases h⟩) fun _ =>
    .of_silent fun _ _ => ⟨rfl, fun _ h => by cases h⟩

theorem levels_enter {s : Session} (h : s.log.enabled = true) : (enter s).levels = s.levels + 1 := by
  simp [Session.levels, enter, Log.enter, h, Outline.indent]

theorem levels_leave {s : Session} (h : s.log.enabled = true) : (leave s).levels = s.levels - 1 := by
  simp [Session.levels, leave, Log.leave, h, Outline.unindent]

theorem Closes.indented {m : Eval α} (hm : Closes strict n m) : Closes strict n (indented m) := by
  intro c s hs
  have left := hm c (enter s) ((Log.enabled_enter _).trans hs)
  have henter := levels_enter hs
  have hleave := levels_leave left.traced
  have hlower := left.lower
  rw [Eval.indented, between_apply]
  exact left.shift (k := 1) (Log.enabled_leave _) rfl rfl henter.symm (hleave ▸ by omega)

@[simp] theorem log_unbind (s : Session) : (unbind s).log = s.log := by
  unfold unbind
  split <;> rfl

theorem Closes.binding {m : Eval α} (x : VarId) (v : Option Value) (hm : Closes strict n m) :
    Closes strict n (binding x v m) := fun c s hs =>
  have left := hm c { s with scope := s.scope.push x v } hs
  left.shift (k := 0) (congrArg Log.enabled (log_unbind _)) rfl (pathSteps_unbind _) rfl
    (congrArg (fun l => l.outline.depth) (log_unbind _))

theorem Closes.deeper {m : Eval α} (hm : Closes strict n m) : Closes strict n (deeper m) := fun c s hs =>
  have left := hm c { s with depth := s.depth + 1 } hs
  left.shift (k := 0) rfl rfl rfl rfl rfl

theorem compositional_closes : Compositional fun m _ => Closes strict n m where
  pure _ := .of_silent fun _ _ => ⟨rfl, fun _ h => by cases h⟩
  bind := Closes.bind
  note := closes_note
  report := closes_report
  graph := .of_silent fun _ _ => ⟨rfl, fun _ h => by cases h⟩
  library := .of_silent fun _ _ => ⟨rfl, fun _ h => by cases h⟩
  readVar _ := .bind (.of_silent fun _ _ => ⟨rfl, fun _ h => by cases h⟩) fun σ => by
    split
    · exact .of_silent fun _ _ => ⟨rfl, fun _ h => by cases h⟩
    · exact closes_report _ _
  routed _ hf := .bind (.of_silent fun _ _ => ⟨rfl, fun _ h => by cases h⟩) fun _ => hf _
  noteRoute := relates_noteRoute (fun m _ => Closes strict n m) (.of_silent fun _ _ => ⟨rfl, fun _ h => by cases h⟩)
    Closes.bind closes_note (.of_silent fun _ _ => ⟨rfl, fun _ h => by cases h⟩)
  freshClosure := .of_level fun _ _ => ⟨rfl, rfl, rfl, fun _ h => by cases h⟩
  indented := Closes.indented
  binding := Closes.binding
  deeper := Closes.deeper

/-- Counting a step may go over the limit with no level open. -/
theorem counting_closes : Counting fun m _ => Closes False n m where
  toCompositional := compositional_closes
  countStep c s hs := by
    rw [countStep_snd]
    exact ⟨hs, Nat.le_succ _, Nat.le_refl _, Nat.le_add_right _ _, fun _ _ => rfl, fun _ => rfl, fun h => h.elim⟩

/-! ## Generations -/

/-- In a session with a trace, the computation is not aborted before a step is counted. -/
def Counted (m : Eval α) : Prop :=
  ∀ c s, s.log.enabled = true → ∀ e, (m c s).1 = .error e → s.pathSteps < (m c s).2.pathSteps

theorem Counted.bind {m : Eval α} {f : α → Eval β} (hcloses : Closes strict n m) (hm : Counted m)
    (hf : ∀ a, Counted (f a)) : Counted (m >>= f) := by
  intro c s hs e he
  have left := hcloses c s hs
  have hcounted := hm c s hs
  rw [bind_apply] at he ⊢
  rcases h : m c s with ⟨e' | a, s₁⟩
  · rw [h] at hcounted
    exact hcounted e' rfl
  · rw [h] at he left
    exact Nat.lt_of_le_of_lt left.grows (hf a c s₁ left.traced e he)

theorem Counted.pure (a : α) : Counted (pure a) := fun _ _ _ _ h => by cases h

theorem Counted.afterStep {m : Eval α} (hm : Closes strict n m) : Counted (countStep >>= fun _ => m) := by
  intro c s hs _ _
  have hcount := countStep_snd c s
  rw [bind_apply]
  rcases h : countStep c s with ⟨e | _, s₁⟩
  all_goals
    rw [h] at hcount
    cases hcount
  · exact Nat.lt_succ_self _
  · exact (Nat.lt_succ_self s.pathSteps).trans_le (hm c { s with pathSteps := s.pathSteps + 1 } hs).grows

section
variable {ev : Expr → Eval (Option Value)} (hev : ∀ e, Closes False n (ev e)) (r : Route)
include hev

theorem counted_visit (w : Walker) (f : Frontier) (p : ObjectId) : Counted (visit ev r w f p) := by
  have h : Compositional fun m _ => Closes False n m := compositional_closes
  refine .afterStep (.bind (@Compositional.passes _ ev ev h hev p _) fun ok => ?_)
  split
  · split
    · exact .bind (h.note _) fun _ => h.pure _
    · exact h.pure _
  · exact h.pure _

theorem counted_visitAll (w : Walker) : ∀ (ps : List ObjectId) (f : Frontier), Counted (visitAll ev r w ps f)
  | [], _ => .pure _
  | p :: rest, f => .bind (@Counting.visit _ ev ev counting_closes hev r w f p) (counted_visit hev r w f p) fun _ =>
      counted_visitAll w rest _

theorem counted_explore (w : Walker) (f : Frontier) : Counted (explore ev r w f) := by
  have h : Compositional fun m _ => Closes False n m := compositional_closes
  refine .bind h.graph (fun _ _ _ _ h => by cases h) fun _ => ?_
  exact .bind (h.note _) (fun _ _ _ _ h => by cases h) fun _ => counted_visitAll hev r w _ f

theorem counted_exploreAll : ∀ (ws : List Walker) (f : Frontier), Counted (exploreAll ev r ws f)
  | [], _ => .pure _
  | w :: rest, f => .bind (@Counting.explore _ ev ev counting_closes hev r w f) (counted_explore hev r w f) fun _ =>
      counted_exploreAll rest _

/-- An abort comes after a step, and leaves the level of the generation open besides those left open within. -/
theorem closes_generation (live : List Walker) (found : List (List ObjectId)) :
    Closes strict (n + 1) (generation ev r live found) := by
  intro c s hs
  let line : Unit → String := fun _ => "step: " ++ toString live.length ++ " live hypotheses"
  let t : Session := enter { s with log := s.log.step line }
  have htraced : (s.log.step line).enabled = true := (Log.enabled_step _ _).trans hs
  have ht : t.log.enabled = true := (Log.enabled_enter _).trans htraced
  have hopen : t.levels = s.levels + 1 := (levels_enter htraced).trans (congrArg (· + 1) (levels_step _ _))
  have hsteps : t.pathSteps = s.pathSteps := rfl
  have left := @Counting.exploreAll _ ev ev counting_closes hev r live ⟨found, []⟩ c t ht
  have hcounted := counted_exploreAll hev r live ⟨found, []⟩ c t ht
  have hgen : generation ev r live found c s =
      (exploreAll ev r live ⟨found, []⟩ >>= fun f => do change leave; return f) c t := rfl
  rw [hgen]
  rcases h : exploreAll ev r live ⟨found, []⟩ c t with ⟨e | f, s₁⟩
  all_goals rw [h] at left hcounted
  · rw [bind_of_abort h]
    obtain ⟨htraced', hgrows, hlower, hupper, -, -, -⟩ : Left False n t (.error e) s₁ := left
    have hmore : t.pathSteps < s₁.pathSteps := hcounted e rfl
    change Left strict (n + 1) s (.error e) s₁
    exact ⟨htraced', hgrows, by omega, by omega, fun _ h => (by cases h), fun hsame => by omega, fun _ _ _ => by omega⟩
  · rw [bind_of_ok h]
    replace left : Left False n t (.ok f) s₁ := left
    have hclosed : s₁.levels = t.levels := left.closed f rfl
    have hleave : (leave s₁).levels = s₁.levels - 1 := levels_leave left.traced
    have hdone : Left False n s (.ok f) (leave s₁) :=
      left.shift (k := 1) (Log.enabled_leave _) hsteps.symm rfl hopen.symm (by omega)
    exact hdone.done

theorem closes_run : ∀ (k : Nat) (live : List Walker) (found : List (List ObjectId)),
    Closes strict (n + 1) (run ev r k live found)
  | k, [], found => by
    rw [run_nil]
    exact compositional_closes.pure _
  | 0, _ :: _, _ => .of_silent fun _ _ => ⟨rfl, fun _ h => by cases h⟩
  | k + 1, w :: live, found => by
    rw [run_succ]
    exact (closes_generation hev r _ _).bind fun _ => closes_run k _ _

theorem closes_generationLoop (live : List Walker) (found : List (List ObjectId)) :
    Closes strict (n + 1) (generationLoop ev r live found) := by
  refine .bind (.of_silent fun c s => ⟨generations_snd c s, fun k h => ?_⟩) fun k => closes_run hev r k live found
  unfold generations at h
  split at h <;> cases h

end

/-! ## Whole evaluations -/

/-- By induction on the levels of expressions, each of which can have a generation of a path open. -/
theorem closes_evaluateIn : ∀ (n : Nat) (e : Expr), Closes True n (evaluateIn n e)
  | 0, _ => .of_silent fun _ _ => ⟨rfl, fun _ h => by cases h⟩
  | n + 1, e => by
    have ih := closes_evaluateIn n
    have h : Compositional fun m _ => Closes True (n + 1) m := compositional_closes
    exact Closes.deeper (@Compositional.node _ (evaluateIn n) (evaluateIn n) h (fun e => (ih e).mono id (Nat.le_succ n))
      (closes_generationLoop fun e => (ih e).mono False.elim (Nat.le_refl n)) e)

def isOverSteps : Except Abort α → Bool
  | .error (.pathStepsExceeded _) => true
  | _ => false

theorem levels_of_left {r : Except Abort α} {s s' : Session} (h : Left True n s r s') :
    s.levels + (if isOverSteps r then 1 else 0) ≤ s'.levels ∧ s'.levels ≤ s.levels + n * if !r.isOk then 1 else 0 := by
  match r with
  | .ok a =>
    rw [h.closed a rfl]
    simp [isOverSteps, Except.isOk, Except.toBool]
  | .error a =>
    refine ⟨?_, by simpa [Except.isOk, Except.toBool] using h.upper⟩
    split
    · rename_i hover
      cases a with
      | pathStepsExceeded k => exact h.cut trivial k rfl
      | _ => cases hover
    · exact h.lower

/-- In a session with a trace, each evaluation leaves as many levels open as there were unless it is aborted in a
generation of a path. So the levels are at least as many more after a series of queries as were aborted over the
limit on steps, and at most so many times the levels of expressions as were aborted at all. -/
theorem evaluate_levels {c : Setting} {s : Session} (hs : s.log.enabled = true) :
    (∀ e, Left True (c.limits.maxDepth - s.depth) s (evaluate e c s).1 (evaluate e c s).2) ∧
    ∀ es : List Expr, let r := Query.inTurn evaluate c es s
      s.levels + r.1.countP (fun a => isOverSteps a.1) ≤ r.2.levels ∧
      r.2.levels ≤ s.levels + (c.limits.maxDepth - s.depth) * r.1.countP (fun a => !a.1.isOk) := by
  refine ⟨fun e => closes_evaluateIn _ e c s hs, fun es => ?_⟩
  induction es generalizing s with
  | nil => simp [Query.inTurn]
  | cons e rest ih =>
    have left : Left True (c.limits.maxDepth - s.depth) s (evaluate e c s).1 (evaluate e c s).2 :=
      closes_evaluateIn _ e c s hs
    obtain ⟨hlower, hupper⟩ := levels_of_left left
    obtain ⟨hlower', hupper'⟩ := ih left.traced
    have hdepth : (evaluate e c s).2.depth = s.depth := (restores_evaluateIn _ e c s).depth
    rw [hdepth] at hupper'
    simp only [Query.inTurn, List.countP_cons, Nat.mul_add]
    omega

theorem evaluate_levels_lineage :
    let c : Setting := ⟨lineage, ⟨3, some 0, 0⟩, .standard⟩
    let r := Query.inTurn evaluate c [descendants, .object 1, descendants] (.new true)
    r.1.map Prod.fst = [.error (.pathStepsExceeded 0), .ok (some (.object 1)), .error (.pathStepsExceeded 0)] ∧
      2 ≤ r.2.levels ∧ r.2.levels ≤ 3 * 2 ∧ (evaluate descendants c (.new true)).2.levels ≤ 3 := by
  intro c r
  have hover : r.1.countP (fun a => isOverSteps a.1) = 2 := by decide +kernel
  have haborted : r.1.countP (fun a => !a.1.isOk) = 2 := by decide +kernel
  obtain ⟨hsingle, hseries⟩ := evaluate_levels (c := c) (s := .new true) rfl
  obtain ⟨hlower, hupper⟩ := hseries [descendants, .object 1, descendants]
  rw [hover] at hlower
  rw [haborted] at hupper
  exact ⟨by rfl, hlower, hupper, (hsingle descendants).upper⟩

/-- The trace is left indented if a generation is aborted. -/
theorem levels_not_restored :
    ¬ ∀ (e : Expr) (c : Setting) (s : Session), s.log.enabled = true → (evaluate e c s).2.levels = s.levels := by
  intro h
  have hleft : (evaluate descendants ⟨lineage, ⟨3, some 0, 0⟩, .standard⟩ (.new true)).2.levels = 1 := by decide +kernel
  have := h descendants ⟨lineage, ⟨3, some 0, 0⟩, .standard⟩ (.new true) rfl
  rw [hleft] at this
  cases this

end Eval

end Provenance
