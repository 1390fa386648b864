import Provenance.Eval.Fault
import Provenance.Library
import Provenance.Scope
import Provenance.Text.Outline

/-!
# Sessions

A session is what evaluation carries along from one expression to the next. A
computation reads its setting, changes the session, and yields a result or is
aborted; the session goes on either way, so what was opened before
a computation is closed after it whether it was aborted or not.
-/

namespace Provenance

/-- How deep expressions may lie, how many neighbours the paths of a query may test, and how many
generations a path may run for when the latter is not limited. -/
structure Limits where
  maxDepth : Nat
  maxPathSteps : Option Nat
  patience : Nat
  deriving DecidableEq, Repr

def Limits.standard : Limits :=
  ⟨1000, some 1000000, UInt64.size⟩

/-- A variable may be bound to nothing. The session is `balanced` as long as each binding that was
to end was there. -/
structure Session where
  scope : Scope (Option Value)
  diagnostics : Array Diagnostic
  log : Log
  depth : Nat
  nextClosure : Nat
  pathSteps : Nat
  balanced : Bool

def Session.new (trace : Bool) : Session :=
  ⟨[], #[], .new trace, 0, 0, 0, true⟩

structure Setting where
  graph : Graph
  limits : Limits
  library : Library

def Eval (α : Type) : Type :=
  Setting → Session → Except Abort α × Session

namespace Eval

variable {α β : Type}

@[always_inline, inline]
protected def pure (a : α) : Eval α :=
  fun _ s => (.ok a, s)

@[always_inline, inline]
protected def bind (m : Eval α) (f : α → Eval β) : Eval β :=
  fun c s =>
    match m c s with
    | (.ok a, s') => f a c s'
    | (.error e, s') => (.error e, s')

instance : Monad Eval where
  pure := Eval.pure
  bind := Eval.bind

/-! ## Reading and changing -/

@[inline]
def graph : Eval Graph :=
  fun c s => (.ok c.graph, s)

@[inline]
def library : Eval Library :=
  fun c s => (.ok c.library, s)

@[inline]
def change (f : Session → Session) : Eval Unit :=
  fun _ s => (.ok (), f s)

/-- Runs a computation between two changes, the second of which happens even if the computation
is aborted. -/
@[inline]
def between (before after : Session → Session) (m : Eval α) : Eval α :=
  fun c s =>
    let r := m c (before s)
    (r.1, after r.2)

/-! ## Tracing and reporting -/

def note (line : Unit → String) : Eval Unit :=
  change fun s => { s with log := s.log.step line }

def isTracing : Eval Bool :=
  fun _ s => (.ok s.log.enabled, s)

def enter (s : Session) : Session :=
  { s with log := s.log.enter }

def leave (s : Session) : Session :=
  { s with log := s.log.leave }

def indented (m : Eval α) : Eval α :=
  between enter leave m

/-- A part of the query with a fault has no value. -/
def report (f : Fault) (span : Option Span) : Eval (Option Value) := do
  note fun _ => "error: " ++ f.message
  change fun s => { s with diagnostics := s.diagnostics.push ⟨f, span⟩ }
  return none

def orReport (r : Except Fault Value) (span : Option Span) : Eval (Option Value) :=
  match r with
  | .ok v => pure (some v)
  | .error f => report f span

/-- Adds a value to those gathered so far, unless it differs from them in kind. -/
def keep (gathered : Tagged) (v : Option Value) (span : Option Span) : Eval Tagged :=
  match v with
  | none => pure gathered
  | some v =>
    match gathered.push v with
    | .ok l => pure l
    | .error m => do
      let _ ← report (.mixedList m) span
      return gathered

/-! ## Scope and limits -/

def currentScope : Eval (Scope (Option Value)) :=
  fun _ s => (.ok s.scope, s)

def unbind (s : Session) : Session :=
  match s.scope.pop? with
  | some (_, rest) => { s with scope := rest }
  | none => { s with balanced := false }

def binding (x : VarId) (v : Option Value) (m : Eval α) : Eval α :=
  between (fun s => { s with scope := s.scope.push x v }) unbind m

def deeper (m : Eval α) : Eval α :=
  between (fun s => { s with depth := s.depth + 1 }) (fun s => { s with depth := s.depth - 1 }) m

def tooDeep : Eval α :=
  fun c s => (.error (.depthExceeded s.depth c.limits.maxDepth), s)

def unending : Eval α :=
  fun _ s => (.error .pathUnending, s)

/-- The identity of a closure is a number of 64 bits. -/
def freshClosure : Eval UInt64 :=
  fun _ s => (.ok (UInt64.ofNat s.nextClosure), { s with nextClosure := s.nextClosure + 1 })

def countStep : Eval Unit :=
  fun c s =>
    let s' := { s with pathSteps := s.pathSteps + 1 }
    match c.limits.maxPathSteps with
    | none => (.ok (), s')
    | some n => if n < s'.pathSteps then (.error (.pathStepsExceeded n), s') else (.ok (), s')

/-- How many generations a path can run for: each but the last tests a neighbour. -/
def generations : Eval Nat :=
  fun c s =>
    match c.limits.maxPathSteps with
    | none => (.ok c.limits.patience, s)
    | some n => (.ok (n - s.pathSteps + 2), s)

/-! ## Laws -/

@[simp] theorem pure_apply (a : α) (c : Setting) (s : Session) :
    (pure a : Eval α) c s = (.ok a, s) := rfl

theorem bind_apply (m : Eval α) (f : α → Eval β) (c : Setting) (s : Session) :
    (m >>= f) c s =
      match m c s with
      | (.ok a, s') => f a c s'
      | (.error e, s') => (.error e, s') := rfl

theorem bind_of_ok {m : Eval α} {c : Setting} {s s' : Session} {a : α}
    (h : m c s = (.ok a, s')) (f : α → Eval β) : (m >>= f) c s = f a c s' := by
  rw [bind_apply, h]

theorem bind_of_abort {m : Eval α} {c : Setting} {s s' : Session} {e : Abort}
    (h : m c s = (.error e, s')) (f : α → Eval β) : (m >>= f) c s = (.error e, s') := by
  rw [bind_apply, h]

theorem unbind_of_push {s : Session} {σ : Scope (Option Value)} {x : VarId} {v : Option Value}
    (h : s.scope = σ.push x v) : unbind s = { s with scope := σ } := by
  rw [unbind, h, Scope.pop?_push]

@[simp] theorem diagnostics_unbind (s : Session) : (unbind s).diagnostics = s.diagnostics := by
  unfold unbind
  split <;> rfl

@[simp] theorem pathSteps_unbind (s : Session) : (unbind s).pathSteps = s.pathSteps := by
  unfold unbind
  split <;> rfl

theorem bind_fst_of_error {m : Eval α} {c : Setting} {s : Session} {e : Abort} (h : (m c s).1 = .error e)
    (f : α → Eval β) : ((m >>= f) c s).1 = .error e := by
  rw [bind_of_abort (Prod.ext h rfl : m c s = (_, (m c s).2))]

theorem exists_of_bind_eq_ok {m : Eval α} {f : α → Eval β} {c : Setting} {s s' : Session} {b : β}
    (h : (m >>= f) c s = (.ok b, s')) : ∃ a s₁, m c s = (.ok a, s₁) ∧ f a c s₁ = (.ok b, s') := by
  rw [bind_apply] at h
  rcases hm : m c s with ⟨e | a, s₁⟩
  · rw [hm] at h
    cases h
  · rw [hm] at h
    exact ⟨a, s₁, rfl, h⟩

instance : LawfulMonad Eval := LawfulMonad.mk' Eval
  (by
    intro α m
    funext c s
    change Eval.bind m (fun a => Eval.pure a) c s = m c s
    unfold Eval.bind
    split <;> simp_all [Eval.pure])
  (fun _ _ => rfl)
  (by
    intro α β γ m f g
    funext c s
    change Eval.bind (Eval.bind m f) g c s = Eval.bind m (fun a => Eval.bind (f a) g) c s
    unfold Eval.bind
    rcases m c s with ⟨r | a, s'⟩ <;> rfl)

theorem keep_of_push {gathered l : Tagged} {v : Value} {span : Option Span} (h : gathered.push v = .ok l) :
    keep gathered (some v) span = pure l := by
  simp only [keep, h]

@[simp] theorem between_apply (before after : Session → Session) (m : Eval α) (c : Setting)
    (s : Session) :
    between before after m c s = ((m c (before s)).1, after (m c (before s)).2) := rfl

theorem exists_of_between_eq_ok {before after : Session → Session} {m : Eval α} {c : Setting} {s s' : Session} {a : α}
    (h : between before after m c s = (.ok a, s')) : ∃ s₁, m c (before s) = (.ok a, s₁) ∧ s' = after s₁ := by
  rw [between_apply] at h
  rcases hm : m c (before s) with ⟨r, s₁⟩
  rw [hm] at h
  cases h
  exact ⟨s₁, rfl, rfl⟩

end Eval

end Provenance
