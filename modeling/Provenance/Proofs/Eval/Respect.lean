import Mathlib.Data.List.Forall2
import Provenance.Proofs.Eval.Counting
import Provenance.Proofs.Expr.Parts

/-!
# Relations that evaluation respects

Evaluation is put together from a few computations: reading the graph and the
bindings, noting and reporting, and binding a variable for a while. A relation
between computations that respects these is respected by every direct node whose
parts it relates (`Respected.node`). So what is to hold of evaluation is shown
for the few, and then by induction on the levels.

The relations are indexed by a set of variables, those whose bindings matter.
-/

namespace Provenance.Eval

open Provenance.Expr (under)

def readVar (x : VarId) : Eval (Option Value) := do
  let scope ← currentScope
  match scope.lookup? x with
  | some v => return v
  | none => report (.unboundVariable x) none

theorem readVar_of_bound {x : VarId} {c : Setting} {s : Session} {v : Option Value} (h : s.scope.lookup? x = some v) :
    readVar x c s = (.ok v, s) := by
  rw [readVar, bind_of_ok rfl, h]
  rfl

theorem readVar_of_unbound {x : VarId} {c : Setting} {s : Session} (h : s.scope.lookup? x = none) :
    readVar x c s = report (.unboundVariable x) none c s := by
  rw [readVar, bind_of_ok rfl, h]

theorem operandTruth_eq (ev : Expr → Eval (Option Value)) (e : Option Expr) :
    operandTruth ev e = orNothing ev e >>= fun v => pure (truth v) := by
  cases e <;> rfl

/-- The relation holds between the elementary computations and themselves, and of what is put
together from computations that it holds between. -/
structure Respected (R : (VarId → Prop) → ∀ {α : Type}, Eval α → Eval α → Prop) : Prop where
  pure : ∀ {X} {α : Type} (a : α), R X (pure a) (pure a)
  bind : ∀ {X} {α β : Type} {m m' : Eval α} {f f' : α → Eval β},
    R X m m' → (∀ a, R X (f a) (f' a)) → R X (m >>= f) (m' >>= f')
  note : ∀ {X} (line : Unit → String), R X (note line) (note line)
  report : ∀ {X} (f : Fault) (span : Option Span), R X (report f span) (report f span)
  graph : ∀ {X}, R X graph graph
  library : ∀ {X}, R X library library
  readVar : ∀ {X} {x : VarId}, X x → R X (readVar x) (readVar x)
  indented : ∀ {X} {α : Type} {m m' : Eval α}, R X m m' → R X (indented m) (indented m')
  binding : ∀ {X} {α : Type} {m m' : Eval α} (x : VarId) (v : Option Value),
    R (under (some x) X) m m' → R X (binding x v m) (binding x v m')

namespace Respected

variable {R : (VarId → Prop) → ∀ {α : Type}, Eval α → Eval α → Prop} (h : Respected R)
  {X : VarId → Prop} {ev ev' : Expr → Eval (Option Value)}

include h

theorem orReport (r : Except Fault Value) (span : Option Span) : R X (orReport r span) (orReport r span) := by
  cases r with
  | ok v => exact h.pure _
  | error f => exact h.report f span

theorem keep (gathered : Tagged) (v : Option Value) (span : Option Span) :
    R X (keep gathered v span) (keep gathered v span) := by
  cases v with
  | none => exact h.pure _
  | some v =>
    simp only [Eval.keep]
    split
    · exact h.pure _
    · exact h.bind (h.report _ _) fun _ => h.pure _

/-! ## Loops and bindings -/

theorem guarded {x : Var} {guard guard' body body' : Expr} (v : Option Value)
    (hg : R (under (some x.id) X) (ev guard) (ev' guard'))
    (hb : R (under (some x.id) X) (ev body) (ev' body')) :
    R X (guarded ev x guard body v) (guarded ev' x guard' body' v) := by
  refine h.bind (h.note _) fun _ => h.binding x.id v (h.bind hg fun g => ?_)
  split
  · exact hb
  · exact h.pure _

section
variable {item item' : Value → Eval (Option Value)} (hi : ∀ v, R X (item v) (item' v))
include hi

theorem gather (gathered : Tagged) (v : Value) : R X (gather item gathered v) (gather item' gathered v) :=
  h.bind (hi v) fun r => h.keep gathered r none

theorem gatherAll : ∀ (vs : List Value) (gathered : Tagged), R X (gatherAll item vs gathered) (gatherAll item' vs gathered)
  | [], _ => h.pure _
  | v :: rest, gathered => h.bind (gather h hi gathered v) fun g => gatherAll rest g

theorem overSource (v : Value) : R X (overSource item v) (overSource item' v) := by
  cases v with
  | tuple fields => exact h.bind (gatherAll h hi _ _) fun _ => h.pure _
  | list kind members => exact h.bind (gatherAll h hi _ _) fun _ => h.pure _
  | range first last =>
    rw [overSource_range, overSource_range]
    exact h.bind (gatherAll h hi _ _) fun _ => h.pure _
  | all => exact h.bind h.graph fun g => h.bind (gatherAll h hi _ _) fun _ => h.pure _
  | _ => exact hi _

end

theorem forLoop {x : Var} {source source' guard guard' body body' : Expr} (hs : R X (ev source) (ev' source'))
    (hg : R (under (some x.id) X) (ev guard) (ev' guard'))
    (hb : R (under (some x.id) X) (ev body) (ev' body')) :
    R X (forLoop ev x source guard body) (forLoop ev' x source' guard' body') := by
  refine h.bind hs fun v => ?_
  cases v with
  | none => exact h.pure _
  | some v =>
    exact h.bind (h.note _) fun _ =>
      h.bind (h.indented (overSource h (fun item => guarded h (some item) hg hb) v)) fun _ =>
        h.bind (h.note _) fun _ => h.pure _

theorem letBinding {x : Var} {bound bound' guard guard' body body' : Expr} (hs : R X (ev bound) (ev' bound'))
    (hg : R (under (some x.id) X) (ev guard) (ev' guard'))
    (hb : R (under (some x.id) X) (ev body) (ev' body')) :
    R X (letBinding ev x bound guard body) (letBinding ev' x bound' guard' body') :=
  h.bind hs fun v => h.bind (h.note _) fun _ => h.indented (guarded h v hg hb)

/-! ## Operator applications -/

theorem orNothing {e : Option Expr} (he : ∀ a ∈ e, R X (ev a) (ev' a)) :
    R X (orNothing ev e) (orNothing ev' e) := by
  cases e with
  | none => exact h.pure _
  | some a => exact he a rfl

theorem operandTruth {e e' : Option Expr} (he : R X (Eval.orNothing ev e) (Eval.orNothing ev' e')) :
    R X (operandTruth ev e) (operandTruth ev' e') := by
  rw [operandTruth_eq, operandTruth_eq]
  exact h.bind he fun _ => h.pure _

theorem applyUnary (o : Operator) (v : Value) (span : Option Span) :
    R X (applyUnary o v span) (applyUnary o v span) := by
  unfold Eval.applyUnary
  split <;> first | exact h.pure _ | exact h.orReport _ _

theorem lookupIndex (i k : Value) (span : Option Span) : R X (lookupIndex i k span) (lookupIndex i k span) := by
  cases i with
  | index kind => exact h.bind h.graph fun g => h.orReport _ _
  | _ => exact h.report _ _

theorem readField (o n : Value) (span : Option Span) : R X (readField o n span) (readField o n span) := by
  cases o with
  | object p =>
    cases n with
    | str s => exact h.bind h.graph fun g => h.pure _
    | _ => exact h.report _ _
  | _ => exact h.report _ _

theorem operate (o : Operator) (l r : Value) (span : Option Span) : R X (operate o l r span) (operate o l r span) :=
  h.bind h.library fun _ => h.orReport _ _

theorem applyBinary {o : Operator} (ho : o ≠ .call) (l r : Value) (span : Option Span) :
    R X (applyBinary ev o l r span) (applyBinary ev' o l r span) := by
  unfold Eval.applyBinary
  split
  · exact absurd rfl ho
  · exact h.lookupIndex l r span
  · exact h.readField l r span
  · exact h.operate o l r span

section
variable {left left' : Expr} {right right' : Option Expr} (hl : R X (ev left) (ev' left'))
  (hr : R X (Eval.orNothing ev right) (Eval.orNothing ev' right')) (span : Option Span)
include hl hr

theorem connective (goOn : Bool) : R X (connective ev goOn left right) (connective ev' goOn left' right') := by
  have hleft : R X (Eval.orNothing ev (some left)) (Eval.orNothing ev' (some left')) := hl
  refine h.bind (operandTruth h hleft) fun l => ?_
  split
  · exact h.bind (operandTruth h hr) fun _ => h.pure _
  · exact h.pure _

theorem unite : R X (unite ev left right span) (unite ev' left' right' span) := by
  refine h.bind hl fun l => h.bind hr fun r => ?_
  cases l <;> cases r <;> first | exact h.pure _ | exact h.operate _ _ _ _

variable (hsome : right.isSome = right'.isSome)
include hsome

theorem strict {o : Operator} (ha : ∀ a b, R X (Eval.applyBinary ev o a b span) (Eval.applyBinary ev' o a b span)) :
    R X (strict ev o left right span) (strict ev' o left' right' span) := by
  refine h.bind hl fun l => ?_
  cases l with
  | none => exact h.pure _
  | some l =>
    cases right with
    | none =>
      cases right' with
      | none => exact h.applyUnary o l span
      | some right' => cases hsome
    | some right =>
      cases right' with
      | none => cases hsome
      | some right' =>
        refine h.bind hr fun r => ?_
        cases r with
        | none => exact h.pure _
        | some r => exact ha l r

theorem operation {o : Operator}
    (ha : ∀ a b, R X (Eval.applyBinary ev o a b span) (Eval.applyBinary ev' o a b span)) :
    R X (operation ev o left right span) (operation ev' o left' right' span) := by
  cases o with
  | logAnd => exact connective h hl hr true
  | logOr => exact connective h hl hr false
  | union => exact unite h hl hr span
  | _ => exact strict h hl hr span hsome ha

end

/-! ## Nodes -/

theorem condition {test test' : Expr} {yes yes' no no' : Option Expr} (ht : R X (ev test) (ev' test'))
    (hy : R X (Eval.orNothing ev yes) (Eval.orNothing ev' yes'))
    (hn : R X (Eval.orNothing ev no) (Eval.orNothing ev' no')) :
    R X (condition ev test yes no) (condition ev' test' yes' no') := by
  refine h.bind ht fun t => h.bind (h.note _) fun _ => ?_
  split
  · exact hy
  · exact hn

theorem fieldValues : ∀ {fields fields' : List (Option Expr)},
    List.Forall₂ (fun e e' => R X (Eval.orNothing ev e) (Eval.orNothing ev' e')) fields fields' →
      R X (fieldValues ev fields) (fieldValues ev' fields')
  | _, _, .nil => h.pure _
  | _, _, .cons he hrest => h.bind he fun _ => h.bind (fieldValues hrest) fun _ => h.pure _

theorem sameFields {fields : List (Option Expr)} (hf : ∀ a, some a ∈ fields → R X (ev a) (ev' a)) :
    List.Forall₂ (fun e e' => R X (Eval.orNothing ev e) (Eval.orNothing ev' e')) fields fields :=
  List.forall₂_same.mpr fun _ he => orNothing h fun a ha => hf a (Option.mem_def.mp ha ▸ he)

/-- A node is related to itself if each of its parts is, with the bindings that it has there. -/
theorem node {e : Expr} (hi : e.isDirect = true) (hX : e.Within X)
    (hp : ∀ x a, (x, a) ∈ e.parts → R (under x X) (ev a) (ev' a)) : R X (node ev e) (node ev' e) := by
  cases e with
  | val v => exact h.pure _
  | ref x => exact h.readVar (hX x (List.mem_singleton.mpr rfl))
  | lambda x body => cases hi
  | forIn x source guard body =>
    exact forLoop h (hp none source (by simp [Expr.parts])) (hp (some x.id) guard (by simp [Expr.parts]))
      (hp (some x.id) body (by simp [Expr.parts]))
  | letIn x bound guard body =>
    exact letBinding h (hp none bound (by simp [Expr.parts])) (hp (some x.id) guard (by simp [Expr.parts]))
      (hp (some x.id) body (by simp [Expr.parts]))
  | cond test yes no =>
    refine condition h (hp none test (by simp [Expr.parts])) (orNothing h fun a ha => hp none a ?_)
      (orNothing h fun a ha => hp none a ?_)
    · simp [Expr.parts, Option.mem_def.mp ha]
    · simp [Expr.parts, Option.mem_def.mp ha]
  | tuple fields =>
    refine h.bind (fieldValues h (sameFields h fun a ha => hp none a ?_)) fun _ => h.pure _
    simpa [Expr.parts] using ha
  | op o left right span =>
    simp only [Expr.isDirect, Bool.and_eq_true, bne_iff_ne, Bool.not_eq_true'] at hi
    simp only [Eval.node, hi.2]
    refine h.bind (operation h (hp none left (by simp [Expr.parts])) (orNothing h fun a ha => hp none a ?_) span rfl
      fun _ _ => applyBinary h hi.1 _ _ span) fun _ => h.bind (h.note _) fun _ => h.pure _
    simp [Expr.parts, Option.mem_def.mp ha]

end Respected

end Provenance.Eval
