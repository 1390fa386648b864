import Provenance.Proofs.Eval.Respect

/-!
# Relations that all of evaluation respects

What `Respected` leaves out, closures and paths, is put together from a few more
computations: making a closure, and reading the route of a path off the bindings
and noting it. A relation that is `Compositional` and holds between two loops
over generations holds between the evaluations of every expression, if it holds
where the levels end (`Compositional.evaluateIn`). Within a generation steps are
counted besides (`Counting`), and around it a level of the trace is opened and
closed, so for a `Congruence` the loops are related as well.
-/

namespace Provenance.Eval

/-- The relation holds between the elementary computations that expressions are made of and themselves, and of
what is put together from computations that it holds between, whatever is bound. -/
structure Compositional (R : ∀ {α : Type}, Eval α → Eval α → Prop) : Prop where
  pure : ∀ {α : Type} (a : α), R (pure a) (pure a)
  bind : ∀ {α β : Type} {m m' : Eval α} {f f' : α → Eval β}, R m m' → (∀ a, R (f a) (f' a)) → R (m >>= f) (m' >>= f')
  note : ∀ line : Unit → String, R (note line) (note line)
  report : ∀ (f : Fault) (span : Option Span), R (report f span) (report f span)
  graph : R graph graph
  library : R library library
  readVar : ∀ x : VarId, R (readVar x) (readVar x)
  routed : ∀ {α : Type} {f f' : Path.Route → Eval α} (e : Expr), (∀ r, R (f r) (f' r)) →
    R (currentScope >>= fun σ => f (Path.route σ e)) (currentScope >>= fun σ => f' (Path.route σ e))
  noteRoute : ∀ r : Path.Route, R (Path.noteRoute r) (Path.noteRoute r)
  freshClosure : R freshClosure freshClosure
  indented : ∀ {α : Type} {m m' : Eval α}, R m m' → R (indented m) (indented m')
  binding : ∀ {α : Type} {m m' : Eval α} (x : VarId) (v : Option Value), R m m' → R (binding x v m) (binding x v m')
  deeper : ∀ {α : Type} {m m' : Eval α}, R m m' → R (deeper m) (deeper m')

structure Counting (R : ∀ {α : Type}, Eval α → Eval α → Prop) : Prop extends Compositional @R where
  countStep : R countStep countStep

structure Congruence (R : ∀ {α : Type}, Eval α → Eval α → Prop) : Prop extends Counting @R where
  enter : R (change enter) (change enter)
  leave : R (change leave) (change leave)

open Provenance.Path

/-- For a relation that holds between asking whether there is a trace and itself. -/
theorem relates_noteRoute (R : ∀ {α : Type}, Eval α → Eval α → Prop) (hpure : R (pure ()) (pure ()))
    (hbind : ∀ {α β : Type} {m m' : Eval α} {f f' : α → Eval β}, R m m' → (∀ a, R (f a) (f' a)) →
      R (m >>= f) (m' >>= f'))
    (hnote : ∀ line : Unit → String, R (note line) (note line)) (htracing : R isTracing isTracing) (r : Route) :
    R (noteRoute r) (noteRoute r) := by
  have hlines : ∀ lines : List String, R (noteAll lines) (noteAll lines) := fun lines => by
    induction lines with
    | nil => exact hpure
    | cons line rest ih => exact hbind (hnote _) fun _ => ih
  refine hbind htracing fun tracing => ?_
  split
  · exact hlines _
  · exact hpure

/-- The loop over the generations of a path, with its limit. -/
def generationLoop (ev : Expr → Eval (Option Value)) (r : Route) (live : List Walker) (found : List (List ObjectId)) :
    Eval (List (List ObjectId)) := do
  let n ← generations
  run ev r n live found

/-- What is left of a path to evaluate once its route is known. -/
def alongRoute (ev : Expr → Eval (Option Value)) (e : Expr) (r : Route) : Eval (Option Value) := do
  note fun _ => "path: " ++ toString r.segments.length ++ " entries, " ++ r.direction.text
  let found ← indented do
    noteRoute r
    walks ev r
  let gathered ← gatherResults r.direction e.span? found .empty
  let result := gathered.reverse.value
  note fun _ => "path => " ++ result.text
  return some result

theorem evaluatePath_eq (ev : Expr → Eval (Option Value)) (e : Expr) :
    Path.evaluate ev e = currentScope >>= fun σ => alongRoute ev e (route σ e) :=
  rfl

section

variable {R : ∀ {α : Type}, Eval α → Eval α → Prop} {ev ev' : Expr → Eval (Option Value)}

namespace Compositional

variable (h : Compositional @R)
include h

theorem respected : Respected fun _ => @R where
  pure := h.pure
  bind := h.bind
  note := h.note
  report := h.report
  graph := h.graph
  library := h.library
  readVar := fun _ => h.readVar _
  indented := h.indented
  binding := h.binding

theorem keep (gathered : Tagged) (v : Option Value) (span : Option Span) :
    R (keep gathered v span) (keep gathered v span) :=
  h.respected.keep (X := fun _ => True) gathered v span

theorem orReport (r : Except Fault Value) (span : Option Span) : R (orReport r span) (orReport r span) :=
  h.respected.orReport (X := fun _ => True) r span

section
variable (hev : ∀ e, R (ev e) (ev' e))
include hev

/-! ## Calls -/

theorem applyClosure (id : UInt64) (x : Var) (body : Expr) (arg : Value) :
    R (applyClosure ev id x body arg) (applyClosure ev' id x body arg) :=
  h.bind (h.note _) fun _ => h.indented (h.binding _ _ (hev body))

theorem keepWhere (id : UInt64) (x : Var) (body : Expr) (span : Option Span) : ∀ (vs : List Value) (kept : Tagged),
    R (keepWhere ev id x body span vs kept) (keepWhere ev' id x body span vs kept)
  | [], _ => h.pure _
  | v :: rest, _ => h.bind (applyClosure h hev id x body v) fun _ => h.bind (h.keep _ _ span)
      fun _ => keepWhere id x body span rest _

theorem filterList (arg : Value) (span : Option Span) : R (filterList ev arg span) (filterList ev' arg span) := by
  unfold Eval.filterList
  split
  · exact h.bind (keepWhere h hev _ _ _ _ _ _) fun _ => h.pure _
  · exact h.report _ _

theorem applyBuiltin (b : Builtin) (arg : Value) (span : Option Span) :
    R (applyBuiltin ev b arg span) (applyBuiltin ev' b arg span) := by
  refine h.bind (h.note _) fun _ => ?_
  cases b with
  | ctime => exact h.bind h.library fun _ => h.orReport _ _
  | filter => exact filterList h hev arg span
  | _ => exact h.orReport _ _

theorem applyFunction (f arg : Value) (span : Option Span) :
    R (applyFunction ev f arg span) (applyFunction ev' f arg span) := by
  cases f with
  | lambda id x body => exact applyClosure h hev id x body arg
  | builtin b => exact applyBuiltin h hev b arg span
  | _ => exact h.report _ _

theorem applyBinary (o : Operator) (l r : Value) (span : Option Span) :
    R (applyBinary ev o l r span) (applyBinary ev' o l r span) := by
  by_cases ho : o = .call
  · subst ho
    exact applyFunction h hev l r span
  · exact h.respected.applyBinary (X := fun _ => True) ho l r span

/-! ## Objects for a segment -/

omit hev in
theorem objectsAmong : ∀ vs : List Value, R (objectsAmong vs) (objectsAmong vs)
  | [] => h.pure _
  | v :: rest => by
    cases v with
    | object p => exact h.bind (objectsAmong rest) fun _ => h.pure _
    | _ => exact h.bind (h.report _ _) fun _ => objectsAmong rest

theorem objectsWhere (id : UInt64) (x : Var) (body : Expr) : ∀ ps : List ObjectId,
    R (objectsWhere ev id x body ps) (objectsWhere ev' id x body ps)
  | [] => h.pure _
  | _ :: rest => h.bind (applyClosure h hev id x body _) fun _ => h.bind (objectsWhere id x body rest)
      fun _ => h.pure _

theorem startObjects (t : Test) : R (startObjects ev t) (startObjects ev' t) := by
  cases t with
  | any => exact h.bind h.graph fun _ => h.pure _
  | expr e =>
    refine h.bind (hev e) fun v => ?_
    split
    · exact h.pure _
    · exact h.pure _
    · exact h.objectsAmong _
    · exact h.bind h.graph fun _ => h.pure _
    · exact h.bind h.graph fun _ => objectsWhere h hev _ _ _ _
    · exact h.bind (h.report _ _) fun _ => h.pure _

theorem passes (p : ObjectId) (t : Test) : R (passes ev p t) (passes ev' p t) := by
  unfold Path.passes
  split
  · exact h.pure _
  · exact h.pure _
  · split
    · exact h.bind (h.binding _ _ (hev _)) fun _ => h.pure _
    · exact h.bind (hev _) fun _ => h.pure _
  · exact h.bind (hev _) fun _ => h.pure _

variable (r : Route)

theorem launch : ∀ starts : List Nat, R (launch ev r starts) (launch ev' r starts)
  | [] => h.pure _
  | _ :: rest => h.bind (h.note _) fun _ => h.bind (h.indented (startObjects h hev _)) fun _ =>
      h.bind (h.note _) fun _ => h.bind (launch rest) fun _ => h.pure _

end

/-! ## Paths -/

theorem gatherResults (d : Direction) (span : Option Span) : ∀ (found : List (List ObjectId)) (gathered : Tagged),
    R (gatherResults d span found gathered) (gatherResults d span found gathered)
  | [], _ => h.pure _
  | _ :: rest, _ => h.bind (h.keep _ _ span) fun _ => gatherResults d span rest _

section
variable (hev : ∀ e, R (ev e) (ev' e))
  (hloop : ∀ r live found, R (Eval.generationLoop ev r live found) (Eval.generationLoop ev' r live found))
include hev hloop

theorem evaluatePath (e : Expr) : R (Path.evaluate ev e) (Path.evaluate ev' e) := by
  rw [evaluatePath_eq, evaluatePath_eq]
  refine h.routed e fun r => h.bind (h.note _) fun _ => ?_
  have hwalks : R (walks ev r) (walks ev' r) := h.bind (h.launch hev _ _) fun live => hloop _ live []
  refine h.bind (h.indented (h.bind (h.noteRoute _) fun _ => hwalks)) fun _ => ?_
  exact h.bind (h.gatherResults _ _ _ _) fun _ => h.bind (h.note _) fun _ => h.pure _

omit hloop in
theorem orNothing (e : Option Expr) : R (orNothing ev e) (orNothing ev' e) :=
  h.respected.orNothing (X := fun _ => True) fun a _ => hev a

theorem node (e : Expr) : R (node ev e) (node ev' e) := by
  have hr : Respected fun _ => @R := h.respected
  cases e with
  | val v => exact h.pure _
  | ref x => exact h.readVar x
  | lambda x body => exact h.bind h.freshClosure fun _ => h.pure _
  | forIn x source guard body => exact hr.forLoop (X := fun _ => True) (hev _) (hev _) (hev _)
  | letIn x bound guard body => exact hr.letBinding (X := fun _ => True) (hev _) (hev _) (hev _)
  | cond test yes no =>
    exact hr.condition (X := fun _ => True) (hev _) (h.orNothing hev _) (h.orNothing hev _)
  | tuple fields =>
    exact h.bind (hr.fieldValues (X := fun _ => True) (hr.sameFields (X := fun _ => True) fun a _ => hev a))
      fun _ => h.pure _
  | op o left right span =>
    simp only [Eval.node]
    split
    · exact evaluatePath h hev hloop _
    · exact h.bind (hr.operation (X := fun _ => True) (hev _) (h.orNothing hev _) span rfl fun a b =>
        h.applyBinary hev o a b span) fun _ => h.bind (h.note _) fun _ => h.pure _

end

/-- By induction on the levels: where they end the relation is assumed, and the loops of a path may use
that the evaluations they ask for are related. -/
theorem evaluateIn {d : Nat} (hzero : ∀ e, R (evaluateIn 0 e) (evaluateIn d e))
    (hloop : ∀ {ev ev' : Expr → Eval (Option Value)}, (∀ e, R (ev e) (ev' e)) →
      ∀ r live found, R (Eval.generationLoop ev r live found) (Eval.generationLoop ev' r live found)) :
    ∀ (n : Nat) (e : Expr), R (evaluateIn n e) (evaluateIn (n + d) e)
  | 0, e => by
    rw [Nat.zero_add]
    exact hzero e
  | n + 1, e => by
    have hev := evaluateIn hzero hloop n
    rw [Nat.succ_add]
    exact h.deeper (h.node hev (hloop hev) e)

end Compositional

/-! ## Generations -/

namespace Counting

variable (h : Counting @R) (hev : ∀ e, R (ev e) (ev' e)) (r : Route)
include h hev

theorem visit (w : Walker) (f : Frontier) (p : ObjectId) : R (visit ev r w f p) (visit ev' r w f p) := by
  refine h.bind h.countStep fun _ => h.bind (h.passes hev p _) fun ok => ?_
  split
  · split
    · exact h.bind (h.note _) fun _ => h.pure _
    · exact h.pure _
  · exact h.pure _

theorem visitAll (w : Walker) : ∀ (ps : List ObjectId) (f : Frontier), R (visitAll ev r w ps f) (visitAll ev' r w ps f)
  | [], _ => h.pure _
  | p :: rest, f => h.bind (visit h hev r w f p) fun _ => visitAll w rest _

theorem explore (w : Walker) (f : Frontier) : R (explore ev r w f) (explore ev' r w f) :=
  h.bind h.graph fun _ => h.bind (h.note _) fun _ => visitAll h hev r w _ f

theorem exploreAll : ∀ (ws : List Walker) (f : Frontier), R (exploreAll ev r ws f) (exploreAll ev' r ws f)
  | [], _ => h.pure _
  | w :: rest, f => h.bind (explore h hev r w f) fun _ => exploreAll rest _

end Counting

namespace Congruence

variable (h : Congruence @R) (hev : ∀ e, R (ev e) (ev' e)) (r : Route)
include h hev

theorem run (hu : R (unending : Eval (List (List ObjectId))) unending) :
    ∀ (n : Nat) (live : List Walker) (found : List (List ObjectId)), R (run ev r n live found) (run ev' r n live found)
  | 0, [], _ => h.pure _
  | _ + 1, [], _ => h.pure _
  | 0, _ :: _, _ => hu
  | n + 1, _ :: _, _ => h.bind (h.note _) fun _ => h.bind h.enter fun _ => h.bind (h.exploreAll hev r _ _) fun _ =>
      h.bind h.leave fun _ => run hu n _ _

/-- For relations that hold between the counts of generations too. -/
theorem generationLoop (hg : R generations generations) (hu : R (unending : Eval (List (List ObjectId))) unending)
    (live : List Walker) (found : List (List ObjectId)) :
    R (Eval.generationLoop ev r live found) (Eval.generationLoop ev' r live found) :=
  h.bind hg fun n => run h hev r hu n live found

end Congruence

end

end Provenance.Eval
