import Provenance.Proofs.Eval.Upheld
import Provenance.Proofs.Value.Closures
import Provenance.Query

/-!
# Queries that do not see one another

Of what earlier queries leave in a session, the bindings and the depth are gone
when the next one begins, and the reports and the trace are never read. What is
left are the counts of closures and of path steps, and these matter only to
queries that make closures or walk paths. So each of the others fares as it
would by itself (`Query.inTurn_isolated`), whatever became of those before it.
-/

namespace Provenance

/-! ## Closures and paths left out -/

namespace Expr

def isIsolated : Expr → Bool
  | val v => v.isClosureFree
  | lambda _ _ => false
  | op o _ _ _ => !o.isJoin
  | _ => true

/-- Nowhere in the expression is a closure made or named, or a path walked. -/
def Isolated (e : Expr) : Prop :=
  ∀ a ∈ e.nodes, a.isIsolated = true

end Expr

def Domain.isolated : Domain where
  value v := v.isClosureFree = true
  expr := Expr.Isolated

theorem Domain.closed_isolated : Domain.isolated.Closed :=
  closed_closureFree (fun _ h => h _ (Expr.self_mem_nodes _)) fun _ _ _ h ha b hb =>
    h b (Expr.nodes_subset_of_mem_parts ha hb)

namespace Eval

open Domain (isolated closed_isolated)

/-! ## Two sessions -/

/-- What an evaluation that is `isolated` can tell of a session. -/
structure Alike (s t : Session) : Prop where
  scope : s.scope = t.scope
  depth : s.depth = t.depth
  bound : isolated.scope s.scope

/-- From sessions that are alike the computations come to the same outcome, with the same reports, and
leave the sessions as alike as before. -/
structure Parallel {α : Type} (Q : α → Prop) (m m' : Eval α) (c : Setting) (s t : Session) : Prop where
  outcome : (m c s).1 = (m' c t).1
  holds : ∀ a, (m c s).1 = .ok a → Q a
  scope : (m c s).2.scope = s.scope
  scope' : (m' c t).2.scope = t.scope
  depth : (m c s).2.depth = s.depth
  depth' : (m' c t).2.depth = t.depth
  reports : ∃ ds, (m c s).2.diagnostics = s.diagnostics ++ ds ∧ (m' c t).2.diagnostics = t.diagnostics ++ ds

def Agrees {α : Type} (Q : α → Prop) (m m' : Eval α) : Prop :=
  ∀ c s t, isolated.graph c.graph → Alike s t → Parallel Q m m' c s t

variable {α β : Type} {Q : α → Prop} {P : β → Prop}

theorem Parallel.alike {m m' : Eval α} {c : Setting} {s t : Session} (h : Parallel Q m m' c s t) (ha : Alike s t) :
    Alike (m c s).2 (m' c t).2 :=
  ⟨h.scope.trans (ha.scope.trans h.scope'.symm), h.depth.trans (ha.depth.trans h.depth'.symm), h.scope ▸ ha.bound⟩

theorem Agrees.of_silent {m m' : Eval α} (hm : ∀ c s, (m c s).2 = s) (hm' : ∀ c s, (m' c s).2 = s)
    (h : ∀ c s t, isolated.graph c.graph → Alike s t → (m c s).1 = (m' c t).1 ∧ ∀ a, (m c s).1 = .ok a → Q a) :
    Agrees Q m m' := by
  intro c s t hg ha
  obtain ⟨hsame, hQ⟩ := h c s t hg ha
  refine ⟨hsame, hQ, ?_, ?_, ?_, ?_, #[], ?_, ?_⟩ <;> simp [hm, hm']

theorem agrees_change {f : Session → Session} (ds : Array Diagnostic) (hscope : ∀ s, (f s).scope = s.scope)
    (hdepth : ∀ s, (f s).depth = s.depth) (hreports : ∀ s, (f s).diagnostics = s.diagnostics ++ ds) :
    Agrees (fun _ => True) (change f) (change f) := fun _ s t _ _ =>
  ⟨rfl, fun _ _ => trivial, hscope s, hscope t, hdepth s, hdepth t, ds, hreports s, hreports t⟩

theorem agrees_note (line : Unit → String) : Agrees (fun _ => True) (note line) (note line) :=
  agrees_change #[] (fun _ => rfl) (fun _ => rfl) fun _ => by simp

theorem Agrees.pure {a : α} (h : Q a) : Agrees Q (Pure.pure a) (Pure.pure a) := by
  refine .of_silent (fun _ _ => rfl) (fun _ _ => rfl) fun _ _ _ _ _ => ⟨rfl, fun b hb => ?_⟩
  cases hb
  exact h

theorem Agrees.bind {m m' : Eval α} {f f' : α → Eval β} (hm : Agrees Q m m') (hf : ∀ a, Q a → Agrees P (f a) (f' a)) :
    Agrees P (m >>= f) (m' >>= f') := by
  intro c s t hg ha
  have h := hm c s t hg ha
  have halike := h.alike ha
  rcases hms : m c s with ⟨r, s₁⟩
  rcases hmt : m' c t with ⟨r', t₁⟩
  obtain ⟨houtcome, hholds, hscope, hscope', hdepth, hdepth', ds, hds, hds'⟩ := h
  rw [hms, hmt] at halike
  rw [hms, hmt] at houtcome
  rw [hms] at hholds hscope hdepth hds
  rw [hmt] at hscope' hdepth' hds'
  cases houtcome
  cases r with
  | error e =>
    refine ⟨?_, ?_, ?_, ?_, ?_, ?_, ds, ?_, ?_⟩ <;> simp only [bind_of_abort hms, bind_of_abort hmt]
    · exact fun _ hb => by cases hb
    all_goals assumption
  | ok a =>
    have h := hf a (hholds a rfl) c s₁ t₁ hg halike
    obtain ⟨ds', hds₁, hds₁'⟩ := h.reports
    refine ⟨?_, ?_, ?_, ?_, ?_, ?_, ds ++ ds', ?_, ?_⟩ <;> simp only [bind_of_ok hms, bind_of_ok hmt]
    · exact h.outcome
    · exact h.holds
    · exact h.scope.trans hscope
    · exact h.scope'.trans hscope'
    · exact h.depth.trans hdepth
    · exact h.depth'.trans hdepth'
    · rw [hds₁, hds, Array.append_assoc]
    · rw [hds₁', hds', Array.append_assoc]

theorem agrees_report (f : Fault) (span : Option Span) : Agrees (· = none) (report f span) (report f span) := by
  refine (agrees_note _).bind fun _ _ => Agrees.bind (Q := fun _ => True) ?_ fun _ _ => .pure rfl
  exact agrees_change #[⟨f, span⟩] (fun _ => rfl) (fun _ => rfl) fun _ => rfl

theorem Agrees.indented {m m' : Eval α} (h : Agrees Q m m') : Agrees Q (indented m) (indented m') := by
  intro c s t hg ha
  have hm := h c (enter s) (enter t) hg ⟨ha.scope, ha.depth, ha.bound⟩
  exact ⟨hm.outcome, hm.holds, hm.scope, hm.scope', hm.depth, hm.depth', hm.reports⟩

theorem Agrees.deeper {m m' : Eval α} (h : Agrees Q m m') : Agrees Q (deeper m) (deeper m') := by
  intro c s t hg ha
  have hm := h c { s with depth := s.depth + 1 } { t with depth := t.depth + 1 } hg
    ⟨ha.scope, congrArg (· + 1) ha.depth, ha.bound⟩
  refine ⟨hm.outcome, hm.holds, hm.scope, hm.scope', ?_, ?_, hm.reports⟩
  · exact congrArg (· - 1) hm.depth
  · exact congrArg (· - 1) hm.depth'

theorem Agrees.binding {m m' : Eval α} (x : VarId) {v : Option Value} (hv : isolated.result v) (h : Agrees Q m m') :
    Agrees Q (binding x v m) (binding x v m') := by
  intro c s t hg ha
  have hm := h c { s with scope := s.scope.push x v } { t with scope := t.scope.push x v } hg
    ⟨congrArg (Scope.push · x v) ha.scope, ha.depth, Domain.scope_push hv ha.bound⟩
  have hs := unbind_of_push hm.scope
  have ht := unbind_of_push hm.scope'
  refine ⟨hm.outcome, hm.holds, ?_, ?_, ?_, ?_, ?_⟩ <;> simp only [Eval.binding, between_apply, hs, ht]
  · exact hm.depth
  · exact hm.depth'
  · exact hm.reports

theorem upheld_agrees : Upheld isolated @Agrees where
  closed := closed_isolated
  closure _ h := by cases h _ (Expr.self_mem_nodes _)
  pure := Agrees.pure
  bind := Agrees.bind
  note := agrees_note
  report := agrees_report
  graph := .of_silent (fun _ _ => rfl) (fun _ _ => rfl) fun _ _ _ hg _ => ⟨rfl, fun _ hb => by cases hb; exact hg⟩
  library := .of_silent (fun _ _ => rfl) (fun _ _ => rfl) fun _ _ _ _ _ => ⟨rfl, fun _ _ => trivial⟩
  currentScope := .of_silent (fun _ _ => rfl) (fun _ _ => rfl) fun _ _ _ _ ha =>
    ⟨congrArg Except.ok ha.scope, fun _ hb => by cases hb; exact ha.bound⟩
  indented := Agrees.indented
  binding := Agrees.binding
  freshClosure h := by cases h _ (Expr.self_mem_nodes _)
  walking h hjoin := by
    have hop := h _ (Expr.self_mem_nodes _)
    rw [Expr.isIsolated, hjoin] at hop
    cases hop

theorem agrees_evaluateIn : ∀ (n : Nat) (e : Expr), e.Isolated →
    Agrees isolated.result (evaluateIn n e) (evaluateIn n e)
  | 0, e, _ => by
    refine .of_silent (fun _ _ => rfl) (fun _ _ => rfl) fun c s t _ ha => ⟨?_, fun _ hb => by cases hb⟩
    show Except.error (Abort.depthExceeded s.depth _) = Except.error (Abort.depthExceeded t.depth _)
    rw [ha.depth]
  | n + 1, _, he => .deeper (upheld_agrees.node (agrees_evaluateIn n) he)

theorem parallel_evaluate {e : Expr} {c : Setting} {s t : Session} (he : e.Isolated) (hg : isolated.graph c.graph)
    (ha : Alike s t) : Parallel isolated.result (evaluate e) (evaluate e) c s t := by
  have h := agrees_evaluateIn (c.limits.maxDepth - s.depth) e he c s t hg ha
  have ht : evaluateIn (c.limits.maxDepth - s.depth) e c t = evaluate e c t := by rw [evaluate, ha.depth]
  refine ⟨h.outcome.trans (congrArg Prod.fst ht), h.holds, h.scope, ?_, h.depth, ?_, ?_⟩
  · exact ht ▸ h.scope'
  · exact ht ▸ h.depth'
  · exact ht ▸ h.reports

end Eval

/-! ## Queries in turn -/

namespace Query

open Eval (Alike parallel_evaluate)

variable {c : Setting} {t : Session}

theorem drop_append_reports (ds ds' : Array Diagnostic) : (ds ++ ds').toList.drop ds.size = ds'.toList := by
  rw [Array.toList_append, ← Array.length_toList, List.drop_left]

/-- Each query fares as it does from the session `t`, and the reports are those of the queries. -/
theorem inTurn_of_alike (hg : Domain.isolated.graph c.graph) : ∀ {es : List Expr} {s : Session},
    (∀ e ∈ es, e.Isolated) → Alike s t →
      (inTurn Eval.evaluate c es s).1 = es.flatMap (fun e => (inTurn Eval.evaluate c [e] t).1) ∧
        (inTurn Eval.evaluate c es s).2.diagnostics.toList =
          s.diagnostics.toList ++ (inTurn Eval.evaluate c es s).1.flatMap Prod.snd
  | [], s, _, _ => ⟨rfl, (List.append_nil _).symm⟩
  | e :: es, s, hes, ha => by
    have h := parallel_evaluate (hes e List.mem_cons_self) hg ha
    have hnext : Alike (Eval.evaluate e c s).2 t :=
      ⟨h.scope.trans ha.scope, h.depth.trans ha.depth, h.scope ▸ ha.bound⟩
    obtain ⟨hrest, hreports⟩ := inTurn_of_alike hg (fun a he => hes a (List.mem_cons_of_mem e he)) hnext
    obtain ⟨ds, hds, hds'⟩ := h.reports
    refine ⟨?_, ?_⟩
    · simp only [inTurn, List.flatMap_cons, List.cons_append, List.nil_append]
      rw [hrest, h.outcome, hds, hds', drop_append_reports, drop_append_reports]
      rfl
    · simp only [inTurn, List.flatMap_cons]
      rw [hreports, hds, drop_append_reports, Array.toList_append, List.append_assoc]

/-- Queries that make no closures and walk no paths fare in one session as each does in a session of its own. -/
theorem inTurn_isolated {es : List Expr} (trace : Bool) (hg : Domain.isolated.graph c.graph)
    (hes : ∀ e ∈ es, e.Isolated) :
    (inTurn Eval.evaluate c es (.new trace)).1 = es.flatMap (fun e => (inTurn Eval.evaluate c [e] (.new trace)).1) ∧
      (inTurn Eval.evaluate c es (.new trace)).2.diagnostics.toList =
        (inTurn Eval.evaluate c es (.new trace)).1.flatMap Prod.snd := by
  have hnew : Alike (.new trace) (.new trace) := ⟨rfl, rfl, Domain.scope_nil⟩
  exact inTurn_of_alike hg hes hnew

/-- The query `let x = 1 in let y = x in x + (y + (x + y))`, which does not get to the inner sum. -/
def tooNested : Expr :=
  .letAlways ⟨0, "x"⟩ (.int 1) (.letAlways ⟨1, "y"⟩ (.ref 0)
    (.binary .add (.ref 0) (.binary .add (.ref 1) (.binary .add (.ref 0) (.ref 1)))))

def shallow : Setting :=
  ⟨⟨[(1, [("SIZE", .int 5)])], []⟩, ⟨5, none, 10⟩, .standard⟩

theorem inTurn_isolated_tooNested :
    (inTurn Eval.evaluate shallow [tooNested, .field (.object 1) "SIZE", .ref 0] (.new false)).1 =
      [(.error (.depthExceeded 5 5), []), (.ok (some (.int 5)), []),
        (.ok none, [⟨.unboundVariable 0, none⟩])] := by
  have hes : ∀ e ∈ [tooNested, .field (.object 1) "SIZE", .ref 0], Expr.Isolated e := by
    unfold Expr.Isolated
    decide
  have hg : Domain.isolated.graph shallow.graph := by
    intro o ho r hr
    rw [List.mem_singleton.mp ho] at hr
    rw [List.mem_singleton.mp hr]
    rfl
  exact (inTurn_isolated false hg hes).1.trans rfl

end Query

end Provenance
