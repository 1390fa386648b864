import Provenance.Proofs.Eval.Mirrors
import Provenance.Proofs.Eval.Rescoped
import Provenance.Proofs.Eval.Upheld
import Provenance.Proofs.Value.Closures

/-!
# Evaluation depends on the free variables

Where no function is a value, nothing else of the bindings matters than what the
free variables of an expression are bound to: of two sessions that differ in
other bindings, hidden ones among them, evaluation makes the same, and no other
variable is reported as unbound (`evaluate_coincides`).
-/

namespace Provenance

namespace Expr

def isFirstOrder : Expr → Bool
  | val v => v.isClosureFree
  | lambda _ _ => false
  | op o _ _ _ => o != .call
  | _ => true

/-- Nowhere in the expression is a closure made or named, or a function called. -/
def FirstOrder (e : Expr) : Prop :=
  ∀ a ∈ e.nodes, a.isFirstOrder = true

theorem FirstOrder.part {e a : Expr} {x : Option VarId} (h : e.FirstOrder) (ha : (x, a) ∈ e.parts) : a.FirstOrder :=
  fun b hb => h b (nodes_subset_of_mem_parts ha hb)

end Expr

def Domain.firstOrder : Domain where
  value v := v.isClosureFree = true
  expr := Expr.FirstOrder

theorem Domain.closed_firstOrder : Domain.firstOrder.Closed :=
  closed_closureFree (fun _ h => h _ (Expr.self_mem_nodes _)) fun _ _ _ h ha => h.part ha

namespace Eval

open Domain (firstOrder closed_firstOrder)
open Provenance.Expr (under)

/-! ## Reading no other variables -/

/-- What is added to the reports tells as unbound only variables in `X` that are. -/
def ReportsWithin (X : VarId → Prop) (s s' : Session) : Prop :=
  ∃ ds : Array Diagnostic, s'.diagnostics = s.diagnostics ++ ds ∧
    ∀ d ∈ ds, ∀ x, d.fault = .unboundVariable x → X x ∧ s.scope.lookup? x = none

/-- The computation does the same in the scope `τ`, and reports only variables in `X` as unbound. An outcome of it
satisfies `Q`. -/
structure Confined (X : VarId → Prop) {α : Type} (Q : α → Prop) (m : Eval α) (c : Setting) (s : Session)
    (τ : Scope (Option Value)) : Prop where
  rescoped : Rescoped m m c s τ
  holds : ∀ a, (m c s).1 = .ok a → Q a
  reports : ReportsWithin X s (m c s).2

/-- The computation depends on no other bindings than those of the variables in `X`. -/
def DependsOn (X : VarId → Prop) {α : Type} (Q : α → Prop) (m : Eval α) : Prop :=
  ∀ c s τ, firstOrder.graph c.graph → firstOrder.scope s.scope → (∀ x, X x → s.scope.lookup? x = τ.lookup? x) →
    Confined X Q m c s τ

variable {X : VarId → Prop} {α β : Type} {Q : α → Prop} {P : β → Prop} {m : Eval α} {s s' s'' : Session}

theorem reportsWithin_of_eq (h : s'.diagnostics = s.diagnostics) : ReportsWithin X s s' :=
  ⟨#[], by rw [h, Array.append_empty], fun _ hd => absurd hd (Array.not_mem_empty _)⟩

theorem ReportsWithin.trans (h : ReportsWithin X s s') (h' : ReportsWithin X s' s'') (hscope : s'.scope = s.scope) :
    ReportsWithin X s s'' := by
  obtain ⟨ds, hds, hwithin⟩ := h
  obtain ⟨ds', hds', hwithin'⟩ := h'
  rw [hscope] at hwithin'
  refine ⟨ds ++ ds', by rw [hds', hds, Array.append_assoc], fun d hd => ?_⟩
  exact (Array.mem_append.mp hd).elim (hwithin d) (hwithin' d)

namespace DependsOn

theorem of_silent (hscope : ∀ c s σ, m c { s with scope := σ } = ((m c s).1, { (m c s).2 with scope := σ }))
    (hreports : ∀ c s, (m c s).2.diagnostics = s.diagnostics)
    (hQ : ∀ c s a, firstOrder.graph c.graph → (m c s).1 = .ok a → Q a) : DependsOn X Q m := by
  intro c s τ hg _ _
  exact ⟨⟨hscope c s τ, congrArg (fun r : _ × Session => r.2.scope) (hscope c s s.scope)⟩, fun a => hQ c s a hg,
    reportsWithin_of_eq (hreports c s)⟩

theorem pure {a : α} (h : Q a) : DependsOn X Q (Pure.pure a) := by
  refine .of_silent (fun _ _ _ => rfl) (fun _ _ => rfl) fun _ _ b _ hb => ?_
  cases hb
  exact h

theorem bind {f : α → Eval β} (hm : DependsOn X Q m) (hf : ∀ a, Q a → DependsOn X P (f a)) :
    DependsOn X P (m >>= f) := by
  intro c s τ hg hs hX
  obtain ⟨hrescoped, hholds, hreports⟩ := hm c s τ hg hs hX
  have hscope := hrescoped.scope
  have hnext : ∀ a, (m c s).1 = .ok a → Confined X P (f a) c (m c s).2 τ := fun a ha =>
    hf a (hholds a ha) c _ τ hg (hscope ▸ hs) (hscope ▸ hX)
  have hrest : (∀ b, ((m >>= f) c s).1 = .ok b → P b) ∧ ReportsWithin X s ((m >>= f) c s).2 := by
    rcases hms : m c s with ⟨e | a, s₁⟩
    · rw [hms] at hreports
      rw [bind_of_abort hms]
      refine ⟨fun _ hb => ?_, hreports⟩
      cases hb
    · rw [hms] at hscope hreports hnext
      have h := hnext a rfl
      rw [bind_of_ok hms]
      exact ⟨h.holds, hreports.trans h.reports hscope⟩
  exact ⟨hrescoped.bind fun a ha => (hnext a ha).rescoped, hrest.1, hrest.2⟩

theorem report {f : Fault} (span : Option Span) (hf : f.unbound? = none) : DependsOn X (· = none) (report f span) := by
  intro c s τ _ _ _
  refine ⟨⟨rfl, rfl⟩, fun a ha => (Except.ok.inj ha).symm, #[⟨f, span⟩], rfl, fun d hd x hx => ?_⟩
  rw [Array.mem_singleton.mp hd] at hx
  rw [Fault.unbound?_eq_some.mpr hx] at hf
  cases hf

theorem readVar {x : VarId} (hx : X x) : DependsOn X firstOrder.result (readVar x) := by
  intro c s τ _ hs hX
  refine ⟨.readVar (hX x hx), ?_, ?_⟩
  · intro v hv
    cases hl : s.scope.lookup? x with
    | some w =>
      rw [readVar_of_bound hl] at hv
      cases hv
      exact Domain.result_of_lookup? hs hl
    | none =>
      rw [readVar_of_unbound hl] at hv
      cases hv
      exact Domain.result_none
  · cases hl : s.scope.lookup? x with
    | some w =>
      rw [readVar_of_bound hl]
      exact reportsWithin_of_eq rfl
    | none =>
      rw [readVar_of_unbound hl]
      refine ⟨#[⟨.unboundVariable x, none⟩], rfl, fun d hd y hy => ?_⟩
      rw [Array.mem_singleton.mp hd] at hy
      cases hy
      exact ⟨hx, hl⟩

theorem binding {x : VarId} {v : Option Value} (hv : firstOrder.result v) (hm : DependsOn (under (some x) X) Q m) :
    DependsOn X Q (binding x v m) := by
  intro c s τ hg hs hX
  have h := hm c { s with scope := s.scope.push x v } (τ.push x v) hg (Domain.scope_push hv hs) (lookup?_push_congr hX)
  refine ⟨h.rescoped.binding, h.holds, ?_⟩
  obtain ⟨ds, hds, hwithin⟩ := h.reports
  refine ⟨ds, (diagnostics_unbind _).trans hds, fun d hd y hy => ?_⟩
  obtain ⟨hyX, hfree⟩ := hwithin d hd y hy
  -- The variable bound here is not reported as unbound.
  have hne : x ≠ y := by
    rintro rfl
    rw [Scope.lookup?_push] at hfree
    cases hfree
  rw [Scope.lookup?_push_of_ne _ _ hne] at hfree
  exact ⟨hyX.resolve_left hne, hfree⟩

theorem indented (hm : DependsOn X Q m) : DependsOn X Q (indented m) := fun c s τ hg hs hX =>
  have h := hm c (enter s) τ hg hs hX
  ⟨h.rescoped.indented, h.holds, h.reports⟩

theorem deeper (hm : DependsOn X Q m) : DependsOn X Q (deeper m) := fun c s τ hg hs hX =>
  have h := hm c { s with depth := s.depth + 1 } τ hg hs hX
  ⟨h.rescoped.deeper, h.holds, h.reports⟩

/-- Paths look at the bindings for the direction. -/
theorem routed {e : Expr} {f : Path.Route → Eval α} (he : e.Within X)
    (hf : ∀ σ, DependsOn X Q (f (Path.route σ e))) :
    DependsOn X Q (currentScope >>= fun σ => f (Path.route σ e)) := by
  intro c s τ hg hs hX
  have h := hf s.scope c s τ hg hs hX
  have hroute : Path.route τ e = Path.route s.scope e := by
    refine route_congr fun x hx => ?_
    simp only [Scope.read, hX x (he x hx)]
  refine ⟨⟨?_, h.rescoped.scope⟩, h.holds, h.reports⟩
  have hsame := h.rescoped.same
  rw [← hroute] at hsame
  exact hsame.trans (by rw [hroute]; rfl)

theorem countStep : DependsOn X (fun _ => True) countStep := by
  refine .of_silent (fun c s σ => ?_) (fun c s => by rw [countStep_snd]) fun _ _ _ _ _ => trivial
  unfold Eval.countStep
  cases c.limits.maxPathSteps with
  | none => rfl
  | some n =>
    dsimp only
    split <;> rfl

theorem generations : DependsOn X (fun _ => True) generations := by
  refine .of_silent (fun c s σ => ?_) (fun c s => by rw [generations_snd]) fun _ _ _ _ _ => trivial
  unfold Eval.generations
  cases c.limits.maxPathSteps <;> rfl

end DependsOn

/-! ## All of evaluation -/

theorem situated_dependsOn : @Situated (VarId → Prop) Timeless Unit _ ⟨fun _ => firstOrder.value, firstOrder.expr⟩
    ⟨fun X e => e.FirstOrder ∧ e.Within X, fun x X => under (some x) X⟩ fun X _ _ Q m _ => DependsOn X (Q .now) m where
  closed _ := closed_firstOrder
  grow _ hv := hv
  expr he := he.1
  part he ha := ⟨he.1.part ha, he.2.part ha⟩
  bound he ha := ⟨he.1.part ha, he.2.part ha⟩
  body hv := by cases hv
  pure := .pure
  bind hm hf := .bind hm fun a ha => hf .now a le_rfl ha
  note line := .of_silent (fun _ _ _ => rfl) (fun _ _ => rfl) fun _ _ _ _ _ => ⟨rfl, trivial⟩
  report span hf c s τ hg hs hX :=
    have h := DependsOn.report span hf c s τ hg hs hX
    ⟨h.rescoped, fun a ha => ⟨rfl, h.holds a ha⟩, h.reports⟩
  graph := .of_silent (fun _ _ _ => rfl) (fun _ _ => rfl) fun _ _ _ hg ha => by cases ha; exact ⟨rfl, hg⟩
  library := .of_silent (fun _ _ _ => rfl) (fun _ _ => rfl) fun _ _ _ _ _ => ⟨rfl, trivial⟩
  readVar he := .readVar (he.2 _ (List.mem_singleton_self _))
  routed he hf := .routed he.2 hf
  indented := .indented
  binding _ _ hv hm := .binding hv hm
  closure he := absurd (he.1 _ (Expr.self_mem_nodes _)) Bool.false_ne_true
  roaming _ _ :=
    { isTracing := .of_silent (fun _ _ _ => rfl) (fun _ _ => rfl) fun _ _ _ _ _ => trivial
      enter := .of_silent (fun _ _ _ => rfl) (fun _ _ => rfl) fun _ _ _ _ _ => trivial
      leave := .of_silent (fun _ _ _ => rfl) (fun _ _ => rfl) fun _ _ _ _ _ => trivial
      countStep := .countStep
      generations := .generations
      unending := .of_silent (fun _ _ _ => rfl) (fun _ _ => rfl) fun _ _ _ _ _ => trivial }

theorem dependsOn_evaluateIn : ∀ (n : Nat) {X : VarId → Prop} {e : Expr}, e.FirstOrder → e.Within X →
    DependsOn X firstOrder.result (evaluateIn n e)
  | 0, _, _, _, _ => .of_silent (fun _ _ _ => rfl) (fun _ _ => rfl) fun _ _ _ _ h => by cases h
  | n + 1, X, e, he, hX =>
    have hnode : DependsOn X firstOrder.result (node (evaluateIn n) e) :=
      @Situated.node (VarId → Prop) Timeless Unit _ _ _ _ situated_dependsOn (evaluateIn n) (fun _ => evaluateIn n) X .now
        (fun ha => dependsOn_evaluateIn n ha.1 ha.2) e ⟨he, hX⟩
    hnode.deeper

/-- With other bindings of variables that are not free in it, an expression comes to the same outcome, with the same
reports and the same trace; and it reports only free variables as unbound, where they are. -/
theorem evaluate_coincides {e : Expr} {c : Setting} {s : Session} {τ : Scope (Option Value)} (he : e.FirstOrder)
    (hg : firstOrder.graph c.graph) (hs : firstOrder.scope s.scope)
    (h : ∀ x ∈ e.freeVars, s.scope.lookup? x = τ.lookup? x) :
    evaluate e c { s with scope := τ } = ((evaluate e c s).1, { (evaluate e c s).2 with scope := τ }) ∧
      ∃ ds : Array Diagnostic, (evaluate e c s).2.diagnostics = s.diagnostics ++ ds ∧
        ∀ d ∈ ds, ∀ x, d.fault = .unboundVariable x → x ∈ e.freeVars ∧ s.scope.lookup? x = none :=
  have hconfined := dependsOn_evaluateIn (c.limits.maxDepth - s.depth) he (fun _ hx => hx) c s τ hg hs h
  ⟨hconfined.rescoped.same, hconfined.reports⟩

/-- The query `for x in [1, 2] do (x, from -> extract(for x in ALL if x != left do x), gone)`. -/
def reachable : Expr :=
  .forIn ⟨0, "x"⟩ (.val (.listOf [.int 1, .int 2])) (.int 1) (.tupleOf [.ref 0, .binary .step (.ref 1)
    (.unary .extract (.forIn ⟨0, "x"⟩ .all (.binary .ne (.ref 0) (.ref 2)) (.ref 0))), .ref 3])

def fork : Setting :=
  ⟨⟨[(1, []), (2, [("INPUT", .object 1)]), (3, [("INPUT", .object 1)])], [⟨2, 1⟩, ⟨3, 1⟩]⟩, ⟨10, some 10, 10⟩,
    .standard⟩

/-- There is an `x`, which the query hides, and `left` is bound to nothing below the binding that counts. -/
def here : Session :=
  { Session.new true with scope := [(0, some (.str "x")), (1, some (.object 1)), (2, some (.object 2)), (2, none)] }

def elsewhere : Scope (Option Value) :=
  [(7, some .all), (2, some (.object 2)), (0, none), (1, some (.object 1))]

theorem evaluate_coincides_reachable :
    evaluate reachable fork { here with scope := elsewhere } =
        ((evaluate reachable fork here).1, { (evaluate reachable fork here).2 with scope := elsewhere }) ∧
      (evaluate reachable fork here).1 =
        .ok (some (.listOf [.tuple [.int 1, .listOf [.object 3]], .tuple [.int 2, .listOf [.object 3]]])) ∧
      (evaluate reachable fork here).2.diagnostics = #[⟨.unboundVariable 3, none⟩, ⟨.unboundVariable 3, none⟩] := by
  have he : reachable.FirstOrder := by
    unfold Expr.FirstOrder
    decide
  have hg : ∀ o ∈ fork.graph.objects, ∀ r ∈ o.2, r.2.isClosureFree = true := by decide
  have hs : ∀ b ∈ here.scope, ∀ v ∈ b.2, v.isClosureFree = true := by decide
  have hfree : reachable.freeVars = [1, 2, 3] := by decide
  have h : ∀ x ∈ reachable.freeVars, here.scope.lookup? x = elsewhere.lookup? x := by
    rw [hfree]
    simp [here, elsewhere, Scope.lookup?]
  exact ⟨(evaluate_coincides he hg hs h).1, rfl, rfl⟩

end Eval

end Provenance
