import Provenance.Proofs.Eval.Situated

/-!
# Relations that hold at every place

If a relation between computations is `Sustained` in a growing domain, it does
not matter what is at hand of the variables: it relates the evaluations of every
node of the domain, with an outcome in the domain, provided it relates those of
the expressions of the domain that the node asks for (`Sustained.node`).
-/

namespace Provenance.Eval

variable {W ι : Type}

/-- Closures are made, and paths walked, only if the domain has expressions for that. -/
structure Sustained [Preorder W] (D : Domain.Growing W)
    (R : W → ∀ {α : Type}, (W → α → Prop) → Eval α → (ι → Eval α) → Prop) : Prop where
  closed : ∀ w, (D.stage w).Closed
  grow : ∀ {w w' v}, w ≤ w' → D.value w v → D.value w' v
  pure : ∀ {w} {α : Type} {Q : W → α → Prop} {a : α}, Q w a → R w Q (pure a) fun _ => pure a
  bind : ∀ {w} {α β : Type} {Q : W → α → Prop} {P : W → β → Prop} {m : Eval α} {m' : ι → Eval α}
    {f : α → Eval β} {f' : ι → α → Eval β}, R w Q m m' → (∀ w' a, w ≤ w' → Q w' a → R w' P (f a) fun i => f' i a) →
    R w P (m >>= f) fun i => m' i >>= f' i
  note : ∀ {w} (line : Unit → String), R w (Settled w fun _ => True) (note line) fun _ => note line
  report : ∀ {w} (f : Fault) (span : Option Span), R w (Settled w (· = none)) (report f span) fun _ => report f span
  graph : ∀ {w}, R w (Settled w (D.graph w)) graph fun _ => graph
  library : ∀ {w}, R w (Settled w fun _ => True) library fun _ => library
  currentScope : ∀ {w}, R w (Settled w (D.scope w)) currentScope fun _ => currentScope
  indented : ∀ {w} {α : Type} {Q : W → α → Prop} {m : Eval α} {m' : ι → Eval α}, R w Q m m' →
    R w Q (indented m) fun i => indented (m' i)
  binding : ∀ {w} {α : Type} {Q : W → α → Prop} {m : Eval α} {m' : ι → Eval α} (x : VarId) {v : Option Value},
    D.result w v → R w Q m m' → R w Q (binding x v m) fun i => binding x v (m' i)
  closure : ∀ {w x body}, D.expr (.lambda x body) → R w D.result (makeClosure x body) fun _ => makeClosure x body
  roaming : ∀ {o left right span}, D.expr (.op o left right span) → o.isJoin = true → Roaming @R

namespace Sustained

variable [Preorder W] {D : Domain.Growing W}
  {R : W → ∀ {α : Type}, (W → α → Prop) → Eval α → (ι → Eval α) → Prop} (h : Sustained D @R)
  {ev : Expr → Eval (Option Value)} {ev' : ι → Expr → Eval (Option Value)} {w : W}

include h

theorem readVar (x : VarId) : R w D.result (readVar x) fun _ => readVar x := by
  refine h.bind h.currentScope fun w' σ _ hσ => ?_
  obtain ⟨rfl, hσ⟩ := hσ
  cases hx : σ.lookup? x with
  | some v => exact h.pure (Domain.result_of_lookup? hσ hx)
  | none =>
    have hreport : R w' D.result (Eval.report (.unboundVariable x) none >>= Pure.pure) fun _ =>
        Eval.report (.unboundVariable x) none >>= Pure.pure :=
      h.bind (h.report _ _) fun _ _ _ hv => h.pure (hv.2 ▸ Domain.result_none)
    simpa only [bind_pure] using hreport

/-- There is one place, which every expression of the domain fits. -/
theorem situated (w : W) : @Situated Unit W ι _ D ⟨fun _ => D.expr, fun _ X => X⟩ fun _ => @R where
  closed := h.closed
  grow := h.grow
  expr he := he
  part he ha := (h.closed w).part he ha
  bound he ha := (h.closed w).part he ha
  body hv := (h.closed _).body hv
  pure := h.pure
  bind := h.bind
  note := h.note
  report span _ := h.report _ span
  graph := h.graph
  library := h.library
  readVar _ := h.readVar _
  routed _ hf := h.bind h.currentScope fun w' σ _ hσ => by
    obtain ⟨rfl, -⟩ := hσ
    exact hf σ
  indented := h.indented
  binding := h.binding
  closure := h.closure
  roaming := h.roaming

theorem node (hev : ∀ {w e}, D.expr e → R w D.result (ev e) fun i => ev' i e) {e : Expr} (he : D.expr e) :
    R w D.result (node ev e) fun i => node (ev' i) e :=
  (h.situated w).node (X := ()) (fun he => hev he) he

end Sustained

end Provenance.Eval
