import Provenance.Proofs.Eval.Sustained

/-!
# Relations in a domain that stays as it is

`R Q m m'` is to say that two computations go along with each other and that an
outcome of the first satisfies `Q`. If such a relation is `Upheld` in a domain,
it relates the two evaluations of every node of the domain, with an outcome in
the domain, provided it relates those of the expressions of the domain that the
node asks for (`Upheld.node`).
-/

namespace Provenance.Eval

/-- The state of knowledge where there is nothing to learn. -/
inductive Timeless
  | now

instance : Preorder Timeless where
  le _ _ := True
  le_refl _ := trivial
  le_trans _ _ _ _ _ := trivial

/-- What the paths need besides. -/
structure Walking (R : ∀ {α : Type}, (α → Prop) → Eval α → Eval α → Prop) : Prop where
  isTracing : R (fun _ => True) isTracing isTracing
  enter : R (fun _ => True) (change enter) (change enter)
  leave : R (fun _ => True) (change leave) (change leave)
  countStep : R (fun _ => True) countStep countStep
  generations : R (fun _ => True) generations generations
  unending : ∀ {α : Type}, R (fun _ : α => True) unending unending

/-- Closures are made, and paths walked, only if the domain has expressions for that. -/
structure Upheld (D : Domain) (R : ∀ {α : Type}, (α → Prop) → Eval α → Eval α → Prop) : Prop where
  closed : D.Closed
  closure : ∀ {x body} id, D.expr (.lambda x body) → D.value (.lambda id x body)
  pure : ∀ {α : Type} {Q : α → Prop} {a : α}, Q a → R Q (pure a) (pure a)
  bind : ∀ {α β : Type} {Q : α → Prop} {P : β → Prop} {m m' : Eval α} {f f' : α → Eval β},
    R Q m m' → (∀ a, Q a → R P (f a) (f' a)) → R P (m >>= f) (m' >>= f')
  note : ∀ line : Unit → String, R (fun _ => True) (note line) (note line)
  report : ∀ (f : Fault) (span : Option Span), R (· = none) (report f span) (report f span)
  graph : R D.graph graph graph
  library : R (fun _ => True) library library
  currentScope : R D.scope currentScope currentScope
  indented : ∀ {α : Type} {Q : α → Prop} {m m' : Eval α}, R Q m m' → R Q (indented m) (indented m')
  binding : ∀ {α : Type} {Q : α → Prop} {m m' : Eval α} (x : VarId) {v : Option Value}, D.result v → R Q m m' →
    R Q (binding x v m) (binding x v m')
  freshClosure : ∀ {x body}, D.expr (.lambda x body) → R (fun _ => True) freshClosure freshClosure
  walking : ∀ {o left right span}, D.expr (.op o left right span) → o.isJoin = true → Walking @R

namespace Upheld

variable {D : Domain} {R : ∀ {α : Type}, (α → Prop) → Eval α → Eval α → Prop} (h : Upheld D @R)

include h

theorem mono {α : Type} {Q P : α → Prop} {m m' : Eval α} (hm : R Q m m') (hQP : ∀ a, Q a → P a) : R P m m' := by
  have hbind := h.bind hm fun a ha => h.pure (hQP a ha)
  rwa [bind_pure, bind_pure] at hbind

/-- There is but one computation to go along with. -/
theorem sustained : @Sustained Timeless Unit _ ⟨fun _ => D.value, D.expr⟩ fun _ _ Q m m' => R (Q .now) m (m' ()) where
  closed _ := h.closed
  grow _ hv := hv
  pure := h.pure
  bind hm hf := h.bind hm fun a ha => hf .now a le_rfl ha
  note line := h.mono (h.note line) fun _ _ => ⟨rfl, trivial⟩
  report f span := h.mono (h.report f span) fun _ hv => ⟨rfl, hv⟩
  graph := h.mono h.graph fun _ hg => ⟨rfl, hg⟩
  library := h.mono h.library fun _ _ => ⟨rfl, trivial⟩
  currentScope := h.mono h.currentScope fun _ hσ => ⟨rfl, hσ⟩
  indented := h.indented
  binding x _ hv hm := h.binding x hv hm
  closure he := h.bind (h.freshClosure he) fun id _ => h.pure (Domain.result_some.mpr (h.closure id he))
  roaming he hjoin :=
    have hw := h.walking he hjoin
    { isTracing := hw.isTracing
      enter := hw.enter
      leave := hw.leave
      countStep := hw.countStep
      generations := hw.generations
      unending := hw.unending }

theorem node {ev ev' : Expr → Eval (Option Value)} (hev : ∀ e, D.expr e → R D.result (ev e) (ev' e)) {e : Expr}
    (he : D.expr e) : R D.result (node ev e) (node ev' e) :=
  @Sustained.node Timeless Unit _ _ _ h.sustained ev (fun _ => ev') .now (fun he => hev _ he) e he

end Upheld

end Provenance.Eval
