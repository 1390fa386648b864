import Provenance.Proofs.Eval.Respect

/-!
# Evaluations that finish

An inert expression neither calls anything nor walks a path, so its evaluation
can run out of nothing but levels. With as many levels as it has it comes to an
outcome, in every session (`finishes_evaluateIn`).
-/

namespace Provenance

/-! ## Levels -/

namespace Expr

/-- The expression has no more levels than that. -/
def FitsIn : Nat → Expr → Prop
  | 0, _ => False
  | n + 1, e => ∀ x a, (x, a) ∈ e.parts → FitsIn n a

theorem FitsIn.mono : ∀ {n k : Nat} {e : Expr}, e.FitsIn n → n ≤ k → e.FitsIn k
  | _ + 1, _ + 1, _, h, hnk => fun x a ha => (h x a ha).mono (Nat.le_of_succ_le_succ hnk)

theorem fitsIn_val (v : Value) : (val v).FitsIn 1 := by
  intro x a ha
  cases ha

theorem fitsIn_binary {n : Nat} {o : Operator} {l r : Expr} (hl : l.FitsIn n) (hr : r.FitsIn n) :
    (binary o l r).FitsIn (n + 1) := by
  intro x a ha
  obtain ⟨-, rfl | heq⟩ := mem_parts_op.mp ha
  · exact hl
  · cases heq
    exact hr

end Expr

namespace Eval

open Provenance.Expr (Inert)

variable {α β : Type}

/-- The computation has an outcome whatever session it starts from. -/
def Finishes (m : Eval α) : Prop :=
  ∀ c s, ∃ a, (m c s).1 = .ok a

theorem Finishes.bind {m : Eval α} {f : α → Eval β} (hm : Finishes m) (hf : ∀ a, Finishes (f a)) :
    Finishes (m >>= f) := by
  intro c s
  obtain ⟨a, ha⟩ := hm c s
  rw [bind_of_ok (Prod.ext ha rfl : m c s = (.ok a, (m c s).2))]
  exact hf a c _

theorem finishes_report (f : Fault) (span : Option Span) : Finishes (report f span) :=
  fun _ _ => ⟨none, rfl⟩

theorem respected_finishes : Respected fun _ {_} m _ => Finishes m where
  pure a _ _ := ⟨a, rfl⟩
  bind := Finishes.bind
  note _ _ _ := ⟨(), rfl⟩
  report := finishes_report
  graph c _ := ⟨c.graph, rfl⟩
  library c _ := ⟨c.library, rfl⟩
  readVar _ := .bind (fun _ s => ⟨s.scope, rfl⟩) fun σ => by
    split
    · exact fun _ _ => ⟨_, rfl⟩
    · exact finishes_report _ _
  indented hm c _ := hm c _
  binding _ _ hm c _ := hm c _

theorem finishes_evaluateIn : ∀ {n : Nat} {e : Expr}, Inert e → e.FitsIn n → Finishes (evaluateIn n e)
  | n + 1, e, hi, hfits => by
    have hnode : Finishes (node (evaluateIn n) e) :=
      @Respected.node _ respected_finishes (fun _ => True) (evaluateIn n) (evaluateIn n) e
        (Expr.isDirect_of_isInert hi.self) (fun _ _ => trivial) fun x a ha => finishes_evaluateIn (hi.part ha) (hfits x a ha)
    exact fun c s => hnode c _

theorem exists_outcome_of_fitsIn {e : Expr} {c : Setting} {s : Session} (hi : Inert e)
    (hfits : e.FitsIn (c.limits.maxDepth - s.depth)) : ∃ v s', evaluate e c s = (.ok v, s') := by
  obtain ⟨v, hv⟩ := finishes_evaluateIn hi hfits c s
  exact ⟨v, _, Prod.ext hv rfl⟩

end Eval

end Provenance
