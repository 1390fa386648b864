import Provenance.Path.Result
import Provenance.Proofs.Eval.Gives
import Provenance.Proofs.Eval.NoClosure

/-!
# Seeds and tests

The objects that a segment lets a walk start from (`Seeds`) and whether an
object passes it (`Passes`), where no closure is involved. Both depend on the
graph and the bindings alone.
-/

namespace Provenance.Path

open Eval
open Provenance.Expr (Direct Inert)

/-- No closure is involved in the test of the segment, given the bindings. -/
def Test.Plain (σ : Scope (Option Value)) : Test → Prop
  | .any => True
  | .expr e => Inert e ∧ NoneBound (· ∈ e.freeVars) σ

def objectsIn (g : Graph) : Option Value → List ObjectId
  | some (.object p) => [p]
  | some (.list _ members) => members.filterMap Value.object?
  | some .all => g.ids
  | _ => []

/-- A walk may start from the objects, each as often as it is listed. -/
def Seeds (c : Setting) (σ : Scope (Option Value)) : Test → List ObjectId → Prop
  | .any, ps => ps = c.graph.ids
  | .expr e, ps => ∃ n v, Gives false c σ n e v ∧ ps = objectsIn c.graph v

def Passes (c : Setting) (σ : Scope (Option Value)) (t : Test) (p : ObjectId) : Prop :=
  ∃ n, Yields false c σ (passes (evaluateIn n) p t) true

variable {c : Setting} {σ : Scope (Option Value)} {t : Test} {p : ObjectId} {n : Nat}

/-- The test makes no closure, calls none, and has none for its value. -/
def Test.Tame (c : Setting) (σ : Scope (Option Value)) : Test → Prop
  | .any => True
  | .expr e => Inert e ∧ ∀ n, Ensures c σ (evaluateIn n e) NoClosure

theorem Test.Plain.tame (hg : c.graph.NoClosures) (ht : t.Plain σ) : t.Tame c σ := by
  cases t with
  | any => trivial
  | expr e => exact ⟨ht.1, fun _ => ensures_noClosure hg ht.1 (fun _ h => h) ht.2⟩

/-! ## Seeds -/

theorem Seeds.unique {ps qs : List ObjectId} (ht : t.Tame c σ) (h : Seeds c σ t ps) (h' : Seeds c σ t qs) :
    ps = qs := by
  cases t with
  | any => exact h.trans h'.symm
  | expr e =>
    obtain ⟨n, v, hv, rfl⟩ := h
    obtain ⟨m, w, hw, rfl⟩ := h'
    rw [hv.unique_of_levels hw ht.1]

theorem ensures_objectsAmong : ∀ {members : List Value},
    Ensures c σ (objectsAmong members) (· = members.filterMap Value.object?)
  | [] => .pure rfl
  | v :: rest => by
    cases v with
    | object p =>
      refine ensures_objectsAmong.bind fun ps hps => .pure ?_
      rw [hps]
      rfl
    | _ => exact Ensures.report.bind fun _ _ => ensures_objectsAmong

theorem ensures_startObjects (ht : t.Tame c σ) :
    Ensures c σ (startObjects (evaluateIn n) t) (Seeds c σ t) := by
  cases t with
  | any => exact .graph_bind (.pure rfl)
  | expr e =>
    have hvalue : Ensures c σ (evaluateIn n e) fun v => Gives false c σ n e v ∧ NoClosure v := by
      intro s v s' hs h
      obtain ⟨hs', hv⟩ := Ensures.of_steady (Steady.evaluateIn ht.1) s v s' hs h
      exact ⟨hs', hv, (ht.2 n s v s' hs h).2⟩
    have hobjects : ∀ {v ps}, Gives false c σ n e v → ps = objectsIn c.graph v → Seeds c σ (.expr e) ps :=
      fun hv hps => ⟨n, _, hv, hps⟩
    refine hvalue.bind fun v ⟨hv, hno⟩ => ?_
    cases v with
    | none => exact .pure (hobjects hv rfl)
    | some v =>
      cases v with
      | object p => exact .pure (hobjects hv rfl)
      | list kind members => exact ensures_objectsAmong.mono fun ps hps => hobjects hv hps
      | all => exact .graph_bind (.pure (hobjects hv rfl))
      | lambda id x body => exact absurd rfl (hno _ rfl)
      | _ => exact Ensures.report.bind fun _ _ => .pure (hobjects hv rfl)

/-! ## Tests -/

theorem carriesOver_passes {k : Nat} (ht : t.Tame c σ) (hnk : n ≤ k) :
    CarriesOver (fun _ => True) (passes (evaluateIn n) p t) (passes (evaluateIn k) p t) := by
  have hvalue : ∀ {e : Expr}, Inert e → CarriesOver (fun _ => True) (evaluateIn n e) (evaluateIn k e) := fun he =>
    evaluateIn_carriesOver hnk he fun _ _ => trivial
  cases t with
  | any => exact respected_carriesOver.pure _
  | expr e =>
    have hadmits : CarriesOver (fun _ => True) (evaluateIn n e >>= fun r => pure (admits p r))
        (evaluateIn k e >>= fun r => pure (admits p r)) :=
      respected_carriesOver.bind (hvalue ht.1) fun _ => respected_carriesOver.pure _
    unfold passes
    split
    · exact respected_carriesOver.pure _
    · exact respected_carriesOver.pure _
    · rename_i x guard body heq
      cases heq
      split
      · have hguard : Inert guard := ht.1.part (x := some x.id) (by simp [Expr.parts])
        exact respected_carriesOver.bind (respected_carriesOver.binding _ _
          ((hvalue hguard).mono fun _ _ => Or.inr trivial)) fun _ => respected_carriesOver.pure _
      · exact hadmits
    · cases ‹Test.expr e = _›
      exact hadmits

theorem ensures_passes (ht : t.Tame c σ) :
    Ensures c σ (passes (evaluateIn n) p t) fun b => b = true ↔ Passes c σ t p := by
  refine (Ensures.of_steady (carriesOver_passes ht (Nat.le_refl n))).mono fun b hb => ⟨?_, ?_⟩
  · intro h
    subst h
    exact ⟨n, hb⟩
  · intro h
    obtain ⟨k, hk⟩ := h
    rcases Nat.le_total n k with hnk | hkn
    · exact hb.unique (carriesOver_passes ht hnk) hk
    · exact (hk.unique (carriesOver_passes ht hkn) hb).symm

theorem passes_any : Passes c σ .any p := ⟨0, yields_pure.mpr rfl⟩

theorem passes_all : Passes c σ (.expr (.val .all)) p := ⟨0, yields_pure.mpr rfl⟩

theorem yields_passes_loop {x : Var} {guard : Expr} {b : Bool} (hg : Direct guard) :
    Yields false c σ (passes (evaluateIn n) p (.expr (.forIn x (.val .all) guard (.ref x.id)))) b ↔
      ∃ v, Gives false c (σ.push x.id (some (.object p))) n guard v ∧ b = truth v := by
  have hsteady : Steady (evaluateIn n guard) := .evaluateIn hg
  have hx : (Expr.ref x.id).isVar x.id = true := beq_self_eq_true x.id
  rw [passes, if_pos hx, yields_bind (hsteady.binding _ _) fun _ => respected_carriesOver.pure _]
  simp only [yields_pure, yields_binding hsteady, Gives]

/-- An object passes a loop over all objects that returns its variable if the guard is true of it. -/
theorem passes_loop {x : Var} {guard : Expr} (hg : Direct guard) :
    Passes c σ (.expr (.forIn x (.val .all) guard (.ref x.id))) p ↔
      ∃ n v, Gives false c (σ.push x.id (some (.object p))) n guard v ∧ truth v = true := by
  refine exists_congr fun n => ?_
  simp only [yields_passes_loop hg, eq_comm]

section
variable {e : Expr} (hall : e ≠ .val .all)
  (hloop : ∀ x guard body, e = .forIn x (.val .all) guard body → body.isVar x.id = false)
include hall hloop

theorem passes_eq_admits (ev : Expr → Eval (Option Value)) :
    passes ev p (.expr e) = ev e >>= fun r => pure (admits p r) := by
  unfold passes
  split
  · cases ‹Test.expr e = .any›
  · cases ‹Test.expr e = _›
    exact absurd rfl hall
  · rename_i x guard body heq
    cases heq
    rw [if_neg (Bool.eq_false_iff.mp (hloop x guard body rfl))]
  · cases ‹Test.expr e = _›
    rfl

theorem passes_expr (he : Inert e) :
    Passes c σ (.expr e) p ↔ ∃ n v, Gives false c σ n e v ∧ admits p v = true := by
  refine exists_congr fun n => ?_
  rw [passes_eq_admits hall hloop, yields_bind (.evaluateIn he) fun _ => respected_carriesOver.pure _]
  simp only [yields_pure, eq_comm]

end

end Provenance.Path
