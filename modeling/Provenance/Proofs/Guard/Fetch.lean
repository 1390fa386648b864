import Provenance.Guard.Access
import Provenance.Proofs.Eval.Gives
import Provenance.Proofs.Value.ObjectLists

/-!
# Sources of objects

A source gives a list of objects. What is asked of it is that certain objects
are among them, and how these requirements go through an intersection and a
concatenation of sources.
-/

namespace Provenance.Guard

open Eval
open Provenance.Expr (Inert inert_val inert_binary)
open Members (ofObjects)

variable {c : Setting} {σ : Scope (Option Value)}

/-! ## Joining -/

/-- What is joined from a list is followed along the list. -/
theorem joined_induction {o : Operator} {P : List Expr → Expr → Prop} (hone : ∀ e, P [e] e)
    (hmore : ∀ es e a, P es e → P (es ++ [a]) (.binary o e a)) {es : List Expr} {e : Expr}
    (h : joined o es = some e) : P es e := by
  have hfold : ∀ (rest es : List Expr) (e : Expr), P es e → P (es ++ rest) (rest.foldl (Expr.binary o) e) := by
    intro rest
    induction rest with
    | nil => exact fun es e he => (List.append_nil es).symm ▸ he
    | cons a rest ih =>
      intro es e he
      rw [List.append_cons]
      exact ih _ _ (hmore es e a he)
  cases es with
  | nil => cases h
  | cons e₀ rest =>
    cases h
    exact hfold rest [e₀] e₀ (hone e₀)

theorem joined_closed {o : Operator} {P : Expr → Prop} (hop : ∀ {e e' : Expr}, P e → P e' → P (.binary o e e'))
    {es : List Expr} (hes : ∀ e ∈ es, P e) {e : Expr} (h : joined o es = some e) : P e := by
  refine joined_induction (P := fun es e => (∀ a ∈ es, P a) → P e) (fun e hes => hes e List.mem_cons_self) ?_ h hes
  intro es e a ih hes
  exact hop (ih fun b hb => hes b (List.mem_append_left _ hb)) (hes a (List.mem_append_right _ List.mem_cons_self))

/-! ## Sources that find objects -/

/-- Whatever the expression gives is a list of objects, those of which `R` holds among them. -/
structure Fetches (c : Setting) (σ : Scope (Option Value)) (R : ObjectId → Prop) (e : Expr) : Prop where
  inert : Inert e
  gives : ∀ {q n v}, Gives q c σ n e v → ∃ ps, v = some (.listOf (ofObjects ps)) ∧ ∀ p, R p → p ∈ ps

section
variable {R R' S : ObjectId → Prop} {e e' : Expr}

theorem fetches_objects (ps : List ObjectId) (h : ∀ p, R p → p ∈ ps) :
    Fetches c σ R (.val (.listOf (ofObjects ps))) where
  inert := inert_val rfl
  gives hv := ⟨ps, eq_of_gives_val (inert_val rfl) hv, h⟩

theorem toOption_of_yields {q : Bool} {r : Except Fault Value} {span : Option Span} {v : Option Value}
    (h : Yields q c σ (orReport r span) v) : v = r.toOption := by
  cases r with
  | ok w => exact yields_pure.mp h
  | error f => exact (yields_report.mp h).2

theorem lookup_of_gives {q : Bool} {n : Nat} {kind : IndexKind} {key : Value} {v : Option Value}
    (hi : (Expr.val key).isInert = true) (h : Gives q c σ n (lookupIn kind (.val key)) v) :
    v = (c.graph.lookup kind key).toOption := by
  have hin : Inert (lookupIn kind (.val key)) := inert_binary rfl (inert_val rfl) (inert_val hi)
  obtain ⟨k, ⟨ha, -⟩ | ⟨a, ha, ⟨hb, -⟩ | ⟨b, hb, h⟩⟩⟩ := operands_of_gives hin rfl h
  · cases eq_of_gives_val (inert_val rfl) ha
  · cases eq_of_gives_val (inert_val hi) hb
  · cases eq_of_gives_val (inert_val rfl) ha
    cases eq_of_gives_val (inert_val hi) hb
    change Yields q c σ (graph >>= fun g => orReport ((g.lookup kind key).mapError .badKey) none) v at h
    rw [yields_bind respected_carriesOver.graph fun _ => respected_carriesOver.orReport _ _] at h
    obtain ⟨g, hg, h⟩ := h
    rw [toOption_of_yields h, yields_graph.mp hg]
    cases c.graph.lookup kind key <;> rfl

theorem fetches_lookupIn {kind : IndexKind} {key : Value} {ps : List ObjectId} (hi : (Expr.val key).isInert = true)
    (hk : c.graph.lookup kind key = .ok (Tagged.ofObjects ps).value) (h : ∀ p, R p → .object p ∈ ofObjects ps) :
    Fetches c σ R (lookupIn kind (.val key)) where
  inert := inert_binary rfl (inert_val rfl) (inert_val hi)
  gives {q n v} hv := by
    rw [lookup_of_gives hi hv, hk, Tagged.ofObjects_eq, Tagged.value_of]
    exact ⟨ps, rfl, fun p hp => Members.mem_ofObjects.mp (h p hp)⟩

theorem fetches_binary {o : Operator} (ho : (Expr.binary o e e').isInert = true) (hs : isStrict o = true)
    (hc : isComputed o = true)
    (hop : ∀ ps qs : List ObjectId, (∀ p, R p → p ∈ ps) → (∀ p, R' p → p ∈ qs) →
      ∃ rs, Operate.binary c.library.engine o (.listOf (ofObjects ps)) (.listOf (ofObjects qs)) = .ok (.listOf (ofObjects rs)) ∧
        ∀ p, S p → p ∈ rs)
    (h : Fetches c σ R e) (h' : Fetches c σ R' e') : Fetches c σ S (.binary o e e') where
  inert := inert_binary ho h.inert h'.inert
  gives {q n v} hv := by
    obtain ⟨k, ⟨ha, -⟩ | ⟨a, ha, ⟨hb, -⟩ | ⟨b, hb, hv⟩⟩⟩ := operands_of_gives (inert_binary ho h.inert h'.inert) hs hv
    · obtain ⟨ps, hps, -⟩ := h.gives ha
      cases hps
    · obtain ⟨qs, hqs, -⟩ := h'.gives hb
      cases hqs
    · obtain ⟨ps, hps, hR⟩ := h.gives ha
      obtain ⟨qs, hqs, hR'⟩ := h'.gives hb
      cases hps
      cases hqs
      obtain ⟨rs, hrs, hS⟩ := hop ps qs hR hR'
      rw [applyBinary_of_isComputed _ hc, yields_operate, hrs] at hv
      exact ⟨rs, yields_pure.mp hv, hS⟩

theorem fetches_intersect (h : Fetches c σ R e) (h' : Fetches c σ R e') : Fetches c σ R (.binary .intersect e e') := by
  refine fetches_binary rfl rfl rfl (fun ps qs hp hq => ?_) h h'
  obtain ⟨rs, hrs, -, hmem⟩ := Members.intersect_ofObjects ps qs
  refine ⟨rs, ?_, fun p hR => (hmem p).mpr ⟨hp p hR, hq p hR⟩⟩
  exact congrArg Operate.orMixed hrs

theorem fetches_concat (h : Fetches c σ R e) (h' : Fetches c σ R' e') :
    Fetches c σ (fun p => R p ∨ R' p) (.binary .concat e e') := by
  refine fetches_binary rfl rfl rfl (fun ps qs hp hq => ⟨ps ++ qs, ?_, fun p hR => ?_⟩) h h'
  · exact congrArg Operate.orMixed (Members.concat_ofObjects ps qs)
  · exact List.mem_append.mpr (hR.imp (hp p) (hq p))

theorem Fetches.mono (h : Fetches c σ R e) (hS : ∀ p, S p → R p) : Fetches c σ S e where
  inert := h.inert
  gives hv := by
    obtain ⟨ps, hps, hR⟩ := h.gives hv
    exact ⟨ps, hps, fun p hp => hR p (hS p hp)⟩

end

theorem fetches_joined_concat {α : Type} {R : α → ObjectId → Prop} {source : α → Expr} {as : List α}
    (h : ∀ a ∈ as, Fetches c σ (R a) (source a)) {e : Expr} (he : joined .concat (as.map source) = some e) :
    Fetches c σ (fun p => ∃ a ∈ as, R a p) e := by
  have hfold : ∀ (as : List α) (e₀ : Expr) (S : ObjectId → Prop), Fetches c σ S e₀ →
      (∀ a ∈ as, Fetches c σ (R a) (source a)) →
      Fetches c σ (fun p => S p ∨ ∃ a ∈ as, R a p) ((as.map source).foldl (Expr.binary .concat) e₀) := by
    intro as
    induction as with
    | nil => exact fun e₀ S h₀ _ => h₀.mono fun p hp => hp.resolve_right (by simp)
    | cons a as ih =>
      intro e₀ S h₀ h
      rw [List.map_cons, List.foldl_cons]
      refine (ih _ _ (fetches_concat h₀ (h a List.mem_cons_self)) fun b hb => h b (List.mem_cons_of_mem _ hb)).mono ?_
      intro p hp
      simpa [or_assoc] using hp
  cases as with
  | nil => cases he
  | cons a as =>
    cases he
    refine (hfold as _ _ (h a List.mem_cons_self) fun b hb => h b (List.mem_cons_of_mem _ hb)).mono fun p hp => ?_
    simpa using hp

end Provenance.Guard
