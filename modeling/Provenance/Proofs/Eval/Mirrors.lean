import Provenance.Proofs.Eval.Ensures
import Provenance.Proofs.Eval.Restores
import Provenance.Proofs.Value.Domain

/-!
# Evaluations that mirror one another

A variable that is not bound is read as one that is bound to nothing. So
evaluation has the same outcome in two sessions in which each variable reads the
same, as long as as many closures were made and steps counted, whatever was
reported, noted or abandoned (`mirrors_evaluateIn`). `Mirrors` says this of two
computations, the first of which may do more that leaves no trace
(`Mirrors.bind_known` and `Mirrors.bind_still`).
-/

namespace Provenance

/-- What a variable reads as: nothing, if it is not bound. -/
def Scope.read (σ : Scope (Option Value)) (x : VarId) : Option Value :=
  (σ.lookup? x).join

@[simp] theorem Scope.read_push (σ : Scope (Option Value)) (x : VarId) (v : Option Value) : (σ.push x v).read x = v := by
  rw [read, lookup?_push, Option.join_some]

theorem Scope.read_push_of_ne (σ : Scope (Option Value)) {x y : VarId} (v : Option Value) (h : x ≠ y) :
    (σ.push x v).read y = σ.read y := by
  rw [read, lookup?_push_of_ne _ _ h, read]

/-- What is counted in a session, and whether it is traced. -/
def Session.counts (s : Session) : Nat × Nat × Bool :=
  (s.nextClosure, s.pathSteps, s.log.enabled)

theorem Session.counts_eq_iff {s t : Session} :
    s.counts = t.counts ↔
      s.nextClosure = t.nextClosure ∧ s.pathSteps = t.pathSteps ∧ s.log.enabled = t.log.enabled := by
  simp [counts]

/-- The variables in `X` read the same in both sessions, and the counts are the same. -/
structure Session.Near (X : VarId → Prop) (s t : Session) : Prop where
  reads : ∀ x, X x → s.scope.read x = t.scope.read x
  counts : s.counts = t.counts

open Provenance.Expr (Inert Within under)

theorem Session.Near.push {X : VarId → Prop} {x : VarId} {v : Option Value} {s t : Session} (h : s.Near X t) :
    Session.Near (under (some x) X) { s with scope := s.scope.push x v } { t with scope := t.scope.push x v } := by
  refine ⟨fun y hy => ?_, h.counts⟩
  by_cases hxy : x = y
  · subst hxy
    rw [Scope.read_push, Scope.read_push]
  · rw [Scope.read_push_of_ne _ _ hxy, Scope.read_push_of_ne _ _ hxy]
    exact h.reads y (hy.resolve_left hxy)

namespace Eval

variable {K K' : Scope (Option Value) → Prop} {X Y : VarId → Prop} {α β : Type}

/-- In a session with a scope in `K` the first computation has the outcome that the second has in every session
near it. -/
def Mirrors (K : Scope (Option Value) → Prop) (X : VarId → Prop) {α : Type} (m m' : Eval α) : Prop :=
  ∀ (c : Setting) (s t : Session) (a : α) (s' : Session), K s.scope → s.Near X t → m c s = (.ok a, s') →
    s'.scope = s.scope ∧ ∃ t', m' c t = (.ok a, t') ∧ t'.scope = t.scope ∧ s'.counts = t'.counts

/-- The computation leaves no trace, if it has an outcome. -/
def Still {α : Type} (m : Eval α) : Prop :=
  ∀ (c : Setting) (s : Session) (a : α) (s' : Session), m c s = (.ok a, s') →
    s'.scope = s.scope ∧ s'.counts = s.counts

/-- Every variable may be looked at. -/
abbrev Everything : VarId → Prop := fun _ => True

abbrev Anywhere : Scope (Option Value) → Prop := fun _ => True

theorem counts_unbind (s : Session) : (unbind s).counts = s.counts := by
  unfold unbind
  split <;> rfl

theorem counts_note (line : Unit → String) (s : Session) : Session.counts { s with log := s.log.step line } = s.counts := by
  simp [Session.counts]

theorem counts_enter (s : Session) : (enter s).counts = s.counts := by
  simp [Session.counts, enter]

theorem counts_leave (s : Session) : (leave s).counts = s.counts := by
  simp [Session.counts, leave]

/-! ## Sessions that are near one another -/

namespace Mirrors

theorem mono {m m' : Eval α} (h : Mirrors K X m m') (hK : ∀ σ, K' σ → K σ) (hX : ∀ x, X x → Y x) :
    Mirrors K' Y m m' :=
  fun c s t a s' hs hst hm => h c s t a s' (hK _ hs) ⟨fun x hx => hst.reads x (hX x hx), hst.counts⟩ hm

theorem of_never {m m' : Eval α} (h : ∀ c s a s', m c s ≠ (.ok a, s')) : Mirrors K X m m' :=
  fun c s _ a s' _ _ hm => absurd hm (h c s a s')

theorem trans {m₁ m₂ m₃ : Eval α} (h : Mirrors K Y m₁ m₂) (h' : Mirrors K X m₂ m₃) : Mirrors K X m₁ m₃ := by
  intro c s t a s' hs hst hm
  obtain ⟨hscope, u, hu, -, hcounts⟩ := h c s s a s' hs ⟨fun _ _ => rfl, rfl⟩ hm
  obtain ⟨-, t', ht, htscope, hcounts'⟩ := h' c s t a u hs hst hu
  exact ⟨hscope, t', ht, htscope, hcounts.trans hcounts'⟩

theorem pure (a : α) : Mirrors K X (pure a) (pure a) := by
  intro c s t b s' _ hst hm
  cases hm
  exact ⟨rfl, t, rfl, rfl, hst.counts⟩

theorem bind {m m' : Eval α} {f f' : α → Eval β} (hm : Mirrors K X m m') (hf : ∀ a, Mirrors K X (f a) (f' a)) :
    Mirrors K X (m >>= f) (m' >>= f') := by
  intro c s t b s₂ hs hst h
  obtain ⟨a, s₁, hms, hfa⟩ := exists_of_bind_eq_ok h
  obtain ⟨hs₁, t₁, ht, ht₁, hcounts⟩ := hm c s t a s₁ hs hst hms
  obtain ⟨hs₂, t₂, ht', ht₂, hcounts'⟩ := hf a c s₁ t₁ b s₂ (hs₁ ▸ hs)
    ⟨fun x hx => by rw [hs₁, ht₁, hst.reads x hx], hcounts⟩ hfa
  exact ⟨hs₂.trans hs₁, t₂, by rw [bind_of_ok ht, ht'], ht₂.trans ht₁, hcounts'⟩

theorem between {m m' : Eval α} (before after before' after' : Session → Session) (hm : Mirrors K' Y m m')
    (hK : ∀ s, K s.scope → K' (before s).scope) (hX : ∀ s t, s.Near X t → (before s).Near Y (before' t))
    (hscope : ∀ s s', s'.scope = (before s).scope → (after s').scope = s.scope)
    (hscope' : ∀ t t', t'.scope = (before' t).scope → (after' t').scope = t.scope)
    (hafter : ∀ s, (after s).counts = s.counts) (hafter' : ∀ s, (after' s).counts = s.counts) :
    Mirrors K X (between before after m) (between before' after' m') := by
  intro c s t a s₂ hs hst h
  obtain ⟨s₁, hms, rfl⟩ := exists_of_between_eq_ok h
  obtain ⟨hs₁, t₁, ht, ht₁, hcounts⟩ := hm c _ _ a s₁ (hK s hs) (hX s t hst) hms
  refine ⟨hscope s s₁ hs₁, after' t₁, ?_, hscope' t t₁ ht₁, ?_⟩
  · rw [between_apply, ht]
  · rw [hafter, hafter', hcounts]

end Mirrors

/-! ## What leaves no trace -/

theorem Still.bind {m : Eval α} {f : α → Eval β} (hm : Still m) (hf : ∀ a, Still (f a)) : Still (m >>= f) := by
  intro c s b s₂ h
  obtain ⟨a, s₁, hms, hfa⟩ := exists_of_bind_eq_ok h
  obtain ⟨hs₁, hcounts⟩ := hm c s a s₁ hms
  obtain ⟨hs₂, hcounts'⟩ := hf a c s₁ b s₂ hfa
  exact ⟨hs₂.trans hs₁, hcounts'.trans hcounts⟩

theorem Still.between {m : Eval α} {before after : Session → Session} (hm : Still m)
    (hbefore : ∀ s, (before s).counts = s.counts) (hafter : ∀ s, (after s).counts = s.counts)
    (hscope : ∀ s s', s'.scope = (before s).scope → (after s').scope = s.scope) : Still (between before after m) := by
  intro c s a s₂ h
  obtain ⟨s₁, hms, rfl⟩ := exists_of_between_eq_ok h
  obtain ⟨hs₁, hcounts⟩ := hm c _ a s₁ hms
  exact ⟨hscope s s₁ hs₁, by rw [hafter, hcounts, hbefore]⟩

theorem still_pure (a : α) : Still (pure a) := by
  intro c s b s' h
  cases h
  exact ⟨rfl, rfl⟩

theorem still_note (line : Unit → String) : Still (note line) := by
  intro c s a s' h
  cases h
  exact ⟨rfl, counts_note line s⟩

theorem still_report (f : Fault) (span : Option Span) : Still (report f span) := by
  refine (still_note _).bind fun _ => .bind (fun c s a s' h => ?_) fun _ => still_pure none
  cases h
  exact ⟨rfl, rfl⟩

theorem still_readVar (x : VarId) : Still (readVar x) := by
  refine .bind (fun c s a s' h => ?_) fun σ => ?_
  · cases h
    exact ⟨rfl, rfl⟩
  · split
    · exact still_pure _
    · exact still_report _ _

theorem respected_still : Respected fun _ _ m _ => Still m where
  pure := still_pure
  bind := Still.bind
  note := still_note
  report := still_report
  graph c s a s' h := by
    cases h
    exact ⟨rfl, rfl⟩
  library c s a s' h := by
    cases h
    exact ⟨rfl, rfl⟩
  readVar {_ x} _ := still_readVar x
  indented hm := hm.between counts_enter counts_leave fun _ _ h => h
  binding x v hm := hm.between (fun _ => rfl) counts_unbind fun s s' h => by rw [unbind_of_push h]

/-- An inert expression makes no closures and counts no steps. -/
theorem still_evaluateIn : ∀ {n : Nat} {e : Expr}, Inert e → Still (evaluateIn n e)
  | 0, _, _ => fun _ _ _ _ h => by cases h
  | n + 1, e, h => by
    have hnode : Still (node (evaluateIn n) e) :=
      @Respected.node _ respected_still Everything (evaluateIn n) (evaluateIn n) e (Expr.isDirect_of_isInert h.self)
        (fun _ _ => trivial)
        fun _ _ ha => still_evaluateIn (h.part ha)
    simp only [evaluateIn, deeper]
    exact hnode.between (fun _ => rfl) (fun _ => rfl) fun _ _ h => h

/-! ## The elementary computations -/

theorem Mirrors.of_still {m : Eval α} (a : Setting → α) (hm : Still m) (h : ∀ c s, ∃ s', m c s = (.ok (a c), s')) :
    Mirrors K X m m := by
  intro c s t b s' _ hst hms
  obtain ⟨s₁, hs₁⟩ := h c s
  obtain ⟨t', ht⟩ := h c t
  rw [hs₁] at hms
  cases hms
  exact ⟨(hm c s _ _ hs₁).1, t', ht, (hm c t _ _ ht).1, by rw [(hm c s _ _ hs₁).2, (hm c t _ _ ht).2, hst.counts]⟩

theorem mirrors_note (line : Unit → String) : Mirrors K X (note line) (note line) :=
  .of_still (fun _ => ()) (still_note line) fun _ _ => ⟨_, rfl⟩

theorem mirrors_report (f : Fault) (span : Option Span) : Mirrors K X (report f span) (report f span) :=
  .of_still (fun _ => none) (still_report f span) fun _ _ => ⟨_, rfl⟩

theorem mirrors_graph : Mirrors K X graph graph :=
  .of_still Setting.graph (respected_still.graph (X := Everything)) fun _ _ => ⟨_, rfl⟩

theorem mirrors_library : Mirrors K X library library :=
  .of_still Setting.library (respected_still.library (X := Everything)) fun _ _ => ⟨_, rfl⟩

theorem exists_of_readVar (x : VarId) (c : Setting) (s : Session) :
    ∃ s', readVar x c s = (.ok (s.scope.read x), s') := by
  cases hl : s.scope.lookup? x with
  | some v =>
    rw [readVar_of_bound hl, Scope.read, hl]
    exact ⟨s, rfl⟩
  | none =>
    rw [readVar_of_unbound hl, Scope.read, hl]
    exact ⟨_, rfl⟩

theorem mirrors_readVar {x : VarId} (hx : X x) : Mirrors K X (readVar x) (readVar x) := by
  intro c s t a s' _ hst hm
  obtain ⟨s₁, hs₁⟩ := exists_of_readVar x c s
  obtain ⟨t', ht⟩ := exists_of_readVar x c t
  obtain ⟨hscope, hcounts⟩ := still_readVar x c s a s' hm
  obtain ⟨htscope, htcounts⟩ := still_readVar x c t _ t' ht
  rw [hm] at hs₁
  cases hs₁
  exact ⟨hscope, t', hst.reads x hx ▸ ht, htscope, by rw [hcounts, htcounts, hst.counts]⟩

/-! ## Bindings and levels -/

section
variable {m m' : Eval α}

theorem Mirrors.binding {x : VarId} {v : Option Value} (hK : ∀ σ, K σ → K' (σ.push x v))
    (hm : Mirrors K' (under (some x) X) m m') : Mirrors K X (binding x v m) (binding x v m') :=
  hm.between _ unbind _ unbind (fun s hs => hK s.scope hs) (fun _ _ h => Session.Near.push h)
    (fun s s' h => by rw [unbind_of_push h]) (fun t t' h => by rw [unbind_of_push h]) counts_unbind counts_unbind

/-- A binding that the second computation does without, if it does not look at the variable. -/
theorem Mirrors.binding_left {x : VarId} {v : Option Value} (hK : ∀ σ, K σ → K' (σ.push x v)) (hY : ∀ y, Y y → X y ∧ x ≠ y)
    (hm : Mirrors K' Y m m') : Mirrors K X (Eval.binding x v m) m' := by
  refine hm.between _ unbind id id (fun s hs => hK s.scope hs) (fun s _ h => ⟨fun y hy => ?_, h.counts⟩)
    (fun s s' h => by rw [unbind_of_push h]) (fun _ _ h => h) counts_unbind fun _ => rfl
  rw [Scope.read_push_of_ne _ _ (hY y hy).2]
  exact h.reads y (hY y hy).1

theorem Mirrors.indented (hm : Mirrors K X m m') : Mirrors K X (indented m) (indented m') :=
  hm.between enter leave enter leave (fun _ h => h)
    (fun s t h => ⟨h.reads, by rw [counts_enter, counts_enter, h.counts]⟩) (fun _ _ h => h) (fun _ _ h => h) counts_leave
    counts_leave

theorem Mirrors.indented_left (hm : Mirrors K X m m') : Mirrors K X (Eval.indented m) m' :=
  hm.between enter leave id id (fun _ h => h) (fun s _ h => ⟨h.reads, (counts_enter s).trans h.counts⟩)
    (fun _ _ h => h) (fun _ _ h => h) counts_leave fun _ => rfl

theorem Mirrors.deeper_left (hm : Mirrors K X m m') : Mirrors K X (deeper m) m' :=
  hm.between _ _ id id (fun _ h => h) (fun _ _ h => ⟨h.reads, h.counts⟩) (fun _ _ h => h)
    (fun _ _ h => h) (fun _ => rfl) fun _ => rfl

theorem Mirrors.deeper_right (hm : Mirrors K X m m') : Mirrors K X m (deeper m') :=
  hm.between id id _ _ (fun _ h => h) (fun _ _ h => ⟨h.reads, h.counts⟩) (fun _ _ h => h)
    (fun _ _ h => h) (fun _ => rfl) fun _ => rfl

end

theorem respected_mirrors : Respected (Mirrors Anywhere) where
  pure := .pure
  bind := .bind
  note := mirrors_note
  report := mirrors_report
  graph := mirrors_graph
  library := mirrors_library
  readVar := mirrors_readVar
  indented := .indented
  binding _ _ := .binding fun _ _ => trivial

/-- The scopes in which the variable has no value, unless it is in `X`. -/
def Without (y : VarId) (X : VarId → Prop) (σ : Scope (Option Value)) : Prop :=
  X y ∨ σ.read y = none

theorem Without.push {y x : VarId} {σ : Scope (Option Value)} (h : Without y X σ) (v : Option Value) :
    Without y (under (some x) X) (σ.push x v) := by
  by_cases hxy : x = y
  · exact Or.inl (Or.inl hxy)
  · rw [Without, Scope.read_push_of_ne _ _ hxy]
    exact h.imp_left Or.inr

theorem respected_without (y : VarId) : Respected fun X => Mirrors (Without y X) Everything where
  pure := .pure
  bind := .bind
  note := mirrors_note
  report := mirrors_report
  graph := mirrors_graph
  library := mirrors_library
  readVar _ := mirrors_readVar trivial
  indented := .indented
  binding _ v hm := .binding (fun _ h => h.push v) (hm.mono (fun _ h => h) fun _ _ => Or.inr trivial)

/-! ## All of evaluation -/

section
variable {σ τ : Scope (Option Value)}

theorem standsForAll_ref (σ : Scope (Option Value)) (x : VarId) :
    Path.standsForAll σ (.ref x) = match σ.read x with | some .all => true | _ => false := by
  unfold Path.standsForAll Scope.read
  rcases σ.lookup? x with _ | _ | v
  · rfl
  · rfl
  · cases v <;> rfl

theorem standsForAll_congr : ∀ e : Expr, (e.Within fun x => σ.read x = τ.read x) →
    Path.standsForAll σ e = Path.standsForAll τ e
  | .ref x, h => by rw [standsForAll_ref, standsForAll_ref, h x (List.mem_singleton_self x)]
  | .op o l r span, h => by
    cases o with
    | extract =>
      cases r with
      | none =>
        simp only [Path.standsForAll]
        exact standsForAll_congr l (h.part Expr.left_mem_parts)
      | some r => simp only [Path.standsForAll]
    | _ => simp only [Path.standsForAll]
  | .val v, _ => by cases v <;> simp only [Path.standsForAll]
  | .forIn x source guard body, _ => by
    cases source with
    | val v => cases v <;> simp only [Path.standsForAll]
    | _ => simp only [Path.standsForAll]
  | .letIn _ _ _ _, _ | .cond _ _ _, _ | .tuple _, _ | .lambda _ _, _ => by simp only [Path.standsForAll]

/-- The direction of a path depends on what its ends read as, and an end has no variables but those of the path. -/
theorem route_congr {e : Expr} (h : e.Within fun x => σ.read x = τ.read x) : Path.route σ e = Path.route τ e := by
  have htest := Domain.test_side (D := ⟨fun _ => True, Within fun x => σ.read x = τ.read x⟩) Within.part e h
  have hend : ∀ o : Option Path.Segment, (∀ s ∈ o, s ∈ Path.Segment.ofPath e) →
      o.any (Path.Segment.standsForAll σ) = o.any (Path.Segment.standsForAll τ) := by
    intro o hmem
    cases o with
    | none => rfl
    | some s =>
      have hs := htest s (hmem s rfl)
      rw [Option.any_some, Option.any_some]
      unfold Path.Segment.standsForAll
      cases ht : s.test with
      | any => rfl
      | expr a =>
        rw [ht] at hs
        exact standsForAll_congr a hs
  have hdirection : Path.direction σ (Path.Segment.ofPath e) = Path.direction τ (Path.Segment.ofPath e) := by
    unfold Path.direction
    rw [hend _ fun _ => List.mem_of_getLast?, hend _ fun _ => List.mem_of_head?]
  simp only [Path.route, hdirection]

end

theorem mirrors_generations : Mirrors K X generations generations := by
  intro c s t n s' _ hst hm
  obtain ⟨-, hsteps, -⟩ := Session.counts_eq_iff.mp hst.counts
  unfold generations at hm ⊢
  rw [← hsteps]
  cases hlimit : c.limits.maxPathSteps with
  | none =>
    rw [hlimit] at hm
    cases hm
    exact ⟨rfl, t, rfl, rfl, hst.counts⟩
  | some m =>
    rw [hlimit] at hm
    cases hm
    exact ⟨rfl, t, rfl, rfl, hst.counts⟩

theorem mirrors_countStep : Mirrors K X countStep countStep := by
  intro c s t a s' _ hst hm
  obtain ⟨hclosures, hsteps, htracing⟩ := Session.counts_eq_iff.mp hst.counts
  have hs' : s' = { s with pathSteps := s.pathSteps + 1 } := by rw [← countStep_snd c s, hm]
  refine ⟨by rw [hs'], { t with pathSteps := t.pathSteps + 1 }, ?_, rfl, ?_⟩
  · unfold countStep at hm ⊢
    rw [← hsteps]
    cases hlimit : c.limits.maxPathSteps with
    | none => rfl
    | some n =>
      simp only [hlimit] at hm ⊢
      split at hm
      · cases hm
      · rw [if_neg ‹_›]
  · rw [hs', Session.counts_eq_iff]
    exact ⟨hclosures, congrArg (· + 1) hsteps, htracing⟩

theorem mirrors_freshClosure : Mirrors K X freshClosure freshClosure := by
  intro c s t a s' _ hst hm
  obtain ⟨hclosures, hsteps, htracing⟩ := Session.counts_eq_iff.mp hst.counts
  cases hm
  refine ⟨rfl, { t with nextClosure := t.nextClosure + 1 }, ?_, rfl, ?_⟩
  · rw [freshClosure, hclosures]
  · exact Session.counts_eq_iff.mpr ⟨congrArg (· + 1) hclosures, hsteps, htracing⟩

theorem mirrors_isTracing : Mirrors K X isTracing isTracing := by
  intro c s t a s' _ hst hm
  obtain ⟨-, -, htracing⟩ := Session.counts_eq_iff.mp hst.counts
  cases hm
  exact ⟨rfl, t, by rw [isTracing, htracing], rfl, hst.counts⟩

theorem congruence_mirrors : Congruence (Mirrors Anywhere Everything) where
  pure := .pure
  bind := .bind
  note := mirrors_note
  report := mirrors_report
  graph := mirrors_graph
  library := mirrors_library
  readVar _ := mirrors_readVar trivial
  routed e hf := by
    intro c s t a s' hs hst hm
    obtain ⟨hscope, t', ht', hrest⟩ := hf _ c s t a s' hs hst hm
    refine ⟨hscope, t', ?_, hrest⟩
    rwa [route_congr fun x _ => hst.reads x trivial] at ht'
  noteRoute := relates_noteRoute (Mirrors Anywhere Everything) (.pure ()) .bind mirrors_note mirrors_isTracing
  freshClosure := mirrors_freshClosure
  countStep := mirrors_countStep
  enter := .of_still (fun _ => ()) (fun c s a s' h => by cases h; exact ⟨rfl, counts_enter s⟩) fun _ _ => ⟨_, rfl⟩
  leave := .of_still (fun _ => ()) (fun c s a s' h => by cases h; exact ⟨rfl, counts_leave s⟩) fun _ _ => ⟨_, rfl⟩
  indented := .indented
  binding x v hm := .binding (fun _ _ => trivial) (hm.mono (fun _ h => h) fun _ _ => Or.inr trivial)
  deeper hm := hm.deeper_left.deeper_right

theorem mirrors_evaluateIn {n k : Nat} (hnk : n ≤ k) (e : Expr) :
    Mirrors K Everything (evaluateIn n e) (evaluateIn k e) := by
  obtain ⟨d, rfl⟩ := Nat.exists_eq_add_of_le hnk
  have hnever : ∀ {β : Type}, Mirrors Anywhere Everything (unending : Eval β) unending := fun {β} =>
    .of_never fun _ _ _ _ h => by cases h
  refine (congruence_mirrors.evaluateIn (fun e => .of_never fun c s a s' h => ?_) ?_ n e).mono (fun _ _ => trivial)
    fun _ h => h
  · cases h
  · intro ev ev' hev r live found
    exact congruence_mirrors.generationLoop hev r mirrors_generations hnever live found

/-- An inert expression need not be evaluated where more than its own variables read the same. -/
theorem mirrors_inert : ∀ {n k : Nat} {e : Expr} {X : VarId → Prop}, n ≤ k → Inert e → Within X e →
    Mirrors Anywhere X (evaluateIn n e) (evaluateIn k e)
  | 0, _, _, _, _, _, _ => .of_never fun _ _ _ _ h => by cases h
  | n + 1, 0, _, _, h, _, _ => by omega
  | n + 1, k + 1, e, X, h, hi, hX => by
    have hnode : Mirrors Anywhere X (node (evaluateIn n) e) (node (evaluateIn k) e) :=
      respected_mirrors.node (Expr.isDirect_of_isInert hi.self) hX fun x a ha =>
        mirrors_inert (by omega) (hi.part ha) (hX.part ha)
    simp only [evaluateIn]
    exact hnode.deeper_left.deeper_right

/-! ## Doing more on one side -/

namespace Mirrors

section
variable {m : Eval α} {f : α → Eval β} {m' : Eval β}

theorem bind_still (hm : Still m) (hf : ∀ a, Mirrors K X (f a) m') : Mirrors K X (m >>= f) m' := by
  intro c s t b s₂ hs hst h
  obtain ⟨a, s₁, hms, hfa⟩ := exists_of_bind_eq_ok h
  obtain ⟨hs₁, hcounts⟩ := hm c s a s₁ hms
  obtain ⟨hs₂, hrest⟩ := hf a c s₁ t b s₂ (hs₁ ▸ hs) ⟨fun x hx => hs₁ ▸ hst.reads x hx, hcounts.trans hst.counts⟩ hfa
  exact ⟨hs₂.trans hs₁, hrest⟩

/-- Where the outcome of the first step is known, the second computation need not take it. -/
theorem bind_known {a : α} (hm : Mirrors K Everything m (Pure.pure a)) (hf : Mirrors K X (f a) m') :
    Mirrors K X (m >>= f) m' := by
  intro c s t b s₂ hs hst h
  obtain ⟨a', s₁, hms, hfa⟩ := exists_of_bind_eq_ok h
  obtain ⟨hs₁, u, hu, -, hcounts⟩ := hm c s s a' s₁ hs ⟨fun _ _ => rfl, rfl⟩ hms
  cases hu
  obtain ⟨hs₂, hrest⟩ := hf c s₁ t b s₂ (hs₁ ▸ hs) ⟨fun x hx => hs₁ ▸ hst.reads x hx, hcounts.trans hst.counts⟩ hfa
  exact ⟨hs₂.trans hs₁, hrest⟩

theorem note_left {line : Unit → String} {f : Unit → Eval β} (hf : Mirrors K X (f ()) m') :
    Mirrors K X (note line >>= f) m' :=
  bind_still (still_note line) fun _ => hf

theorem bind_note_left {m m' : Eval α} {line : α → Unit → String} (hm : Mirrors K X m m') :
    Mirrors K X (m >>= fun r => note (line r) >>= fun _ => Pure.pure r) m' := by
  rw [← bind_pure m']
  exact hm.bind fun r => note_left (.pure r)

theorem bind_note_right {m m' : Eval α} {line : α → Unit → String} (hm : Mirrors K X m m') :
    Mirrors K X m (m' >>= fun r => note (line r) >>= fun _ => Pure.pure r) := by
  rw [← bind_pure m]
  refine hm.bind fun r c s t a s' _ hst h => ?_
  cases h
  exact ⟨rfl, _, rfl, rfl, by rw [counts_note, hst.counts]⟩

end

/-- A known outcome does not depend on what is read. -/
theorem known {m : Eval α} {a : α} (h : Mirrors K Y m (Pure.pure a)) : Mirrors K X m (Pure.pure a) :=
  h.trans (Mirrors.pure a)

end Mirrors

theorem mirrors_val_left {k : Nat} (v : Value) : Mirrors K X (evaluateIn k (.val v)) (pure (some v)) := by
  cases k with
  | zero => exact .of_never fun _ _ _ _ h => by cases h
  | succ k => exact (Mirrors.pure _).deeper_left

theorem Mirrors.of_val {k : Nat} {m : Eval (Option Value)} {v : Value} (h : Mirrors K X m (evaluateIn k (.val v))) :
    Mirrors K X m (Pure.pure (some v)) :=
  h.trans (mirrors_val_left v)

theorem Mirrors.lift {k : Nat} {m : Eval (Option Value)} {e : Option Expr}
    (h : Mirrors K Everything m (orNothing (evaluateIn k) e)) :
    Mirrors K Everything m (orNothing (evaluateIn (k + 1)) e) := by
  cases e with
  | none => exact h
  | some e => exact h.trans (mirrors_evaluateIn (Nat.le_succ k) e)

theorem mirrors_val_right {k : Nat} (v : Value) : Mirrors K X (pure (some v)) (evaluateIn (k + 1) (.val v)) :=
  (Mirrors.pure _).deeper_right

theorem mirrors_ref_left {k : Nat} {x : VarId} {v : Option Value} :
    Mirrors (fun σ => σ.read x = v) X (evaluateIn k (.ref x)) (pure v) := by
  cases k with
  | zero => exact .of_never fun _ _ _ _ h => by cases h
  | succ k =>
    refine Mirrors.deeper_left (m := readVar x) fun c s t a s' hs hst h => ?_
    obtain ⟨s₁, hs₁⟩ := exists_of_readVar x c s
    obtain ⟨hscope, hcounts⟩ := still_readVar x c s a s' h
    rw [h, hs] at hs₁
    cases hs₁
    exact ⟨hscope, t, rfl, rfl, hcounts.trans hst.counts⟩

end Eval

end Provenance
