import Provenance.Proofs.Eval.Restores
import Provenance.Proofs.Eval.Upheld
import Provenance.Proofs.Prepare.Domains
import Provenance.Proofs.Value.Uniform

/-!
# Lists stay of one kind

`evaluateChecked` evaluates as `evaluate` does, but looks at every expression
that is evaluated on the way: it is aborted if a value that is not uniform is
bound there, or is what the expression yields. If the graph and the queries are
uniform, this never happens (`Query.inTurn_uniform`), not even after reports or
after a query that was aborted, and whether the queries are prepared or not.
-/

namespace Provenance

namespace Eval

open Domain (uniform closed_uniform)

/-! ## Checked evaluation -/

def checked (a : Abort) (m : Eval (Option Value)) : Eval (Option Value) :=
  fun c s =>
    if s.scope.all fun b => b.2.all Value.isUniform then
      match m c s with
      | (.ok v, s') => if v.all Value.isUniform then (.ok v, s') else (.error a, s')
      | (.error e, s') => (.error e, s')
    else (.error a, s)

def evaluateCheckedIn (a : Abort) : Nat → Expr → Eval (Option Value)
  | 0, _ => checked a tooDeep
  | n + 1, e => checked a (deeper (node (evaluateCheckedIn a n) e))

/-- Evaluation that is aborted for the given reason as soon as a value that is not uniform is bound or yielded. -/
def evaluateChecked (a : Abort) (e : Expr) : Eval (Option Value) :=
  fun c s => evaluateCheckedIn a (c.limits.maxDepth - s.depth) e c s

/-! ## Computations that keep to uniform values -/

/-- The second computation does as the first, which has an outcome as described and leaves the bindings. -/
structure Keeps {α : Type} (Q : α → Prop) (m m' : Eval α) (c : Setting) (s : Session) : Prop where
  same : m' c s = m c s
  holds : ∀ a, (m c s).1 = .ok a → Q a
  scope : (m c s).2.scope = s.scope

def KeepsUniform {α : Type} (Q : α → Prop) (m m' : Eval α) : Prop :=
  ∀ c s, uniform.graph c.graph → uniform.scope s.scope → Keeps Q m m' c s

variable {α β : Type} {Q : α → Prop} {P : β → Prop}

theorem KeepsUniform.of_same {m : Eval α} (hscope : ∀ c s, (m c s).2.scope = s.scope)
    (hQ : ∀ c s a, uniform.graph c.graph → uniform.scope s.scope → (m c s).1 = .ok a → Q a) : KeepsUniform Q m m :=
  fun c s hg hs => ⟨rfl, fun a => hQ c s a hg hs, hscope c s⟩

theorem KeepsUniform.of_scope {m : Eval α} (hscope : ∀ c s, (m c s).2.scope = s.scope) :
    KeepsUniform (fun _ => True) m m :=
  .of_same hscope fun _ _ _ _ _ _ => trivial

theorem KeepsUniform.pure {a : α} (h : Q a) : KeepsUniform Q (Pure.pure a) (Pure.pure a) := by
  refine .of_same (fun _ _ => rfl) fun _ _ b _ _ hb => ?_
  cases hb
  exact h

theorem KeepsUniform.bind {m m' : Eval α} {f f' : α → Eval β} (hm : KeepsUniform Q m m')
    (hf : ∀ a, Q a → KeepsUniform P (f a) (f' a)) : KeepsUniform P (m >>= f) (m' >>= f') := by
  intro c s hg hs
  obtain ⟨hsame, hholds, hscope⟩ := hm c s hg hs
  rcases hms : m c s with ⟨r, s₁⟩
  rw [hms] at hsame hholds hscope
  cases r with
  | error e =>
    refine ⟨?_, ?_, ?_⟩
    · rw [bind_of_abort hms, bind_of_abort hsame]
    · rw [bind_of_abort hms]
      exact fun _ hb => by cases hb
    · rw [bind_of_abort hms]
      exact hscope
  | ok a =>
    have hs₁ : uniform.scope s₁.scope := hscope ▸ hs
    obtain ⟨hsame', hholds', hscope'⟩ := hf a (hholds a rfl) c s₁ hg hs₁
    refine ⟨?_, ?_, ?_⟩
    · rw [bind_of_ok hms, bind_of_ok hsame, hsame']
    · rw [bind_of_ok hms]
      exact hholds'
    · rw [bind_of_ok hms]
      exact hscope'.trans hscope

theorem KeepsUniform.report (f : Fault) (span : Option Span) : KeepsUniform (· = none) (report f span) (report f span) := by
  refine .of_same (fun _ _ => rfl) fun _ _ a _ _ ha => ?_
  cases ha
  rfl

theorem KeepsUniform.indented {m m' : Eval α} (h : KeepsUniform Q m m') : KeepsUniform Q (indented m) (indented m') := by
  intro c s hg hs
  have hm := h c (enter s) hg hs
  refine ⟨?_, hm.holds, hm.scope⟩
  rw [Eval.indented, Eval.indented, between_apply, between_apply, hm.same]

theorem KeepsUniform.deeper {m m' : Eval α} (h : KeepsUniform Q m m') : KeepsUniform Q (deeper m) (deeper m') := by
  intro c s hg hs
  have hm := h c { s with depth := s.depth + 1 } hg hs
  refine ⟨?_, hm.holds, hm.scope⟩
  rw [Eval.deeper, Eval.deeper, between_apply, between_apply, hm.same]

theorem KeepsUniform.binding {m m' : Eval α} (x : VarId) {v : Option Value} (hv : uniform.result v)
    (h : KeepsUniform Q m m') : KeepsUniform Q (binding x v m) (binding x v m') := by
  intro c s hg hs
  have hm := h c { s with scope := s.scope.push x v } hg (Domain.scope_push hv hs)
  refine ⟨?_, hm.holds, ?_⟩
  · rw [Eval.binding, Eval.binding, between_apply, between_apply, hm.same]
  · rw [Eval.binding, between_apply, unbind_of_push hm.scope]

theorem upheld_keepsUniform : Upheld uniform @KeepsUniform where
  closed := closed_uniform
  closure _ h := h
  pure := .pure
  bind := .bind
  note _ := .of_scope fun _ _ => rfl
  report := .report
  graph := .of_same (fun _ _ => rfl) fun _ _ _ hg _ ha => by cases ha; exact hg
  library := .of_scope fun _ _ => rfl
  currentScope := .of_same (fun _ _ => rfl) fun _ _ _ _ hs ha => by cases ha; exact hs
  indented := .indented
  binding := .binding
  freshClosure _ := .of_scope fun _ _ => rfl
  walking _ _ := {
    isTracing := .of_scope fun _ _ => rfl
    enter := .of_scope fun _ _ => rfl
    leave := .of_scope fun _ _ => rfl
    countStep := .of_scope fun c s => by rw [countStep_snd]
    generations := .of_scope fun c s => by rw [generations_snd]
    unending := .of_scope fun _ _ => rfl }

/-! ## The check is passed -/

theorem all_isUniform_iff {v : Option Value} : v.all Value.isUniform = true ↔ uniform.result v := by
  cases v with
  | none => exact iff_of_true rfl Domain.result_none
  | some w => exact (Domain.result_some (D := uniform)).symm

theorem KeepsUniform.checked {m m' : Eval (Option Value)} (a : Abort) (h : KeepsUniform uniform.result m m') :
    KeepsUniform uniform.result m (checked a m') := by
  intro c s hg hs
  obtain ⟨hsame, hholds, hscope⟩ := h c s hg hs
  refine ⟨?_, hholds, hscope⟩
  have hbound : (s.scope.all fun b => b.2.all Value.isUniform) = true :=
    List.all_eq_true.mpr fun b hb => all_isUniform_iff.mpr (hs b hb)
  rw [Eval.checked, if_pos hbound, hsame]
  rcases hms : m c s with ⟨r, s'⟩
  cases r with
  | error e => rfl
  | ok v =>
    rw [hms] at hholds
    exact if_pos (all_isUniform_iff.mpr (hholds v rfl))

theorem keepsUniform_evaluateIn (a : Abort) : ∀ (n : Nat) (e : Expr), e.isUniform = true →
    KeepsUniform uniform.result (evaluateIn n e) (evaluateCheckedIn a n e)
  | 0, _, _ => .checked a (.of_same (fun _ _ => rfl) fun _ _ _ _ _ h => by cases h)
  | n + 1, _, he => .checked a (.deeper (upheld_keepsUniform.node (keepsUniform_evaluateIn a n) he))

end Eval

/-! ## Queries in turn -/

namespace Query

open Domain (uniform closed_uniform)

variable {c : Setting}

theorem inTurn_checked (a : Abort) (hg : uniform.graph c.graph) : ∀ {es : List Expr} {s : Session},
    (∀ e ∈ es, e.isUniform = true) → uniform.scope s.scope →
      inTurn (Eval.evaluateChecked a) c es s = inTurn Eval.evaluate c es s ∧
        ∀ r ∈ (inTurn Eval.evaluate c es s).1, ∀ v, r.1 = .ok (some v) → v.isUniform = true
  | [], _, _, _ => ⟨rfl, fun _ hr => absurd hr List.not_mem_nil⟩
  | e :: es, s, hes, hs => by
    obtain ⟨hsame, hholds, hscope⟩ :=
      Eval.keepsUniform_evaluateIn a (c.limits.maxDepth - s.depth) e (hes e List.mem_cons_self) c s hg hs
    have hevaluate : Eval.evaluateChecked a e c s = Eval.evaluate e c s := hsame
    have hnext : uniform.scope (Eval.evaluate e c s).2.scope := hscope ▸ hs
    obtain ⟨hrest, hvalues⟩ := inTurn_checked a hg (fun e' he' => hes e' (List.mem_cons_of_mem e he')) hnext
    refine ⟨?_, fun r hr v hv => ?_⟩
    · simp only [inTurn, hevaluate, hrest]
    · rcases List.mem_cons.mp hr with rfl | hr
      · exact Domain.result_some.mp (hholds _ hv)
      · exact hvalues r hr v hv

theorem composed_uniform : uniform.Composed where
  closed := closed_uniform
  node := Expr.isUniform_of_parts
  index _ := rfl

/-- What a session of uniform queries over a uniform graph binds and yields is uniform, and uniform queries are still
so when they are prepared. The decoder makes a list of values exactly if they share a tag with one another and with
what was declared: one that is uniform, as far as the values are. -/
theorem inTurn_uniform {es : List Expr} (trace : Bool) (hg : uniform.graph c.graph)
    (hes : ∀ e ∈ es, e.isUniform = true) :
    (∀ a, inTurn (Eval.evaluateChecked a) c es (.new trace) = inTurn Eval.evaluate c es (.new trace)) ∧
      (∀ r ∈ (inTurn Eval.evaluate c es (.new trace)).1, ∀ v, r.1 = .ok (some v) → v.isUniform = true) ∧
      (∀ o, ∀ e ∈ es, ∀ t ∈ (prepare o e).expr, t.isUniform = true) ∧
      ∀ declared vs, (∀ v ∈ vs, v.isUniform = true) →
        ((∃ l, Tagged.ofDeclared declared vs = .ok l) ↔
          ∃ t, (∀ v ∈ vs, v.tag = t) ∧ ∀ t' ∈ declared, t' = t) ∧
        ∀ l, Tagged.ofDeclared declared vs = .ok l → l.members = vs ∧ l.value.isUniform = true := by
  have hchecked := fun a => inTurn_checked a hg hes (s := .new trace) Domain.scope_nil
  refine ⟨fun a => (hchecked a).1, (hchecked .pathUnending).2, fun o e he => expr_prepare composed_uniform o (hes e he),
    fun declared vs hvs => ⟨?_, fun l hl => ⟨?_, ?_⟩⟩⟩
  · simp only [Tagged.ofDeclared_eq_ok_iff, exists_eq_left]
  · rw [(Tagged.ofDeclared_eq_ok_iff.mp hl).1, Tagged.members_of]
  · exact Tagged.isUniform_of_ofDeclared hl hvs

/-- The query `for x in (1, "ls", 2) do x`, which leaves the text out. -/
def mixedLoop : Expr :=
  .forIn ⟨0, "x"⟩ (.val (.tuple [.int 1, .str "ls", .int 2])) (.int 1) (.ref 0)

/-- The query `let y = [5] in - - - y`, which is aborted while `y` is bound. -/
def nestedMinus : Expr :=
  .letAlways ⟨1, "y"⟩ (.val (.listOf [.int 5])) (.unary .neg (.unary .neg (.unary .neg (.ref 1))))

/-- The query `["ls", "-l"] ++ (pnode 1).SIZE`. -/
def mixedConcat : Expr :=
  .binary .concat (.val (.listOf [.str "ls", .str "-l"])) (.field (.object 1) "SIZE")

def listedSizes : Setting :=
  ⟨⟨[(1, [("SIZE", .listOf [.int 5, .int 7])])], []⟩, ⟨4, none, 10⟩, .standard⟩

theorem inTurn_uniform_mixed :
    (inTurn (Eval.evaluateChecked .pathUnending) listedSizes
      [mixedLoop, nestedMinus, mixedConcat, .field (.object 1) "SIZE"] (.new false)).1 =
      [(.ok (some (.listOf [.int 1, .int 2])), [⟨.mixedList ⟨.int, .str⟩, none⟩]), (.error (.depthExceeded 4 4), []),
        (.ok none, [⟨.mixedList ⟨.str, .int⟩, none⟩]), (.ok (some (.listOf [.int 5, .int 7])), [])] := by
  have hg : uniform.graph listedSizes.graph := by
    intro o ho r hr
    rw [List.mem_singleton.mp ho] at hr
    rw [List.mem_singleton.mp hr]
    rfl
  have hes : ∀ e ∈ [mixedLoop, nestedMinus, mixedConcat, .field (.object 1) "SIZE"], e.isUniform = true := by decide
  rw [(inTurn_uniform false hg hes).1]
  rfl

end Query

end Provenance
