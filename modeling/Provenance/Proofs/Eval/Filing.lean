import Provenance.Proofs.Eval.Restores
import Provenance.Proofs.Eval.Sustained
import Provenance.Proofs.Value.Closures
import Provenance.Query

/-!
# The number of a closure tells which it is

`evaluateFiled` evaluates as `evaluate` does, but is given a registry and looks
at every expression that is evaluated on the way: it is aborted if a value is
bound there, or yielded, with a closure inside that is not among those made so
far, or if a closure is made with the number of an earlier one. For the registry
of all closures that a session makes this never happens (`Query.inTurn_filed`),
not even after a query that was aborted.
-/

namespace Provenance

namespace Eval

open Domain (filed closed_filed)

/-! ## Evaluation along a registry -/

/-- The closures inside the value are among those made so far. -/
def Known (T : Registry) (s : Session) (v : Option Value) : Prop :=
  filed.result (T.upTo s.nextClosure) v

/-- The value is a closure made of these, with a number that none made so far has. -/
def New (T : Registry) (s : Session) (x : Var) (body : Expr) (v : Option Value) : Prop :=
  ∃ id, v = some (.lambda id x body) ∧ ∀ p, (T.upTo s.nextClosure).Entry p → p.id ≠ id

open Classical in
noncomputable def watched (T : Registry) (a : Abort) (e : Expr) (m : Eval (Option Value)) : Eval (Option Value) :=
  fun c s =>
    if ∀ b ∈ s.scope, Known T s b.2 then
      match m c s with
      | (.ok v, s') =>
        if Known T s' v ∧ ∀ x body, e = .lambda x body → New T s x body v then (.ok v, s') else (.error a, s')
      | (.error e, s') => (.error e, s')
    else (.error a, s)

noncomputable def evaluateFiledIn (T : Registry) (a : Abort) : Nat → Expr → Eval (Option Value)
  | 0, e => watched T a e tooDeep
  | n + 1, e => watched T a e (deeper (node (evaluateFiledIn T a n) e))

/-- Evaluation that is aborted for the given reason as soon as it does not go along with the registry. -/
noncomputable def evaluateFiled (T : Registry) (a : Abort) (e : Expr) : Eval (Option Value) :=
  fun c s => evaluateFiledIn T a (c.limits.maxDepth - s.depth) e c s

/-! ## Computations that file what they make -/

/-- The registry lists what the session has made, and holds what it can get at. -/
structure Ready (R : Registry) (c : Setting) (s : Session) : Prop where
  size : R.size = s.nextClosure
  graph : filed.graph R c.graph
  scope : filed.scope R s.scope

/-- The computation makes the closures that `S` lists after those of `R`. Along a registry that goes on from `S`, if
it is not longer than there are numbers, the other computations do the same. -/
structure Files {α : Type} (Q : Registry → α → Prop) (m : Eval α) (m' : Registry × Abort → Eval α) (c : Setting)
    (s : Session) (R S : Registry) : Prop where
  le : R ≤ S
  size : S.size = (m c s).2.nextClosure
  holds : ∀ a, (m c s).1 = .ok a → Q S a
  scope : (m c s).2.scope = s.scope
  same : ∀ T a, S ≤ T → T.size ≤ UInt64.size → m' (T, a) c s = m c s

def Filing (R : Registry) {α : Type} (Q : Registry → α → Prop) (m : Eval α) (m' : Registry × Abort → Eval α) : Prop :=
  ∀ c s, Ready R c s → ∃ S, Files Q m m' c s R S

variable {α β : Type} {R S : Registry} {Q : Registry → α → Prop} {P : Registry → β → Prop} {c : Setting} {s : Session}

theorem Files.ready {m : Eval α} {m' : Registry × Abort → Eval α} (h : Files Q m m' c s R S) (hs : Ready R c s) :
    Ready S c (m c s).2 where
  size := h.size
  graph o ho r hr := (hs.graph o ho r hr).mono h.le
  scope b hb v hv := by
    rw [h.scope] at hb
    exact (hs.scope b hb v hv).mono h.le

theorem Filing.of_same {m : Eval α} (hscope : ∀ c s, (m c s).2.scope = s.scope)
    (hnext : ∀ c s, (m c s).2.nextClosure = s.nextClosure)
    (hQ : ∀ c s a, Ready R c s → (m c s).1 = .ok a → Q R a) : Filing R Q m fun _ => m := by
  intro c s hs
  exact ⟨R, le_rfl, hs.size.trans (hnext c s).symm, fun a => hQ c s a hs, hscope c s, fun _ _ _ _ => rfl⟩

theorem Filing.pure {a : α} (h : Q R a) : Filing R Q (Pure.pure a) fun _ => Pure.pure a := by
  refine .of_same (fun _ _ => rfl) (fun _ _ => rfl) fun _ _ b _ hb => ?_
  cases hb
  exact h

theorem Filing.bind {m : Eval α} {m' : Registry × Abort → Eval α} {f : α → Eval β} {f' : Registry × Abort → α → Eval β}
    (hm : Filing R Q m m') (hf : ∀ S a, R ≤ S → Q S a → Filing S P (f a) fun i => f' i a) :
    Filing R P (m >>= f) fun i => m' i >>= f' i := by
  intro c s hs
  obtain ⟨S, hfiles⟩ := hm c s hs
  have hready := hfiles.ready hs
  obtain ⟨hle, hsize, hholds, hscope, hsame⟩ := hfiles
  rcases hms : m c s with ⟨r, s₁⟩
  rw [hms] at hready hsize hholds hscope hsame
  cases r with
  | error e =>
    refine ⟨S, hle, ?_, ?_, ?_, fun T a hT hfew => ?_⟩
    · rwa [bind_of_abort hms]
    · rw [bind_of_abort hms]
      exact fun _ hb => by cases hb
    · rwa [bind_of_abort hms]
    · rw [bind_of_abort hms, bind_of_abort (hsame T a hT hfew)]
  | ok a =>
    obtain ⟨S', hle', hsize', hholds', hscope', hsame'⟩ := hf S a hle (hholds a rfl) c s₁ hready
    refine ⟨S', hle.trans hle', ?_, ?_, ?_, fun T a hT hfew => ?_⟩
    · rwa [bind_of_ok hms]
    · rwa [bind_of_ok hms]
    · rw [bind_of_ok hms]
      exact hscope'.trans hscope
    · rw [bind_of_ok hms, bind_of_ok (hsame T a (hle'.trans hT) hfew), hsame' T a hT hfew]

theorem Filing.indented {m : Eval α} {m' : Registry × Abort → Eval α} (h : Filing R Q m m') :
    Filing R Q (indented m) fun i => indented (m' i) := by
  intro c s hs
  obtain ⟨S, hm⟩ := h c (enter s) ⟨hs.size, hs.graph, hs.scope⟩
  refine ⟨S, hm.le, hm.size, hm.holds, hm.scope, fun T a hT hfew => ?_⟩
  rw [Eval.indented, Eval.indented, between_apply, between_apply, hm.same T a hT hfew]

theorem Filing.deeper {m : Eval α} {m' : Registry × Abort → Eval α} (h : Filing R Q m m') :
    Filing R Q (deeper m) fun i => deeper (m' i) := by
  intro c s hs
  obtain ⟨S, hm⟩ := h c { s with depth := s.depth + 1 } ⟨hs.size, hs.graph, hs.scope⟩
  refine ⟨S, hm.le, hm.size, hm.holds, hm.scope, fun T a hT hfew => ?_⟩
  rw [Eval.deeper, Eval.deeper, between_apply, between_apply, hm.same T a hT hfew]

theorem Filing.binding {m : Eval α} {m' : Registry × Abort → Eval α} (x : VarId) {v : Option Value}
    (hv : filed.result R v) (h : Filing R Q m m') : Filing R Q (binding x v m) fun i => binding x v (m' i) := by
  intro c s hs
  obtain ⟨S, hm⟩ := h c { s with scope := s.scope.push x v } ⟨hs.size, hs.graph, Domain.scope_push hv hs.scope⟩
  have hunbind := unbind_of_push hm.scope
  refine ⟨S, hm.le, ?_, hm.holds, ?_, fun T a hT hfew => ?_⟩
  · rw [Eval.binding, between_apply, hunbind]
    exact hm.size
  · rw [Eval.binding, between_apply, hunbind]
  · rw [Eval.binding, Eval.binding, between_apply, between_apply, hm.same T a hT hfew]

theorem filing_makeClosure {x : Var} {body : Expr} (h : (Expr.lambda x body).Native) :
    Filing R filed.result (makeClosure x body) fun _ => makeClosure x body := by
  intro c s hs
  have hbody : body.Native := h.part (Expr.mem_parts_lambda.mpr ⟨rfl, rfl⟩)
  refine ⟨R.file x body hbody, R.le_file hbody, ?_, fun v hv => ?_, rfl, fun _ _ _ _ => rfl⟩
  · rw [R.size_file, hs.size]
    rfl
  · have hnumber : some (.lambda (UInt64.ofNat R.size) x body) = v := by
      rw [hs.size]
      exact Except.ok.inj hv
    rw [← hnumber]
    exact Domain.result_some.mpr (R.file_holds hbody)

theorem sustained_filing : Sustained filed @Filing where
  closed := closed_filed
  grow hRS hv := hv.mono hRS
  pure := .pure
  bind := .bind
  note _ := .of_same (fun _ _ => rfl) (fun _ _ => rfl) fun _ _ _ _ _ => ⟨rfl, trivial⟩
  report _ _ := .of_same (fun _ _ => rfl) (fun _ _ => rfl) fun _ _ _ _ ha => ⟨rfl, (Except.ok.inj ha).symm⟩
  graph := .of_same (fun _ _ => rfl) (fun _ _ => rfl) fun _ _ _ hs ha => by cases ha; exact ⟨rfl, hs.graph⟩
  library := .of_same (fun _ _ => rfl) (fun _ _ => rfl) fun _ _ _ _ _ => ⟨rfl, trivial⟩
  currentScope := .of_same (fun _ _ => rfl) (fun _ _ => rfl) fun _ _ _ hs ha => by cases ha; exact ⟨rfl, hs.scope⟩
  indented := .indented
  binding := .binding
  closure := filing_makeClosure
  roaming _ _ :=
    { isTracing := .of_same (fun _ _ => rfl) (fun _ _ => rfl) fun _ _ _ _ _ => trivial
      enter := .of_same (fun _ _ => rfl) (fun _ _ => rfl) fun _ _ _ _ _ => trivial
      leave := .of_same (fun _ _ => rfl) (fun _ _ => rfl) fun _ _ _ _ _ => trivial
      countStep := .of_same (fun c s => by rw [countStep_snd]) (fun c s => by rw [countStep_snd])
        fun _ _ _ _ _ => trivial
      generations := .of_same (fun c s => by rw [generations_snd]) (fun c s => by rw [generations_snd])
        fun _ _ _ _ _ => trivial
      unending := .of_same (fun _ _ => rfl) (fun _ _ => rfl) fun _ _ _ _ _ => trivial }

/-! ## The check is passed -/

/-- Evaluated at a `Lambda` node, the computation has a new closure for its outcome. -/
def Makes (e : Expr) (m : Eval (Option Value)) : Prop :=
  ∀ x body, e = .lambda x body → ∀ c s v, (m c s).1 = .ok v →
    v = some (.lambda (UInt64.ofNat s.nextClosure) x body) ∧ s.nextClosure < (m c s).2.nextClosure

theorem makes_tooDeep (e : Expr) : Makes e tooDeep :=
  fun _ _ _ _ _ _ hv => by cases hv

theorem makes_node (ev : Expr → Eval (Option Value)) (e : Expr) : Makes e (deeper (node ev e)) := by
  rintro x body rfl c s v hv
  cases hv
  exact ⟨rfl, Nat.lt_succ_self _⟩

theorem Filing.watched {e : Expr} {m : Eval (Option Value)} {m' : Registry × Abort → Eval (Option Value)}
    (h : Filing R filed.result m m') (hmakes : Makes e m) :
    Filing R filed.result m fun i => watched i.1 i.2 e (m' i) := by
  intro c s hs
  obtain ⟨S, hle, hsize, hholds, hscope, hsame⟩ := h c s hs
  refine ⟨S, hle, hsize, hholds, hscope, fun T a hT hfew => ?_⟩
  have hbefore : T.upTo s.nextClosure = R := by
    rw [← hs.size]
    exact Registry.upTo_size (hle.trans hT)
  have hafter : T.upTo (m c s).2.nextClosure = S := by
    rw [← hsize]
    exact Registry.upTo_size hT
  have hbound : ∀ b ∈ s.scope, Known T s b.2 := fun b hb => by
    rw [Known, hbefore]
    exact hs.scope b hb
  rw [Eval.watched, if_pos hbound, hsame T a hT hfew]
  rcases hms : m c s with ⟨r, s'⟩
  cases r with
  | error e => rfl
  | ok v =>
    rw [hms] at hsize hholds hafter
    have hknown : Known T s' v := by
      rw [Known, hafter]
      exact hholds v rfl
    refine if_pos ⟨hknown, fun x body he => ?_⟩
    obtain ⟨hv, hlt⟩ := hmakes x body he c s v (congrArg Prod.fst hms)
    rw [hms] at hlt
    refine ⟨_, hv, fun p hp => ?_⟩
    rw [hbefore] at hp
    rw [← hs.size] at hlt ⊢
    have hTsize := Registry.size_le hT
    exact hp.id_ne (by omega)

theorem filing_evaluateIn : ∀ (n : Nat) {R : Registry} {e : Expr}, e.Native →
    Filing R filed.result (evaluateIn n e) fun i => evaluateFiledIn i.1 i.2 n e
  | 0, _, e, _ => .watched (.of_same (fun _ _ => rfl) (fun _ _ => rfl) fun _ _ _ _ h => by cases h) (makes_tooDeep e)
  | n + 1, _, e, he => .watched (.deeper (sustained_filing.node (filing_evaluateIn n) he)) (makes_node _ e)

end Eval

/-! ## Queries in turn -/

namespace Query

open Eval (Ready Known evaluateFiled)

variable {c : Setting}

theorem inTurn_ready : ∀ {es : List Expr} {s : Session} {R : Registry}, (∀ e ∈ es, e.Native) → Ready R c s →
    ∃ S, R ≤ S ∧ S.size = (inTurn Eval.evaluate c es s).2.nextClosure ∧
      (∀ r ∈ (inTurn Eval.evaluate c es s).1, ∀ v, r.1 = .ok (some v) → S.Holds v) ∧
      ∀ T a, S ≤ T → T.size ≤ UInt64.size → inTurn (evaluateFiled T a) c es s = inTurn Eval.evaluate c es s
  | [], _, R, _, hs => ⟨R, le_rfl, hs.size, fun _ hr => absurd hr List.not_mem_nil, fun _ _ _ _ => rfl⟩
  | e :: es, s, R, hes, hs => by
    obtain ⟨S, hfiles⟩ := Eval.filing_evaluateIn (c.limits.maxDepth - s.depth) (hes e List.mem_cons_self) c s hs
    have hready : Ready S c (Eval.evaluate e c s).2 := hfiles.ready hs
    obtain ⟨S', hle, hsize, hvalues, hrest⟩ := inTurn_ready (fun a ha => hes a (List.mem_cons_of_mem e ha)) hready
    refine ⟨S', hfiles.le.trans hle, hsize, fun r hr v hv => ?_, fun T a hT hfew => ?_⟩
    · rcases List.mem_cons.mp hr with rfl | hr
      · exact (Domain.result_some.mp (hfiles.holds _ hv)).mono hle
      · exact hvalues r hr v hv
    · have hevaluate : evaluateFiled T a e c s = Eval.evaluate e c s := hfiles.same T a (hle.trans hT) hfew
      simp only [inTurn, hevaluate, hrest T a hT hfew]

/-- If a session of queries makes no more closures than there are numbers, there is a registry of them along which
the evaluation goes; and of the values that it binds or yields on the way, at any two times, the numbers of the
closures inside tell which these are. -/
theorem inTurn_filed {es : List Expr} (trace : Bool) (hg : ∀ o ∈ c.graph.objects, ∀ r ∈ o.2, r.2.isClosureFree = true)
    (hes : ∀ e ∈ es, e.Native) (hfew : (inTurn Eval.evaluate c es (.new trace)).2.nextClosure ≤ UInt64.size) :
    ∃ R : Registry, R.size = (inTurn Eval.evaluate c es (.new trace)).2.nextClosure ∧
      (∀ a, inTurn (evaluateFiled R a) c es (.new trace) = inTurn Eval.evaluate c es (.new trace)) ∧
      (∀ r ∈ (inTurn Eval.evaluate c es (.new trace)).1, ∀ v, r.1 = .ok v →
        Known R (inTurn Eval.evaluate c es (.new trace)).2 v) ∧
      ∀ s t v w, Known R s (some v) → Known R t (some w) →
        Value.Distinguished v.closures w.closures ∧ (v.equals w = true → v.closures = w.closures) := by
  have hnew : Ready .empty c (.new trace) :=
    ⟨rfl, fun o ho r hr => Registry.holds_of_isClosureFree (hg o ho r hr), Domain.scope_nil⟩
  obtain ⟨R, -, hsize, hvalues, hsame⟩ := inTurn_ready hes hnew
  have hRsize : R.size ≤ UInt64.size := hsize ▸ hfew
  have hknown : ∀ {s v}, Known R s (some v) → R.Holds v := fun hv => (Domain.result_some.mp hv).mono (R.upTo_le _)
  refine ⟨R, hsize, fun a => hsame R a le_rfl hRsize, fun r hr v hv => ?_, fun s t v w hv hw => ?_⟩
  · rw [Known, ← hsize, Registry.upTo_size le_rfl]
    intro w hw
    exact hvalues r hr w (by rw [hv, Option.mem_def.mp hw])
  · have hid := (hknown hv).distinguished (hknown hw) hRsize
    exact ⟨hid, Value.closures_eq_of_equals hid⟩

def echo : Expr :=
  .lambda ⟨1, "y"⟩ (.ref 1)

/-- The query `for x in [1, 2] do y => y`. -/
def echoes : Expr :=
  .forIn ⟨0, "x"⟩ (.val (.listOf [.int 1, .int 2])) (.int 1) echo

/-- The query `let f = z => - - - - z in f 1`, which is aborted in the call. -/
def deepCall : Expr :=
  .letAlways ⟨2, "f"⟩ (.lambda ⟨3, "z"⟩ (.unary .neg (.unary .neg (.unary .neg (.unary .neg (.ref 3))))))
    (.call (.ref 2) (.int 1))

/-- The query `(let f = y => y in f == f, (y => y) == (y => y))`. -/
def copies : Expr :=
  .tupleOf [.letAlways ⟨4, "f"⟩ echo (.binary .eq (.ref 4) (.ref 4)), .binary .eq echo echo]

theorem inTurn_filed_copies : ∃ R : Registry, R.size = 7 ∧ ∀ a,
    (inTurn (evaluateFiled R a) ⟨⟨[], []⟩, ⟨5, none, 10⟩, .standard⟩ [echoes, deepCall, copies, echo] (.new false)).1 =
      [(.ok (some (.listOf [.lambda 0 ⟨1, "y"⟩ (.ref 1), .lambda 1 ⟨1, "y"⟩ (.ref 1)])), []),
        (.error (.depthExceeded 5 5), []), (.ok (some (.tuple [.int 1, .int 0])), []),
        (.ok (some (.lambda 6 ⟨1, "y"⟩ (.ref 1))), [])] := by
  have hes : ∀ e ∈ [echoes, deepCall, copies, echo], e.Native := by
    unfold Expr.Native
    decide
  obtain ⟨R, hsize, hsame, -⟩ := inTurn_filed (c := ⟨⟨[], []⟩, ⟨5, none, 10⟩, .standard⟩) false
    (fun _ ho => by cases ho) hes (by decide)
  refine ⟨R, hsize.trans rfl, fun a => ?_⟩
  rw [hsame a]
  rfl

end Query

end Provenance
