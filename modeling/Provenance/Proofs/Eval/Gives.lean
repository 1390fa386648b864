import Mathlib.Data.List.Forall2
import Mathlib.Data.List.ReduceOption
import Provenance.Proofs.Eval.Yields

/-!
# What a node yields

The outcome of a node is put together from the outcomes of its parts. `Gives`
says the same of expressions with a number of levels to go: the value of a node
comes from the values that its parts have one level down.
-/

namespace Provenance

@[simp] theorem Value.isTrue_ofBool (b : Bool) : (ofBool b).isTrue = b := by
  cases b <;> rfl

namespace Eval

open Provenance.Expr (Direct Inert inert_ref)

variable {q : Bool} {c : Setting} {σ : Scope (Option Value)} {ev : Expr → Eval (Option Value)}

/-! ## Operators -/

theorem yields_operandTruth {e : Expr} {b : Bool} (he : Steady (ev e)) :
    Yields q c σ (operandTruth ev (some e)) b ↔ ∃ v, Yields q c σ (ev e) v ∧ b = truth v := by
  rw [operandTruth, yields_bind he fun _ => respected_carriesOver.pure _]
  simp only [yields_pure]

def united (span : Option Span) : Option Value → Option Value → Eval (Option Value)
  | none, b => pure b
  | some a, none => pure (some a)
  | some a, some b => operate .union a b span

theorem unite_eq (ev : Expr → Eval (Option Value)) (l r : Expr) (span : Option Span) :
    unite ev l (some r) span = ev l >>= fun a => ev r >>= united span a := by
  unfold unite
  congr 1
  funext a
  congr 1
  funext b
  cases a <;> cases b <;> rfl

def whenSome (f : Value → Eval (Option Value)) : Option Value → Eval (Option Value)
  | none => pure none
  | some a => f a

theorem steady_whenSome {f : Value → Eval (Option Value)} (hf : ∀ a, Steady (f a)) (a : Option Value) :
    Steady (whenSome f a) := by
  cases a with
  | none => exact respected_carriesOver.pure _
  | some a => exact hf a

theorem yields_whenSome {m : Eval (Option Value)} {f : Value → Eval (Option Value)} {v : Option Value}
    (hm : Steady m) (hf : ∀ a, Steady (f a)) :
    Yields q c σ (m >>= whenSome f) v ↔
      Yields q c σ m none ∧ v = none ∨ ∃ a, Yields q c σ m (some a) ∧ Yields q c σ (f a) v := by
  rw [yields_bind hm (steady_whenSome hf)]
  constructor
  · intro h
    obtain ⟨a | a, ha, h⟩ := h
    · exact Or.inl ⟨ha, yields_pure.mp h⟩
    · exact Or.inr ⟨a, ha, h⟩
  · intro h
    rcases h with ⟨ha, rfl⟩ | ⟨a, ha, h⟩
    · exact ⟨none, ha, yields_pure.mpr rfl⟩
    · exact ⟨some a, ha, h⟩

theorem strict_unary_eq (ev : Expr → Eval (Option Value)) (o : Operator) (l : Expr) (span : Option Span) :
    strict ev o l none span = ev l >>= whenSome fun a => applyUnary o a span :=
  rfl

theorem strict_binary_eq (ev : Expr → Eval (Option Value)) (o : Operator) (l r : Expr) (span : Option Span) :
    strict ev o l (some r) span =
      ev l >>= whenSome fun a => ev r >>= whenSome fun b => applyBinary ev o a b span :=
  rfl

section
variable {l r : Expr} (hl : Steady (ev l)) {o : Operator} {span : Option Span} {v : Option Value}
include hl

theorem yields_strict_unary :
    Yields q c σ (strict ev o l none span) v ↔
      Yields q c σ (ev l) none ∧ v = none ∨
        ∃ a, Yields q c σ (ev l) (some a) ∧ Yields q c σ (applyUnary o a span) v := by
  rw [strict_unary_eq]
  exact yields_whenSome hl fun a => respected_carriesOver.applyUnary o a span

variable (hr : Steady (ev r))
include hr

theorem yields_connective {goOn : Bool} :
    Yields q c σ (connective ev goOn l (some r)) v ↔
      ∃ a, Yields q c σ (ev l) a ∧
        if truth a = goOn then ∃ b, Yields q c σ (ev r) b ∧ v = some (.ofBool (truth b))
        else v = some (.ofBool (truth a)) := by
  have hr' : Steady (operandTruth ev (some r)) := respected_carriesOver.operandTruth hr
  have hrest : ∀ a : Bool, Steady (if a = goOn then do
      let b ← operandTruth ev (some r)
      return some (.ofBool b)
    else pure (some (.ofBool a)) : Eval (Option Value)) := by
    intro a
    split
    · exact respected_carriesOver.bind hr' fun _ => respected_carriesOver.pure _
    · exact respected_carriesOver.pure _
  rw [connective, yields_bind (respected_carriesOver.operandTruth (e := some l) hl) hrest]
  simp only [yields_operandTruth hl]
  constructor
  · intro h
    obtain ⟨_, ⟨a, ha, rfl⟩, h⟩ := h
    refine ⟨a, ha, ?_⟩
    by_cases hgo : truth a = goOn
    · rw [if_pos hgo, yields_bind hr' fun _ => respected_carriesOver.pure _] at h
      obtain ⟨_, hb, h⟩ := h
      obtain ⟨b, hb', rfl⟩ := (yields_operandTruth hr).mp hb
      rw [if_pos hgo]
      exact ⟨b, hb', yields_pure.mp h⟩
    · rw [if_neg hgo] at h ⊢
      exact yields_pure.mp h
  · intro h
    obtain ⟨a, ha, h⟩ := h
    refine ⟨truth a, ⟨a, ha, rfl⟩, ?_⟩
    by_cases hgo : truth a = goOn
    · rw [if_pos hgo] at h
      obtain ⟨b, hb, rfl⟩ := h
      rw [if_pos hgo, yields_bind hr' fun _ => respected_carriesOver.pure _]
      exact ⟨truth b, (yields_operandTruth hr).mpr ⟨b, hb, rfl⟩, yields_pure.mpr rfl⟩
    · rw [if_neg hgo] at h ⊢
      exact yields_pure.mpr h

theorem yields_strict_binary (ho : o ≠ .call) :
    Yields q c σ (strict ev o l (some r) span) v ↔
      Yields q c σ (ev l) none ∧ v = none ∨
        ∃ a, Yields q c σ (ev l) (some a) ∧
          (Yields q c σ (ev r) none ∧ v = none ∨
            ∃ b, Yields q c σ (ev r) (some b) ∧ Yields q c σ (applyBinary ev o a b span) v) := by
  have happly : ∀ a b : Value, Steady (applyBinary ev o a b span) := fun a b =>
    respected_carriesOver.applyBinary ho a b span
  rw [strict_binary_eq, yields_whenSome hl fun a => respected_carriesOver.bind hr (steady_whenSome (happly a))]
  simp only [yields_whenSome hr (happly _)]

theorem yields_unite :
    Yields q c σ (unite ev l (some r) span) v ↔
      ∃ a b, Yields q c σ (ev l) a ∧ Yields q c σ (ev r) b ∧ Yields q c σ (united span a b) v := by
  have hboth : ∀ a b : Option Value, Steady (united span a b) := by
    intro a b
    cases a <;> cases b <;> first | exact respected_carriesOver.pure _ | exact respected_carriesOver.operate _ _ _ _
  rw [unite_eq, yields_bind hl fun a => respected_carriesOver.bind hr (hboth a)]
  simp only [yields_bind hr (hboth _)]
  exact ⟨fun ⟨a, ha, b, hb, h⟩ => ⟨a, b, ha, hb, h⟩, fun ⟨a, b, ha, hb, h⟩ => ⟨a, ha, b, hb, h⟩⟩

end

/-! ## Bindings -/

section
variable {x : Var} {guard body : Expr} (hg : Steady (ev guard)) (hb : Steady (ev body)) {v : Option Value}
include hg hb

theorem yields_guarded {a : Option Value} :
    Yields q c σ (guarded ev x guard body a) v ↔
      ∃ g, Yields q c (σ.push x.id a) (ev guard) g ∧
        if truth g then Yields q c (σ.push x.id a) (ev body) v else v = none := by
  have hbody : ∀ g : Option Value, Steady (if truth g then ev body else pure none) := by
    intro g
    split
    · exact hb
    · exact respected_carriesOver.pure _
  have hbind : Steady (ev guard >>= fun g => if truth g then ev body else pure none) :=
    respected_carriesOver.bind hg hbody
  rw [guarded, yields_note_bind (Steady.binding hbind _ _), yields_binding hbind, yields_bind hg hbody]
  refine exists_congr fun g => and_congr_right fun _ => ?_
  split
  · exact Iff.rfl
  · exact yields_pure

theorem yields_letBinding {bound : Expr} (ha : Steady (ev bound)) :
    Yields q c σ (letBinding ev x bound guard body) v ↔
      ∃ a, Yields q c σ (ev bound) a ∧ Yields q c σ (guarded ev x guard body a) v := by
  have hrest : ∀ a, Steady (guarded ev x guard body a) := fun a =>
    respected_carriesOver.guarded a (hg.mono fun _ _ => Or.inr trivial) (hb.mono fun _ _ => Or.inr trivial)
  have hnote : ∀ a, Steady (note (fun _ => "let " ++ x.text) >>= fun _ => indented (guarded ev x guard body a)) :=
    fun a => respected_carriesOver.bind (respected_carriesOver.note _) fun _ =>
      respected_carriesOver.indented (hrest a)
  rw [letBinding, yields_bind ha hnote]
  refine exists_congr fun a => and_congr_right fun _ => ?_
  rw [yields_note_bind (respected_carriesOver.indented (hrest a)), yields_indented (hrest a)]

end

/-! ## Conditions and tuples -/

theorem yields_condition {test : Expr} {yes no : Option Expr} (ht : Steady (ev test))
    (hy : ∀ a ∈ yes, Steady (ev a)) (hn : ∀ a ∈ no, Steady (ev a)) {v : Option Value} :
    Yields q c σ (condition ev test yes no) v ↔
      ∃ t, Yields q c σ (ev test) t ∧ Yields q c σ (orNothing ev (if t.all Value.isTrue then yes else no)) v := by
  have hbranch : ∀ t : Option Value, Steady (orNothing ev (if t.all Value.isTrue then yes else no)) := by
    intro t
    refine respected_carriesOver.orNothing ?_
    split
    · exact hy
    · exact hn
  have hnote : ∀ t : Option Value, Steady (note (fun _ => "if " ++ Value.shown t ++ " -> " ++
      if t.all Value.isTrue then "then" else "else") >>= fun _ =>
        orNothing ev (if t.all Value.isTrue then yes else no)) :=
    fun t => respected_carriesOver.bind (respected_carriesOver.note _) fun _ => hbranch t
  rw [condition, yields_bind ht hnote]
  exact exists_congr fun t => and_congr_right fun _ => yields_note_bind (hbranch t)

theorem yields_fieldValues : ∀ {es : List Expr}, (∀ e ∈ es, Steady (ev e)) → ∀ {vs : List Value},
    Yields q c σ (fieldValues ev (es.map some)) vs ↔
      ∃ rs : List (Option Value), List.Forall₂ (fun e r => Yields q c σ (ev e) r) es rs ∧ vs = rs.reduceOption
  | [], _, vs => by
    simp [fieldValues, yields_pure]
  | e :: es, h, vs => by
    have hes : ∀ a ∈ es, Steady (ev a) := fun a ha => h a (List.mem_cons_of_mem _ ha)
    have hrest : Steady (fieldValues ev (es.map some)) :=
      respected_carriesOver.fieldValues (respected_carriesOver.sameFields fun a ha => hes a (by simpa using ha))
    have hcons : ∀ v : Option Value, Steady (fieldValues ev (es.map some) >>= fun vs => pure (v.toList ++ vs)) :=
      fun v => respected_carriesOver.bind hrest fun _ => respected_carriesOver.pure _
    simp only [List.map_cons, fieldValues, orNothing]
    rw [yields_bind (h e List.mem_cons_self) hcons]
    simp only [yields_bind hrest fun _ => respected_carriesOver.pure _, yields_pure, yields_fieldValues hes]
    constructor
    · intro h
      obtain ⟨r, hr, _, ⟨rs, hrs, rfl⟩, rfl⟩ := h
      refine ⟨r :: rs, .cons hr hrs, ?_⟩
      cases r <;> rfl
    · intro h
      obtain ⟨_, h, rfl⟩ := h
      cases h with
      | @cons _ r _ rs hr hrs =>
        refine ⟨r, hr, _, ⟨rs, hrs, rfl⟩, ?_⟩
        cases r <;> rfl

/-! ## Nodes with levels to go -/

/-- With `n` levels to go the expression has the outcome in the scope. -/
abbrev Gives (q : Bool) (c : Setting) (σ : Scope (Option Value)) (n : Nat) (e : Expr) (v : Option Value) : Prop :=
  Yields q c σ (evaluateIn n e) v

variable {n : Nat} {v : Option Value}

theorem not_gives_zero {e : Expr} : ¬ Gives q c σ 0 e v := by
  intro h
  obtain ⟨s, s', -, h, -⟩ := h
  cases h

theorem Gives.exists_succ {e : Expr} (h : Gives q c σ n e v) : ∃ k, n = k + 1 := by
  cases n with
  | zero => exact absurd h not_gives_zero
  | succ k => exact ⟨k, rfl⟩

theorem steady_node {e : Expr} (h : Direct e) : Steady (node (evaluateIn n) e) :=
  respected_carriesOver.node h.self (fun _ _ => trivial) fun x a ha =>
    (Steady.evaluateIn (h.part ha)).mono fun y _ => by
      cases x with
      | none => trivial
      | some x => exact Or.inr trivial

theorem gives_succ {e : Expr} (h : Direct e) :
    Gives q c σ (n + 1) e v ↔ Yields q c σ (node (evaluateIn n) e) v := by
  simp only [Gives, evaluateIn, deeper]
  exact yields_between (steady_node h) (fun _ hs => hs) fun _ => ⟨rfl, rfl⟩

/-- The outcome stays with more levels, and where the free variables are bound alike. -/
theorem Gives.carry {e : Expr} {k : Nat} {τ : Scope (Option Value)} (h : Gives q c σ n e v) (he : Direct e)
    (hnk : n ≤ k) (hτ : ∀ x ∈ e.freeVars, σ.lookup? x = τ.lookup? x) : Gives q c τ k e v := by
  have hcarry : CarriesOver (· ∈ e.freeVars) (evaluateIn n e) (evaluateIn k e) :=
    evaluateIn_carriesOver hnk he fun _ hy => hy
  obtain ⟨t', ht, -, hq⟩ := Yields.run hcarry h (t := inScope τ) hτ
  exact ⟨_, t', rfl, ht, hq⟩

theorem Gives.mono {e : Expr} {k : Nat} (h : Gives q c σ n e v) (he : Direct e) (hnk : n ≤ k) : Gives q c σ k e v :=
  h.carry he hnk fun _ _ => rfl

theorem Gives.unique {e : Expr} {q' : Bool} {w : Option Value} (h : Gives q c σ n e v) (h' : Gives q' c σ n e w)
    (he : Direct e) : v = w :=
  Yields.unique (Steady.evaluateIn he) h h'

theorem Gives.unique_of_levels {e : Expr} {q' : Bool} {m : Nat} {w : Option Value} (h : Gives q c σ n e v)
    (h' : Gives q' c σ m e w) (he : Direct e) : v = w :=
  (h.mono he (Nat.le_max_left n m)).unique (h'.mono he (Nat.le_max_right n m)) he

theorem gives_val {a : Value} (h : Inert (.val a)) : Gives q c σ (n + 1) (.val a) v ↔ v = some a := by
  rw [gives_succ h, node, yields_pure]

theorem eq_of_gives_val {a : Value} (h : Inert (.val a)) (hv : Gives q c σ n (.val a) v) : v = some a := by
  obtain ⟨n, rfl⟩ := hv.exists_succ
  exact (gives_val h).mp hv

theorem gives_ref {x : VarId} {a : Option Value} (h : σ.lookup? x = some a) :
    Gives q c σ (n + 1) (.ref x) v ↔ v = a := by
  rw [gives_succ (inert_ref x)]
  exact yields_readVar h

theorem lookup?_of_gives {x : VarId} {w : Value} (h : Gives q c σ n (.ref x) (some w)) :
    σ.lookup? x = some (some w) := by
  obtain ⟨n, rfl⟩ := h.exists_succ
  exact lookup?_of_yields ((gives_succ (inert_ref x)).mp h)

section
variable {o : Operator} {l : Expr} {span : Option Span}

theorem gives_op {r : Option Expr} (h : Inert (.op o l r span)) :
    Gives q c σ (n + 1) (.op o l r span) v ↔ Yields q c σ (operation (evaluateIn n) o l r span) v := by
  have hop : Steady (operation (evaluateIn n) o l r span) := by
    refine respected_carriesOver.operation (Steady.evaluateIn h.left) (respected_carriesOver.orNothing fun a ha => ?_)
      span rfl fun _ _ => respected_carriesOver.applyBinary h.operator.1 _ _ span
    rw [Option.mem_def.mp ha] at h
    exact Steady.evaluateIn h.right
  rw [gives_succ h]
  simp only [node, h.operator.2]
  rw [if_neg Bool.false_ne_true, yields_bind_note hop]

def isStrict (o : Operator) : Bool :=
  o != .logAnd && o != .logOr && o != .union

/-- Whether it takes the values of two operands, and nothing else, to apply the operator. -/
def isComputed (o : Operator) : Bool :=
  o != .call && o != .lookup && o != .field

theorem applyBinary_of_isComputed (ev : Expr → Eval (Option Value)) (ho : isComputed o = true) (a b : Value)
    (span : Option Span) : applyBinary ev o a b span = operate o a b span := by
  cases o <;> first | rfl | cases ho

theorem operation_of_isStrict (ev : Expr → Eval (Option Value)) (ho : isStrict o = true) (r : Option Expr) :
    operation ev o l r span = strict ev o l r span := by
  cases o <;> first | rfl | cases ho

theorem gives_strict {r : Expr} {w : Value} (h : Inert (.op o l (some r) span)) (ho : isStrict o = true) :
    Gives q c σ (n + 1) (.op o l (some r) span) (some w) ↔
      ∃ a b, Gives q c σ n l (some a) ∧ Gives q c σ n r (some b) ∧
        Yields q c σ (applyBinary (evaluateIn n) o a b span) (some w) := by
  rw [gives_op h, operation_of_isStrict _ ho,
    yields_strict_binary (Steady.evaluateIn h.left) (Steady.evaluateIn h.right) h.operator.1]
  simp

/-- Either an operand has no value, and the whole has none, or the operator is applied to both. -/
theorem operands_of_gives {r : Expr} (h : Inert (.op o l (some r) span)) (ho : isStrict o = true)
    (hv : Gives q c σ n (.op o l (some r) span) v) :
    ∃ k, Gives q c σ k l none ∧ v = none ∨
      ∃ a, Gives q c σ k l (some a) ∧ (Gives q c σ k r none ∧ v = none ∨
        ∃ b, Gives q c σ k r (some b) ∧ Yields q c σ (applyBinary (evaluateIn k) o a b span) v) := by
  obtain ⟨k, rfl⟩ := hv.exists_succ
  rw [gives_op h, operation_of_isStrict _ ho,
    yields_strict_binary (Steady.evaluateIn h.left) (Steady.evaluateIn h.right) h.operator.1] at hv
  exact ⟨k, hv⟩

theorem gives_computed {r : Expr} {w : Value} (h : Inert (.op o l (some r) span)) (ho : isStrict o = true)
    (hc : isComputed o = true) :
    Gives q c σ (n + 1) (.op o l (some r) span) (some w) ↔
      ∃ a b, Gives q c σ n l (some a) ∧ Gives q c σ n r (some b) ∧
        Operate.binary c.library.engine o a b = .ok w := by
  rw [gives_strict h ho]
  simp only [applyBinary_of_isComputed _ hc, yields_operate, yields_orReport]

end

end Eval

end Provenance
