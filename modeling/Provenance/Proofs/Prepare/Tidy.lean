import Provenance.Proofs.Eval.Gives
import Provenance.Proofs.Value.Everywhere

/-!
# Expressions whose parts all have values

`Tidy Γ e`: every node has the parts that it asks for, its literals are plain,
its variables are among `Γ`, and no binding hides one that is in force. Where
`Γ` is bound to plain values, such an expression has a plain value or reports
something (`Tidy.hasPlain`), and then the value of a node comes from the values
of its parts (`computes_both` and so on).
-/

namespace Provenance.Prepare

open Eval
open Provenance.Expr (Inert under)

def joinsValues (o : Operator) : Bool :=
  !o.isUnary && !o.isJoin && isComputed o

inductive Tidy : (VarId → Prop) → Expr → Prop
  | val {Γ v} (h : v.isPlain = true) : Tidy Γ (.val v)
  | ref {Γ x} (h : Γ x) : Tidy Γ (.ref x)
  | unary {Γ o e span} (ho : o.isUnary = true) (he : Tidy Γ e) : Tidy Γ (.op o e none span)
  | binary {Γ o l r span} (ho : joinsValues o = true) (hl : Tidy Γ l) (hr : Tidy Γ r) : Tidy Γ (.op o l (some r) span)
  | cond {Γ test yes no} (ht : Tidy Γ test) (hy : Tidy Γ yes) (hn : Tidy Γ no) :
    Tidy Γ (.cond test (some yes) (some no))
  | tuple {Γ} {es : List Expr} (hne : es ≠ []) (h : ∀ e ∈ es, Tidy Γ e) : Tidy Γ (.tuple (es.map some))
  | letIn {Γ x bound g body} (hx : ¬ Γ x.id) (hb : Tidy Γ bound) (hg : g.isPlain = true) (htrue : g.isTrue = true)
    (hbody : Tidy (under (some x.id) Γ) body) : Tidy Γ (.letIn x bound (.val g) body)

variable {Γ : VarId → Prop}

theorem isInert_val {v : Value} (h : v.isPlain = true) : (Expr.val v).isInert = true := by
  cases v with
  | lambda id x body => simp [Value.isPlain, Value.everywhere, Value.tag] at h
  | _ => rfl

theorem Tidy.inert {e : Expr} (h : Tidy Γ e) : Inert e := by
  induction h with
  | val h => exact Expr.inert_val (isInert_val h)
  | ref h => exact Expr.inert_ref _
  | @unary Γ o e span ho he ih =>
    refine Expr.inert_unary ?_ ih
    cases o <;> first | rfl | cases ho
  | @binary Γ o l r span ho hl hr ihl ihr =>
    refine Expr.inert_binary ?_ ihl ihr
    cases o <;> first | rfl | cases ho
  | cond ht hy hn iht ihy ihn => exact Expr.inert_cond iht ihy ihn
  | tuple hne h ih => exact Expr.inert_tuple ih
  | letIn hx hb hg htrue hbody ihb ihbody =>
    exact Expr.inert_letIn ihb (Expr.inert_val (isInert_val hg)) ihbody

/-! ## Values of nodes -/

/-- Without a report the expression has the value. -/
abbrev Computes (c : Setting) (σ : Scope (Option Value)) (n : Nat) (e : Expr) (w : Value) : Prop :=
  Gives true c σ n e (some w)

def HasValue (c : Setting) (σ : Scope (Option Value)) (n : Nat) (e : Expr) : Prop :=
  ∀ v, Gives true c σ n e v → ∃ w, v = some w

def HasPlain (c : Setting) (σ : Scope (Option Value)) (n : Nat) (e : Expr) : Prop :=
  ∀ v, Gives true c σ n e v → ∃ w, v = some w ∧ w.isPlain = true

/-- What an operator makes of one operand; the markers leave it as it is. -/
def unaryOf (o : Operator) (a : Value) : Except Fault Value :=
  match o with
  | .optional | .repeats | .extract => .ok a
  | _ => Operate.unary o a

variable {c : Setting} {σ : Scope (Option Value)} {n : Nat} {v : Option Value} {o : Operator} {l r : Expr}
  {span : Option Span}

theorem yields_orReport_quiet {r : Except Fault Value} :
    Yields true c σ (orReport r span) v ↔ ∃ w, r = .ok w ∧ v = some w := by
  cases r with
  | ok w => simp [orReport, yields_pure]
  | error f => simp [orReport, yields_report]

theorem yields_operate_quiet {a b : Value} :
    Yields true c σ (operate o a b span) v ↔ ∃ w, Operate.binary c.library.engine o a b = .ok w ∧ v = some w := by
  rw [yields_operate, yields_orReport_quiet]

theorem gives_unary (h : Inert (.op o l none span)) (ho : o.isUnary = true) (hl : HasValue c σ n l) :
    Gives true c σ (n + 1) (.op o l none span) v ↔ ∃ a w, Computes c σ n l a ∧ unaryOf o a = .ok w ∧ v = some w := by
  have hs : isStrict o = true := by
    cases o <;> first | rfl | cases ho
  have happ : ∀ a, Yields true c σ (applyUnary o a span) v ↔ ∃ w, unaryOf o a = .ok w ∧ v = some w := by
    intro a
    cases o <;> simp [applyUnary, unaryOf, yields_pure, yields_orReport_quiet]
  rw [gives_op h, operation_of_isStrict _ hs, yields_strict_unary (Steady.evaluateIn h.left)]
  simp only [happ]
  constructor
  · intro h
    rcases h with ⟨hn, -⟩ | ⟨a, ha, w, hw, hv⟩
    · obtain ⟨w, hw⟩ := hl none hn
      cases hw
    · exact ⟨a, w, ha, hw, hv⟩
  · intro h
    obtain ⟨a, w, ha, hw, hv⟩ := h
    exact Or.inr ⟨a, ha, w, hw, hv⟩

theorem HasPlain.hasValue {e : Expr} (h : HasPlain c σ n e) : HasValue c σ n e := by
  intro v hv
  obtain ⟨w, hw, -⟩ := h v hv
  exact ⟨w, hw⟩

theorem HasPlain.isPlain {e : Expr} {a : Value} (h : HasPlain c σ n e) (ha : Computes c σ n e a) :
    a.isPlain = true := by
  obtain ⟨w, hw, hplain⟩ := h _ ha
  cases hw
  exact hplain

def needsBoth (o : Operator) : Bool :=
  joinsValues o && o != .logAnd && o != .logOr

/-- The operator is the connective that asks its right side when the left side is `goOn`. -/
def Connects (o : Operator) (goOn : Bool) : Prop :=
  o = .logAnd ∧ goOn = true ∨ o = .logOr ∧ goOn = false

theorem needsBoth_or {o : Operator} (h : joinsValues o = true) : needsBoth o = true ∨ ∃ goOn, Connects o goOn := by
  cases o <;> first | exact Or.inl h | exact Or.inr ⟨_, Or.inl ⟨rfl, rfl⟩⟩ | exact Or.inr ⟨_, Or.inr ⟨rfl, rfl⟩⟩

theorem joinsValues_of_needsBoth {o : Operator} (ho : needsBoth o = true) : joinsValues o = true := by
  cases o <;> first | rfl | cases ho

theorem Connects.joinsValues {goOn : Bool} (ho : Connects o goOn) : joinsValues o = true := by
  rcases ho with ⟨rfl, -⟩ | ⟨rfl, -⟩ <;> rfl

theorem gives_both (h : Inert (.op o l (some r) span)) (ho : needsBoth o = true) (hl : HasValue c σ n l)
    (hr : HasValue c σ n r) :
    Gives true c σ (n + 1) (.op o l (some r) span) v ↔
      ∃ a b w, Computes c σ n l a ∧ Computes c σ n r b ∧ Operate.binary c.library.engine o a b = .ok w ∧ v = some w := by
  have hnone : ∀ {e : Expr}, HasValue c σ n e → ¬ Gives true c σ n e none := by
    intro e he hn
    obtain ⟨w, hw⟩ := he none hn
    cases hw
  by_cases hu : o = .union
  · subst hu
    rw [gives_op h]
    refine (yields_unite (Steady.evaluateIn h.left) (Steady.evaluateIn h.right)).trans ?_
    constructor
    · intro h
      obtain ⟨a | a, b | b, ha, hb, hv⟩ := h
      · exact absurd ha (hnone hl)
      · exact absurd ha (hnone hl)
      · exact absurd hb (hnone hr)
      · obtain ⟨w, hw, hv⟩ := yields_operate_quiet.mp hv
        exact ⟨a, b, w, ha, hb, hw, hv⟩
    · intro h
      obtain ⟨a, b, w, ha, hb, hw, hv⟩ := h
      exact ⟨some a, some b, ha, hb, yields_operate_quiet.mpr ⟨w, hw, hv⟩⟩
  · have hs : isStrict o = true ∧ isComputed o = true := by
      cases o <;> first | exact ⟨rfl, rfl⟩ | exact absurd rfl hu | cases ho
    rw [gives_op h, operation_of_isStrict _ hs.1,
      yields_strict_binary (Steady.evaluateIn h.left) (Steady.evaluateIn h.right) h.operator.1]
    simp only [applyBinary_of_isComputed _ hs.2, yields_operate_quiet]
    constructor
    · intro h
      rcases h with ⟨ha, -⟩ | ⟨a, ha, ⟨hb, -⟩ | ⟨b, hb, w, hw, hv⟩⟩
      · exact absurd ha (hnone hl)
      · exact absurd hb (hnone hr)
      · exact ⟨a, b, w, ha, hb, hw, hv⟩
    · intro h
      obtain ⟨a, b, w, ha, hb, hw, hv⟩ := h
      exact Or.inr ⟨a, ha, Or.inr ⟨b, hb, w, hw, hv⟩⟩

theorem gives_connective (h : Inert (.op o l (some r) span)) {goOn : Bool} (ho : Connects o goOn)
    (hl : HasValue c σ n l) (hr : HasValue c σ n r) :
    Gives true c σ (n + 1) (.op o l (some r) span) v ↔
      ∃ a, Computes c σ n l a ∧
        if a.isTrue = goOn then ∃ b, Computes c σ n r b ∧ v = some (.ofBool b.isTrue)
        else v = some (.ofBool a.isTrue) := by
  have hop : operation (evaluateIn n) o l (some r) span = connective (evaluateIn n) goOn l (some r) := by
    rcases ho with ⟨rfl, rfl⟩ | ⟨rfl, rfl⟩ <;> rfl
  rw [gives_op h, hop, yields_connective (Steady.evaluateIn h.left) (Steady.evaluateIn h.right)]
  constructor
  · intro h
    obtain ⟨a, ha, hv⟩ := h
    obtain ⟨a, rfl⟩ := hl a ha
    refine ⟨a, ha, ?_⟩
    change if a.isTrue = goOn then _ else v = some (.ofBool a.isTrue) at hv
    by_cases hgo : a.isTrue = goOn
    · rw [if_pos hgo] at hv ⊢
      obtain ⟨b, hb, hv⟩ := hv
      obtain ⟨b, rfl⟩ := hr b hb
      exact ⟨b, hb, hv⟩
    · rwa [if_neg hgo] at hv ⊢
  · intro h
    obtain ⟨a, ha, hv⟩ := h
    refine ⟨some a, ha, ?_⟩
    change if a.isTrue = goOn then _ else v = some (.ofBool a.isTrue)
    by_cases hgo : a.isTrue = goOn
    · rw [if_pos hgo] at hv ⊢
      obtain ⟨b, hb, hv⟩ := hv
      exact ⟨some b, hb, hv⟩
    · rwa [if_neg hgo] at hv ⊢

theorem gives_cond {test yes no : Expr} (h : Inert (.cond test (some yes) (some no))) (ht : HasValue c σ n test) :
    Gives true c σ (n + 1) (.cond test (some yes) (some no)) v ↔
      ∃ t, Computes c σ n test t ∧ Gives true c σ n (if t.isTrue then yes else no) v := by
  have hpart : ∀ a, a = test ∨ a = yes ∨ a = no → Steady (evaluateIn n a) := fun a ha =>
    Steady.evaluateIn (h.part (x := none) (by simpa [Expr.parts] using ha))
  rw [gives_succ h, node, yields_condition (hpart test (Or.inl rfl))
    (fun a ha => by cases ha; exact hpart _ (Or.inr (Or.inl rfl)))
    (fun a ha => by cases ha; exact hpart _ (Or.inr (Or.inr rfl)))]
  have hbranch : ∀ t : Value, orNothing (evaluateIn n) (if (some t).all Value.isTrue then some yes else some no) =
      evaluateIn n (if t.isTrue then yes else no) := by
    intro t
    rw [Option.all_some]
    split <;> rfl
  constructor
  · intro h
    obtain ⟨t, ht', hv⟩ := h
    obtain ⟨t, rfl⟩ := ht t ht'
    rw [hbranch] at hv
    exact ⟨t, ht', hv⟩
  · intro h
    obtain ⟨t, ht', hv⟩ := h
    refine ⟨some t, ht', ?_⟩
    rw [hbranch]
    exact hv

theorem exists_values {es : List Expr} {rs : List (Option Value)} (hv : ∀ e ∈ es, HasValue c σ n e)
    (h : List.Forall₂ (fun e r => Gives true c σ n e r) es rs) :
    ∃ vs, rs = vs.map some ∧ List.Forall₂ (Computes c σ n) es vs := by
  induction h with
  | nil => exact ⟨[], rfl, .nil⟩
  | @cons e r es rs hr hrs ih =>
    obtain ⟨w, rfl⟩ := hv e List.mem_cons_self r hr
    obtain ⟨vs, rfl, hvs⟩ := ih fun a ha => hv a (List.mem_cons_of_mem _ ha)
    exact ⟨w :: vs, rfl, .cons hr hvs⟩

theorem exists_computes {es : List Expr} {vs : List Value} {w : Value} (h : List.Forall₂ (Computes c σ n) es vs)
    (hw : w ∈ vs) : ∃ e ∈ es, Computes c σ n e w := by
  induction h with
  | nil => cases hw
  | cons he _ ih =>
    rcases List.mem_cons.mp hw with rfl | hw
    · exact ⟨_, List.mem_cons_self, he⟩
    · obtain ⟨e, hmem, hwe⟩ := ih hw
      exact ⟨e, List.mem_cons_of_mem _ hmem, hwe⟩

theorem reduceOption_map_some (vs : List Value) : (vs.map some).reduceOption = vs := by
  simp [List.reduceOption]

theorem gives_tuple {es : List Expr} (h : ∀ e ∈ es, Inert e) (hv : ∀ e ∈ es, HasValue c σ n e) :
    Gives true c σ (n + 1) (.tuple (es.map some)) v ↔
      ∃ vs, List.Forall₂ (Computes c σ n) es vs ∧ v = tupleOf vs := by
  have hsteady : ∀ e ∈ es, Steady (evaluateIn n e) := fun e he => Steady.evaluateIn (h e he)
  have hfields : Steady (fieldValues (evaluateIn n) (es.map some)) :=
    respected_carriesOver.fieldValues (respected_carriesOver.sameFields fun a ha => hsteady a (by simpa using ha))
  rw [gives_succ (Expr.inert_tuple h), node, yields_bind hfields fun _ => respected_carriesOver.pure _]
  simp only [yields_fieldValues hsteady, yields_pure]
  constructor
  · intro h
    obtain ⟨_, ⟨rs, hrs, rfl⟩, rfl⟩ := h
    obtain ⟨vs, rfl, hvs⟩ := exists_values hv hrs
    exact ⟨vs, hvs, by rw [reduceOption_map_some]⟩
  · intro h
    obtain ⟨vs, hvs, rfl⟩ := h
    refine ⟨vs, ⟨vs.map some, List.forall₂_map_right_iff.mpr hvs, ?_⟩, rfl⟩
    rw [reduceOption_map_some]

theorem gives_letIn {x : Var} {bound body : Expr} {g : Value} (h : Inert (.letIn x bound (.val g) body))
    (htrue : g.isTrue = true) (hb : HasValue c σ n bound) :
    Gives true c σ (n + 1) (.letIn x bound (.val g) body) v ↔
      ∃ a, Computes c σ n bound a ∧ Gives true c (σ.push x.id (some a)) n body v := by
  have hbound : Inert bound := h.part (x := none) (by simp [Expr.parts])
  have hguard : Inert (.val g) := h.part (x := some x.id) (by simp [Expr.parts])
  have hbody : Inert body := h.part (x := some x.id) (by simp [Expr.parts])
  rw [gives_succ h, node, yields_letBinding (Steady.evaluateIn hguard) (Steady.evaluateIn hbody)
    (Steady.evaluateIn hbound)]
  simp only [yields_guarded (Steady.evaluateIn hguard.direct) (Steady.evaluateIn hbody.direct)]
  constructor
  · intro h
    obtain ⟨a, ha, u, hu, hv⟩ := h
    obtain ⟨a, rfl⟩ := hb a ha
    cases eq_of_gives_val hguard hu
    rw [if_pos (show truth (some g) = true from htrue)] at hv
    exact ⟨a, ha, hv⟩
  · intro h
    obtain ⟨a, ha, hv⟩ := h
    obtain ⟨n, rfl⟩ := ha.exists_succ
    refine ⟨some a, ha, some g, (gives_val hguard).mpr rfl, ?_⟩
    rw [if_pos (show truth (some g) = true from htrue)]
    exact hv

/-! ## Plain bindings -/

def OnPlain (Γ : VarId → Prop) (σ : Scope (Option Value)) : Prop :=
  ∀ x, Γ x → ∃ a, σ.lookup? x = some (some a) ∧ a.isPlain = true

theorem OnPlain.push {x : VarId} {a : Value} (h : OnPlain Γ σ) (ha : a.isPlain = true) :
    OnPlain (under (some x) Γ) (σ.push x (some a)) := by
  intro y hy
  by_cases hxy : x = y
  · subst hxy
    exact ⟨a, Scope.lookup?_push _ _ _, ha⟩
  · obtain ⟨b, hb, hplain⟩ := h y (hy.resolve_left hxy)
    exact ⟨b, by rw [Scope.lookup?_push_of_ne _ _ hxy, hb], hplain⟩

theorem isPlain_tupleOf {vs : List Value} (hne : vs ≠ []) (h : ∀ v ∈ vs, v.isPlain = true) :
    ∃ w, tupleOf vs = some w ∧ w.isPlain = true := by
  match vs with
  | [v] => exact ⟨v, rfl, h v List.mem_cons_self⟩
  | v :: v' :: rest => exact ⟨_, rfl, Value.isPlain_tuple.mpr h⟩

theorem isPlain_of_unaryOf {a w : Value} (ha : a.isPlain = true) (h : unaryOf o a = .ok w) : w.isPlain = true := by
  unfold unaryOf at h
  split at h
  case h_4 => exact Operate.isPlain_of_unary ha h
  all_goals
    cases h
    exact ha

/-- A tidy expression has a plain value or reports something. -/
theorem Tidy.hasPlain {e : Expr} (h : Tidy Γ e) {σ : Scope (Option Value)} {n : Nat} (hσ : OnPlain Γ σ) :
    HasPlain c σ n e := by
  intro v hv
  induction h generalizing σ n v with
  | val h =>
    obtain ⟨n, rfl⟩ := hv.exists_succ
    cases (gives_val (Expr.inert_val (isInert_val h))).mp hv
    exact ⟨_, rfl, h⟩
  | @ref Γ x h =>
    obtain ⟨n, rfl⟩ := hv.exists_succ
    obtain ⟨a, ha, hplain⟩ := hσ x h
    exact ⟨a, (gives_ref ha).mp hv, hplain⟩
  | unary ho he ih =>
    obtain ⟨n, rfl⟩ := hv.exists_succ
    have hp : HasPlain c σ n _ := fun v => ih hσ v
    obtain ⟨a, w, ha, hw, rfl⟩ := (gives_unary (Tidy.unary ho he).inert ho hp.hasValue).mp hv
    exact ⟨w, rfl, isPlain_of_unaryOf (hp.isPlain ha) hw⟩
  | @binary Γ o l r span ho hl hr ihl ihr =>
    obtain ⟨n, rfl⟩ := hv.exists_succ
    have hi : Inert (.op o l (some r) span) := (Tidy.binary ho hl hr).inert
    have hpl : HasPlain c σ n l := fun v => ihl hσ v
    have hpr : HasPlain c σ n r := fun v => ihr hσ v
    rcases needsBoth_or ho with hboth | ⟨goOn, hgo⟩
    · obtain ⟨a, b, w, ha, hb, hw, rfl⟩ := (gives_both hi hboth hpl.hasValue hpr.hasValue).mp hv
      exact ⟨w, rfl, Operate.isPlain_of_binary (hpl.isPlain ha) (hpr.isPlain hb) hw⟩
    · obtain ⟨a, ha, hv⟩ := (gives_connective hi hgo hpl.hasValue hpr.hasValue).mp hv
      split at hv
      · obtain ⟨b, -, rfl⟩ := hv
        exact ⟨_, rfl, Value.isPlain_ofBool _⟩
      · exact ⟨_, hv, Value.isPlain_ofBool _⟩
  | cond ht hy hn iht ihy ihn =>
    obtain ⟨n, rfl⟩ := hv.exists_succ
    have hp : HasPlain c σ n _ := fun v => iht hσ v
    obtain ⟨t, -, hv⟩ := (gives_cond (Tidy.cond ht hy hn).inert hp.hasValue).mp hv
    split at hv
    · exact ihy hσ _ hv
    · exact ihn hσ _ hv
  | @tuple Γ es hne h ih =>
    obtain ⟨n, rfl⟩ := hv.exists_succ
    have hp : ∀ e ∈ es, HasPlain c σ n e := fun e he v => ih e he hσ v
    obtain ⟨vs, hvs, rfl⟩ := (gives_tuple (fun e he => (h e he).inert) fun e he => (hp e he).hasValue).mp hv
    refine isPlain_tupleOf ?_ fun w hw => ?_
    · intro h
      subst h
      cases hvs
      exact hne rfl
    · obtain ⟨e, he, hwe⟩ := exists_computes hvs hw
      exact (hp e he).isPlain hwe
  | letIn hx hb hg htrue hbody ihb ihbody =>
    obtain ⟨n, rfl⟩ := hv.exists_succ
    have hp : HasPlain c σ n _ := fun v => ihb hσ v
    obtain ⟨a, ha, hv⟩ := (gives_letIn (Tidy.letIn hx hb hg htrue hbody).inert htrue hp.hasValue).mp hv
    exact ihbody (hσ.push (hp.isPlain ha)) _ hv

theorem Tidy.hasValue {e : Expr} (h : Tidy Γ e) (hσ : OnPlain Γ σ) : HasValue c σ n e :=
  (h.hasPlain hσ).hasValue

theorem Tidy.isPlain {e : Expr} (h : Tidy Γ e) (hσ : OnPlain Γ σ) {a : Value} (ha : Computes c σ n e a) :
    a.isPlain = true :=
  (h.hasPlain hσ).isPlain ha

/-! ## Values of tidy nodes -/

section
variable {w : Value} (hσ : OnPlain Γ σ)

theorem computes_val {a : Value} (h : a.isPlain = true) : Computes c σ (n + 1) (.val a) w ↔ w = a := by
  rw [Computes, gives_val (Expr.inert_val (isInert_val h)), Option.some.injEq]

include hσ

theorem computes_unary (h : Tidy Γ l) (ho : o.isUnary = true) :
    Computes c σ (n + 1) (.op o l none span) w ↔ ∃ a, Computes c σ n l a ∧ unaryOf o a = .ok w := by
  rw [Computes, gives_unary (Tidy.unary ho h).inert ho (h.hasValue hσ)]
  simp

theorem computes_cond {test yes no : Expr} (ht : Tidy Γ test) (hy : Tidy Γ yes) (hn : Tidy Γ no) :
    Computes c σ (n + 1) (.cond test (some yes) (some no)) w ↔
      ∃ t, Computes c σ n test t ∧ Computes c σ n (if t.isTrue then yes else no) w :=
  gives_cond (Tidy.cond ht hy hn).inert (ht.hasValue hσ)

theorem computes_tuple {es : List Expr} (h : ∀ e ∈ es, Tidy Γ e) :
    Computes c σ (n + 1) (.tuple (es.map some)) w ↔
      ∃ vs, List.Forall₂ (Computes c σ n) es vs ∧ tupleOf vs = some w := by
  rw [Computes, gives_tuple (fun e he => (h e he).inert) fun e he => (h e he).hasValue hσ]
  simp only [eq_comm]

theorem computes_letIn {x : Var} {bound body : Expr} {g : Value} (h : Tidy Γ (.letIn x bound (.val g) body))
    (hb : Tidy Γ bound) (htrue : g.isTrue = true) :
    Computes c σ (n + 1) (.letIn x bound (.val g) body) w ↔
      ∃ a, Computes c σ n bound a ∧ Computes c (σ.push x.id (some a)) n body w :=
  gives_letIn h.inert htrue (hb.hasValue hσ)

variable (hl : Tidy Γ l) (hr : Tidy Γ r)
include hl hr

theorem computes_both (ho : needsBoth o = true) :
    Computes c σ (n + 1) (.op o l (some r) span) w ↔
      ∃ a b, Computes c σ n l a ∧ Computes c σ n r b ∧ Operate.binary c.library.engine o a b = .ok w := by
  rw [Computes, gives_both (Tidy.binary (joinsValues_of_needsBoth ho) hl hr).inert ho (hl.hasValue hσ)
    (hr.hasValue hσ)]
  simp

theorem computes_connective {goOn : Bool} (ho : Connects o goOn) :
    Computes c σ (n + 1) (.op o l (some r) span) w ↔
      ∃ a, Computes c σ n l a ∧
        if a.isTrue = goOn then ∃ b, Computes c σ n r b ∧ w = .ofBool b.isTrue else w = .ofBool a.isTrue := by
  rw [Computes, gives_connective (Tidy.binary ho.joinsValues hl hr).inert ho (hl.hasValue hσ) (hr.hasValue hσ)]
  simp only [Option.some.injEq]

end

end Provenance.Prepare
