import Mathlib.Data.List.Permutation
import Provenance.Proofs.Eval.Gather
import Provenance.Proofs.Prepare.SimplifySound

/-!
# Simplifying keeps the value of loops

In a loop over a literal the guard and the body are replaced by expressions that
say the same of each value, so the loop keeps its value. A loop that comes down
to its source has listed it: where the source is a collection but no list, the
source takes the place of the list of its members
(`evaluate_simplify_loop`, `simplify_unlists_range`).
-/

namespace Provenance.Prepare

open Eval
open Provenance.Expr (under)

variable {c : Setting} {σ : Scope (Option Value)} {n : Nat} {x : Var} {guard body guard' body' : Expr} {source : Value}

/-! ## Arithmetic on one variable -/

def isNumeric (o : Operator) : Bool :=
  match o with
  | .add | .sub | .mul | .eq | .ne | .lt | .gt | .le | .ge | .logAnd | .logOr => true
  | _ => false

/-- Sums, differences, products, comparisons and connectives over whole numbers and one variable. -/
inductive Arithmetic (x : VarId) : Expr → Prop
  | int (i : Int64) : Arithmetic x (Expr.int i)
  | var : Arithmetic x (.ref x)
  | unary {o : Operator} {e : Expr} {span : Option Span} (ho : o = .neg ∨ o = .logNot) (he : Arithmetic x e) :
      Arithmetic x (.op o e none span)
  | binary {o : Operator} {l r : Expr} {span : Option Span} (ho : isNumeric o = true) (hl : Arithmetic x l)
      (hr : Arithmetic x r) : Arithmetic x (.op o l (some r) span)

/-- Inside a loop over a literal there is only the variable of the loop. -/
abbrev only (x : Var) : VarId → Prop :=
  under (some x.id) fun _ => False

theorem Arithmetic.tidy {e : Expr} (h : Arithmetic x.id e) : Tidy (only x) e := by
  induction h with
  | int i => exact tidy_int
  | var => exact .ref (Or.inl rfl)
  | unary ho _ ih =>
    refine .unary ?_ ih
    rcases ho with rfl | rfl <;> rfl
  | @binary o _ _ _ ho _ _ ihl ihr =>
    refine .binary ?_ ihl ihr
    cases o <;> first | rfl | cases ho

/-! ## What a loop does with one value -/

theorem onPlain_only {a : Value} (ha : a.isPlain = true) : OnPlain (only x) (σ.push x.id (some a)) :=
  OnPlain.push (fun _ h => h.elim) ha

theorem yields_guarded_replaced (hg : Replaces (only x) guard guard') (hbody : Replaces (only x) body body')
    (htg : Tidy (only x) guard) (htbody : Tidy (only x) body) {a : Value} (ha : a.isPlain = true) {r : Option Value}
    (h : Yields true c σ (guarded (evaluateIn n) x guard body (some a)) r) :
    Yields true c σ (guarded (evaluateIn n) x guard' body' (some a)) r := by
  have hσ : OnPlain (only x) (σ.push x.id (some a)) := onPlain_only ha
  obtain ⟨g, hgiven, hr⟩ := (yields_guarded (Steady.evaluateIn htg.inert) (Steady.evaluateIn htbody.inert)).mp h
  obtain ⟨g, rfl, -⟩ := htg.hasPlain hσ g hgiven
  refine (yields_guarded (Steady.evaluateIn hg.tidy.inert) (Steady.evaluateIn hbody.tidy.inert)).mpr
    ⟨some g, hg.computes hσ hgiven, ?_⟩
  by_cases htrue : truth (some g) = true
  · rw [if_pos htrue] at hr ⊢
    obtain ⟨w, rfl, -⟩ := htbody.hasPlain hσ r hr
    exact hbody.computes hσ hr
  · rwa [if_neg htrue] at hr ⊢

/-- Where the guard comes down to true and the body to the variable, the loop returns every value. -/
theorem eq_of_yields_guarded {u : Value} (hg : Replaces (only x) guard (.val u)) (hu : u.isTrue = true)
    (hbody : Replaces (only x) body (.ref x.id)) (htg : Tidy (only x) guard) (htbody : Tidy (only x) body) {a : Value}
    (ha : a.isPlain = true) {r : Option Value}
    (h : Yields true c σ (guarded (evaluateIn n) x guard body (some a)) r) : r = some a := by
  obtain ⟨g, hgiven, hr⟩ := (yields_guarded (Steady.evaluateIn hg.tidy.inert)
    (Steady.evaluateIn hbody.tidy.inert)).mp (yields_guarded_replaced hg hbody htg htbody ha h)
  cases eq_of_gives_val hg.tidy.inert hgiven
  rw [if_pos (show truth (some u) = true from hu)] at hr
  obtain ⟨m, rfl⟩ := Gives.exists_succ hr
  exact (gives_ref (Scope.lookup?_push _ _ _)).mp hr

/-! ## Loops over literals -/

section
variable {v : Option Value}

theorem gives_forIn (hplain : source.isPlain = true) (hg : Tidy (only x) guard) (hbody : Tidy (only x) body) :
    Gives true c σ (n + 1) (.forIn x (.val source) guard body) v ↔
      (∃ m, n = m + 1) ∧ Yields true c σ (overSource (fun a => guarded (evaluateIn n) x guard body (some a)) source) v := by
  have hsource : Expr.Inert (.val source) := Expr.inert_val (isInert_val hplain)
  rw [gives_succ (Expr.inert_forIn hsource hg.inert hbody.inert).direct, node,
    yields_forLoop (Steady.evaluateIn hsource) (Steady.evaluateIn hg.inert) (Steady.evaluateIn hbody.inert)]
  constructor
  · intro h
    rcases h with ⟨h, -⟩ | ⟨a, ha, h⟩
    · cases eq_of_gives_val hsource h
    · cases eq_of_gives_val hsource ha
      exact ⟨Gives.exists_succ ha, h⟩
  · rintro ⟨⟨m, rfl⟩, h⟩
    exact Or.inr ⟨source, (gives_val hsource).mpr rfl, h⟩

theorem gives_forIn_replaced (hplain : source.isPlain = true) (hg : Replaces (only x) guard guard')
    (hbody : Replaces (only x) body body') (htg : Tidy (only x) guard) (htbody : Tidy (only x) body)
    (h : Gives true c σ n (.forIn x (.val source) guard body) v) :
    Gives true c σ n (.forIn x (.val source) guard' body') v := by
  have hsteady : ∀ {g b : Expr}, Tidy (only x) g → Tidy (only x) b →
      ∀ a : Value, Steady (guarded (evaluateIn (n - 1)) x g b (some a)) := fun hg hb a =>
    respected_carriesOver.guarded _ ((Steady.evaluateIn hg.inert).mono fun _ _ => Or.inr trivial)
      ((Steady.evaluateIn hb.inert).mono fun _ _ => Or.inr trivial)
  obtain ⟨n, rfl⟩ := h.exists_succ
  obtain ⟨hn, h⟩ := (gives_forIn hplain htg htbody).mp h
  refine (gives_forIn hplain hg.tidy hbody.tidy).mpr ⟨hn, ?_⟩
  exact yields_overSource_mono (hsteady htg htbody) (hsteady hg.tidy hbody.tidy) hplain
    (fun a ha r => yields_guarded_replaced hg hbody htg htbody ha) h

/-- What a loop over a literal simplifies to has its value, or is the literal that the loop lists. -/
theorem gives_simplifyLoop {e' : Expr} (hplain : source.isPlain = true) (hg : Replaces (only x) guard guard')
    (hbody : Replaces (only x) body body') (htg : Tidy (only x) guard) (htbody : Tidy (only x) body)
    (h : Gives true c σ n (.forIn x (.val source) guard body) v)
    (he' : simplifyLoop x (some (.val source)) (some guard') (some body') = some e') :
    ∃ w, e'.Inert ∧ Gives true c σ n e' w ∧
      (w = v ∨ e' = .val source ∧ w = some source ∧ v = some (listed c.graph source)) := by
  have hsource : Expr.Inert (.val source) := Expr.inert_val (isInert_val hplain)
  simp only [simplifyLoop] at he'
  by_cases hfalse : guard'.isFalseLiteral = true
  · rw [if_pos hfalse] at he'
    cases he'
  rw [if_neg hfalse] at he'
  by_cases hsame : (body'.isVar x.id && guard'.isTrueLiteral) = true
  · rw [if_pos hsame] at he'
    cases he'
    obtain ⟨hvar, htrue⟩ := Bool.and_eq_true_iff.mp hsame
    obtain ⟨u, rfl, hu⟩ := isTrueLiteral_iff.mp htrue
    obtain ⟨n, rfl⟩ := h.exists_succ
    refine ⟨some source, hsource, (gives_val hsource).mpr rfl, Or.inr ⟨rfl, rfl, ?_⟩⟩
    cases body' with
    | ref y =>
      cases eq_of_beq hvar
      have hsteady : ∀ a : Value, Steady (guarded (evaluateIn n) x guard body (some a)) := fun a =>
        respected_carriesOver.guarded _ ((Steady.evaluateIn htg.inert).mono fun _ _ => Or.inr trivial)
          ((Steady.evaluateIn htbody.inert).mono fun _ _ => Or.inr trivial)
      exact yields_listed hsteady hplain (fun a ha r => eq_of_yields_guarded hg hu hbody htg htbody ha)
        ((gives_forIn hplain htg htbody).mp h).2
    | _ => cases hvar
  · rw [if_neg hsame] at he'
    cases he'
    exact ⟨v, Expr.inert_forIn hsource hg.tidy.inert hbody.tidy.inert,
      gives_forIn_replaced hplain hg hbody htg htbody h, Or.inl rfl⟩

end

/-- A loop over a plain literal, with arithmetic on its variable for guard and body, has without a report the value of
what it simplifies to, except that the literal takes the place of the list of its members. -/
theorem evaluate_simplify_loop {e' : Expr} {s s₁ : Session} {v : Option Value} (hsource : source.isPlain = true)
    (hguard : Arithmetic x.id guard) (hbody : Arithmetic x.id body)
    (h : evaluate (.forIn x (.val source) guard body) c s = (.ok v, s₁)) (hquiet : s₁.diagnostics = s.diagnostics)
    (he' : simplify (.forIn x (.val source) guard body) = some e') :
    ∃ w s₂, evaluate e' c s = (.ok w, s₂) ∧ s₂.diagnostics = s.diagnostics ∧
      (w = v ∨ e' = .val source ∧ w = some source ∧ v = some (listed c.graph source)) := by
  have hv : Gives true c s.scope (c.limits.maxDepth - s.depth) (.forIn x (.val source) guard body) v :=
    ⟨s, s₁, rfl, h, fun _ => hquiet⟩
  have hsound : Sound (simplifyWith (pass _)) :=
    sound_simplifyWith (sound_pass (letCount (.forIn x (.val source) guard body)))
  obtain ⟨guard', hguard', hg⟩ := hsound hguard.tidy
  obtain ⟨body', hbody', hb⟩ := hsound hbody.tidy
  have hloop : simplifyLoop x (some (.val source)) (some guard') (some body') = some e' := by
    rw [← hguard', ← hbody', ← he']
    rfl
  obtain ⟨w, hinert, hw, hvalue⟩ := gives_simplifyLoop hsource hg hb hguard.tidy hbody.tidy hv hloop
  obtain ⟨s₂, hs₂, -, hq⟩ := Yields.run (Steady.evaluateIn hinert) hw fun _ _ => rfl
  exact ⟨w, s₂, hs₂, hq rfl, hvalue⟩

/-- The guard `!(x - 2 == 0) && 1`. -/
def notTwo (x : Var) : Expr :=
  .binary .logAnd (.unary .logNot (.binary .eq (.binary .sub (.varRef x) (.int 2)) (.int 0))) (.int 1)

theorem evaluate_simplify_loop_notTwo :
    let c : Setting := ⟨⟨[], []⟩, ⟨12, none, 0⟩, .standard⟩
    let loop : Expr := .forIn ⟨0, "x"⟩ (.val (.range 1 3)) (notTwo ⟨0, "x"⟩) (.binary .mul (.int 1) (.ref 0))
    ∃ s₁, evaluate loop c (Session.new false) = (.ok (some (.listOf [.int 1, .int 3])), s₁) ∧
      ∃ e', simplify loop = some e' ∧ ∃ w s₂, evaluate e' c (Session.new false) = (.ok w, s₂) ∧ s₂.diagnostics = #[] ∧
        (w = some (.listOf [.int 1, .int 3]) ∨ e' = .val (.range 1 3) ∧ w = some (.range 1 3) ∧
          some (.listOf [.int 1, .int 3]) = some (listed c.graph (.range 1 3))) := by
  intro c loop
  have hguard : Arithmetic 0 (notTwo ⟨0, "x"⟩) :=
    .binary rfl (.unary (Or.inr rfl) (.binary rfl (.binary rfl .var (.int 2)) (.int 0))) (.int 1)
  have hbody : Arithmetic 0 (.binary .mul (.int 1) (.ref 0)) := .binary rfl (.int 1) .var
  have hvalue : (evaluate loop c (Session.new false)).1 = .ok (some (.listOf [.int 1, .int 3])) := by cbv
  have hquiet : (evaluate loop c (Session.new false)).2.diagnostics = #[] := by cbv
  have h : evaluate loop c (Session.new false) = (.ok (some (.listOf [.int 1, .int 3])), _) := Prod.ext hvalue rfl
  exact ⟨_, h, _, rfl, evaluate_simplify_loop rfl hguard hbody h hquiet rfl⟩

/-- The loop `for x in (1..3) do x` has a list for its value, and the range in its place has not. -/
theorem simplify_unlists_range :
    let loop : Expr := .forIn ⟨0, "x"⟩ (.val (.range 1 3)) (.int 1) (.ref 0)
    (evaluate loop ⟨⟨[], []⟩, .standard, .standard⟩ (Session.new false)).1 =
        .ok (some (.listOf [.int 1, .int 2, .int 3])) ∧
      ∃ e', simplify loop = some e' ∧
        (evaluate e' ⟨⟨[], []⟩, .standard, .standard⟩ (Session.new false)).1 = .ok (some (.range 1 3)) := by
  intro loop
  have hlisted : (evaluate loop ⟨⟨[], []⟩, .standard, .standard⟩ (Session.new false)).1 =
      .ok (some (.listOf [.int 1, .int 2, .int 3])) := by cbv
  exact ⟨hlisted, _, rfl, rfl⟩

end Provenance.Prepare
