import Provenance.Proofs.Prepare.Inlining
import Provenance.Proofs.Prepare.RuleClosed

/-!
# Expressions that stay

No pass makes a literal of a lasting expression, and a pass leaves something of
an expression that is whole, as long as the variables that it refers to are not
removed. Both are passed on to what is left.
-/

namespace Provenance.Prepare

open Provenance.Expr (substitute substituteOpt)

variable {F : VarId → Prop} {e l r : Expr} {o : Operator} {span : Option Span}

/-! ## Tests that are not decided -/

/-- The operators for which there is no rule, other than what comes from operands without a value. -/
def isRuleless : Operator → Bool
  | .lookup | .call | .field | .step | .stepsZ | .stepsNZ | .intersect | .like | .unlike | .contains
  | .optional | .repeats | .extract => true
  | _ => false

def isComparison : Operator → Bool
  | .eq | .ne | .lt | .gt | .le | .ge => true
  | _ => false

inductive Lasting : Expr → Prop
  | ruleless {o : Operator} {l : Expr} {r : Option Expr} {span : Option Span} (ho : isRuleless o = true) :
      Lasting (.op o l r span)
  | left {o : Operator} {l : Expr} {r : Option Expr} {span : Option Span} (ho : isComparison o = true)
      (hl : Lasting l) : Lasting (.op o l r span)
  | right {o : Operator} {l r : Expr} {span : Option Span} (ho : isComparison o = true) (hr : Lasting r) :
      Lasting (.op o l (some r) span)
  | not {e : Expr} {r : Option Expr} {span : Option Span} (he : Lasting e) : Lasting (.op .logNot e r span)

theorem Lasting.literal? (h : Lasting e) : e.literal? = none := by
  cases h <;> rfl

theorem Lasting.int? (h : Lasting e) : e.int? = none := by
  rw [Expr.int?, h.literal?]
  rfl

theorem Lasting.substitute {x : VarId} {b : Expr} (h : Lasting e) : Lasting (substitute x b e) := by
  induction h with
  | ruleless ho => exact .ruleless ho
  | left ho _ ih => exact .left ho ih
  | right ho _ ih => exact .right ho ih
  | not _ ih => exact .not ih

theorem lasting_simplifyNot (h : Lasting e) : Lasting (simplifyNot e span) := by
  unfold simplifyNot
  split
  · split
    · cases h with
      | not h => exact h
      | _ => contradiction
    · exact .not h
  · cases h
  · exact .not h

theorem simplifyBinary_of_lasting (ho : isComparison o = true) (h : Lasting l ∨ Lasting r) :
    simplifyBinary o l r span = .op o l (some r) span := by
  have hint : ∀ {a b : Int64}, l.int? = some a → r.int? = some b → False := by
    intro a b ha hb
    rcases h with h | h <;> simp_all [h.int?]
  have horder : ∀ {o : Operator} {holds : Int64 → Int64 → Bool},
      simplifyOrder o holds l r span = .op o l (some r) span := by
    intro o holds
    unfold simplifyOrder
    split
    · exact (hint ‹_› ‹_›).elim
    · rfl
  cases o with
  | eq =>
    simp only [simplifyBinary]
    rcases h with h | h <;> cases h <;> simp [simplifyEq]
  | ne =>
    simp only [simplifyBinary]
    rcases h with h | h <;> cases h <;> simp [simplifyNe]
  | lt | gt | le | ge => exact horder
  | _ => cases ho

/-! ## What no pass removes -/

/-- Whatever becomes of the variables outside of `F`, something is left of the expression. -/
inductive Whole (F : VarId → Prop) : Expr → Prop
  | val (v : Value) : Whole F (.val v)
  | ref {x : VarId} (hx : F x) : Whole F (.ref x)
  | unary {o : Operator} {e : Expr} {span : Option Span} (ho : o.isUnary = true) (he : Whole F e) :
      Whole F (.op o e none span)
  | binary {o : Operator} {l r : Expr} {span : Option Span} (ho : o.isUnary = false) (hl : Whole F l)
      (hr : Whole F r) : Whole F (.op o l (some r) span)
  | tuple {es : List Expr} (hne : es ≠ []) (h : ∀ e ∈ es, Whole F e) : Whole F (.tuple (es.map some))
  | cond {test yes no : Expr} (hy : Whole F yes) (hn : Whole F no) : Whole F (.cond test (some yes) (some no))
  | forIn {x : Var} {source guard body : Expr} (hpasses : guard.isTrueLiteral = true ∨ Lasting guard)
      (hs : Whole F source) (hg : Whole F guard) (hbody : Whole F body) : Whole F (.forIn x source guard body)
  | letIn {x : Var} {bound guard body : Expr} (hb : Whole F bound) (hg : Whole F guard) (hbody : Whole F body) :
      Whole F (.letIn x bound guard body)
  | lambda {x : Var} {body : Expr} (hbody : Whole F body) : Whole F (.lambda x body)

theorem ruleClosed_whole : RuleClosed (Whole F) where
  val _ := .val _
  unary := .unary
  binary ho _ := .binary ho
  left _ h := by
    cases h with
    | unary _ he => exact he
    | binary _ hl _ => exact hl
  right _ h := by
    cases h with
    | binary _ _ hr => exact hr

theorem isTrueLiteral_substitute {x : VarId} {b : Expr} (h : e.isTrueLiteral = true) : substitute x b e = e := by
  obtain ⟨a, rfl, -⟩ := isTrueLiteral_iff.mp h
  rfl

theorem passes_substitute {x : VarId} {b : Expr} (h : e.isTrueLiteral = true ∨ Lasting e) :
    (substitute x b e).isTrueLiteral = true ∨ Lasting (substitute x b e) := by
  refine h.imp (fun h => ?_) Lasting.substitute
  rwa [isTrueLiteral_substitute h]

theorem Whole.substitute {x : VarId} {b : Expr} (h : Whole F e) (hb : F x → Whole F b) :
    Whole F (substitute x b e) := by
  induction h with
  | val v => exact .val v
  | @ref y hy =>
    rw [Expr.substitute]
    split
    · subst y
      exact hb hy
    · exact .ref hy
  | unary ho _ ih => exact .unary ho ih
  | binary ho _ _ ihl ihr => exact .binary ho ihl ihr
  | @tuple es hne _ ih =>
    rw [Expr.substitute, substituteAll_map_some]
    refine .tuple (by simpa using hne) fun a ha => ?_
    obtain ⟨e, he, rfl⟩ := List.mem_map.mp ha
    exact ih e he
  | cond _ _ ihy ihn => exact .cond ihy ihn
  | forIn hpasses _ _ _ ihs ihg ihbody => exact .forIn (passes_substitute hpasses) ihs ihg ihbody
  | letIn _ _ _ ihb ihg ihbody => exact .letIn ihb ihg ihbody
  | lambda _ ih => exact .lambda ih

/-! ## Passes -/

section
variable {p : Pass} {f : Expr → Option Expr}

theorem simplifyOp_of_ruleless (ho : isRuleless o = true) {l r : Option Expr} {t : Expr}
    (ht : simplifyOp o l r span = some t) : ∃ a b, t = .op o a b span := by
  cases o <;> first
    | contradiction
    | (cases l <;> cases r <;> first | exact ⟨_, _, (Option.some.inj ht).symm⟩ | cases ht)

theorem simplifyOp_of_isComparison (ho : isComparison o = true) {l r : Option Expr} {t : Expr}
    (ht : simplifyOp o l r span = some t) : ∃ a b, l = some a ∧ r = some b ∧ t = simplifyBinary o a b span := by
  cases o <;> first
    | contradiction
    | (cases l <;> cases r <;> first | exact ⟨_, _, rfl, rfl, (Option.some.inj ht).symm⟩ | cases ht)

theorem Traversal.lasting (hf : Traversal p f) (h : Lasting e) : ∀ t ∈ f e, Lasting t := by
  induction h with
  | ruleless ho =>
    intro t ht
    rw [hf.op] at ht
    obtain ⟨a, b, rfl⟩ := simplifyOp_of_ruleless ho ht
    exact .ruleless ho
  | left ho _ ih =>
    intro t ht
    rw [hf.op] at ht
    obtain ⟨a, b, ha, -, rfl⟩ := simplifyOp_of_isComparison ho ht
    rw [simplifyBinary_of_lasting ho (Or.inl (ih a ha))]
    exact .left ho (ih a ha)
  | right ho _ ih =>
    intro t ht
    rw [hf.op] at ht
    obtain ⟨a, b, -, hb, rfl⟩ := simplifyOp_of_isComparison ho ht
    rw [simplifyBinary_of_lasting ho (Or.inr (ih b hb))]
    exact .right ho (ih b hb)
  | not _ ih =>
    intro t ht
    rw [hf.op] at ht
    obtain ⟨e', he', rfl⟩ := Option.map_eq_some_iff.mp ht
    exact lasting_simplifyNot (ih e' he')

theorem Traversal.passes (hf : Traversal p f) (h : e.isTrueLiteral = true ∨ Lasting e) :
    ∀ t ∈ f e, t.isTrueLiteral = true ∨ Lasting t := by
  intro t ht
  rcases h with h | h
  · obtain ⟨a, rfl, ha⟩ := isTrueLiteral_iff.mp h
    rw [hf.val] at ht
    cases ht
    exact Or.inl h
  · exact Or.inr (hf.lasting h t ht)

theorem isFalseLiteral_of_passes (h : e.isTrueLiteral = true ∨ Lasting e) : e.isFalseLiteral = false := by
  rcases h with h | h
  · obtain ⟨a, rfl, ha⟩ := isTrueLiteral_iff.mp h
    simp [Expr.isFalseLiteral, Expr.literal?, ha]
  · simp [Expr.isFalseLiteral, h.literal?]

/-- The pass makes of an expression that is whole one that is whole again. -/
def LeavesWhole (F : VarId → Prop) (f : Expr → Option Expr) : Prop :=
  ∀ e, Whole F e → ∃ t, f e = some t ∧ Whole F t

theorem whole_simplifyOp (ho : o.isUnary = false) (hl : Whole F l) (hr : Whole F r) :
    ∃ t, simplifyOp o (some l) (some r) span = some t ∧ Whole F t := by
  have hbinary : o.isJoin = false → Whole F (simplifyBinary o l r span) := fun hjoin =>
    ruleClosed_whole.simplifyBinary ho hjoin hl hr
  have hjoin : Whole F (.op o l (some r) span) := .binary ho hl hr
  cases o with
  | logAnd => exact ⟨_, rfl, ruleClosed_whole.simplifyAnd (fun _ h => by cases h; exact hl) fun _ h => by cases h; exact hr⟩
  | logOr => exact ⟨_, rfl, ruleClosed_whole.simplifyOr (fun _ h => by cases h; exact hl) fun _ h => by cases h; exact hr⟩
  | step | stepsZ | stepsNZ => exact ⟨_, rfl, hjoin⟩
  | logNot | neg | optional | repeats | extract => cases ho
  | _ => exact ⟨_, rfl, hbinary rfl⟩

theorem whole_simplifyCond {test : Option Expr} {yes no : Expr} (hy : Whole F yes) (hn : Whole F no) :
    ∃ t, simplifyCond test (some yes) (some no) = some t ∧ Whole F t := by
  cases test with
  | none => exact ⟨yes, rfl, hy⟩
  | some test =>
    simp only [simplifyCond, Option.isNone_some, Bool.and_self, Bool.false_eq_true, if_false]
    split
    · split
      · exact ⟨yes, rfl, hy⟩
      · exact ⟨no, rfl, hn⟩
    · exact ⟨_, rfl, .cond hy hn⟩

theorem whole_simplifyTuple {es : List Expr} (hne : es ≠ []) (h : ∀ e ∈ es, Whole F e) :
    ∃ t, simplifyTuple (es.map some) = some t ∧ Whole F t := by
  unfold simplifyTuple
  rw [filterMap_id_map_some]
  split
  · exact absurd rfl hne
  · exact ⟨_, rfl, h _ List.mem_cons_self⟩
  · split
    · exact ⟨_, rfl, .val _⟩
    · exact ⟨_, rfl, .tuple hne h⟩

theorem whole_simplifyLoop {x : Var} {source guard body : Expr} (hpasses : guard.isTrueLiteral = true ∨ Lasting guard)
    (hs : Whole F source) (hg : Whole F guard) (hbody : Whole F body) :
    ∃ t, simplifyLoop x (some source) (some guard) (some body) = some t ∧ Whole F t := by
  simp only [simplifyLoop, isFalseLiteral_of_passes hpasses, Bool.false_eq_true, if_false]
  split
  · exact ⟨source, rfl, hs⟩
  · exact ⟨_, rfl, .forIn hpasses hs hg hbody⟩

theorem whole_simplifyLet (hp : LeavesWhole F p.simplify) {x : Var} {bound guard body : Expr} (hb : Whole F bound)
    (hg : Whole F guard) (hbody : Whole F body) :
    ∃ t, simplifyLet p x (some bound) (some guard) (some body) = some t ∧ Whole F t := by
  have hself : Whole F (.letIn x bound guard body) := .letIn hb hg hbody
  simp only [simplifyLet]
  by_cases htrue : guard.isTrueLiteral = true
  · by_cases hmentions : body.mentions x.id = true
    · simp only [htrue, hmentions, Bool.not_true, Bool.false_eq_true, if_false]
      by_cases hatom : isAtom bound = true
      · rw [if_pos hatom]
        exact hp _ (hbody.substitute fun _ => hb)
      by_cases hvar : body.isVar x.id = true
      · rw [if_neg hatom, if_pos hvar]
        exact ⟨bound, rfl, hb⟩
      · rw [if_neg hatom, if_neg hvar]
        exact ⟨_, rfl, hself⟩
    · simp only [htrue, hmentions, Bool.not_true, Bool.not_false, Bool.false_eq_true, if_false, if_true]
      exact ⟨body, rfl, hbody⟩
  · simp only [htrue, Bool.not_false, if_true]
    exact ⟨_, rfl, hself⟩

theorem exists_map_bind {es : List Expr} (h : ∀ e ∈ es, ∃ t, f e = some t ∧ Whole F t) :
    ∃ ts : List Expr, (es.map some).map (·.bind f) = ts.map some ∧ ts.length = es.length ∧ ∀ t ∈ ts, Whole F t := by
  induction es with
  | nil => exact ⟨[], rfl, rfl, fun _ h => by cases h⟩
  | cons e es ih =>
    obtain ⟨t, ht, hwhole⟩ := h e List.mem_cons_self
    obtain ⟨ts, hts, hlength, hall⟩ := ih fun a ha => h a (List.mem_cons_of_mem _ ha)
    refine ⟨t :: ts, by simp only [List.map_cons, Option.bind_some, ht, hts], by simp [hlength], ?_⟩
    exact List.forall_mem_cons.mpr ⟨hwhole, hall⟩

theorem Traversal.leavesWhole (hf : Traversal p f) (hp : LeavesWhole F p.simplify)
    (hkept : ∀ x, F x → f (.ref x) = some (.ref x)) : LeavesWhole F f := by
  intro e h
  induction h with
  | val v => exact ⟨_, hf.val v, .val v⟩
  | ref hx => exact ⟨_, hkept _ hx, .ref hx⟩
  | @unary o e span ho _ ih =>
    obtain ⟨t, ht, hwhole⟩ := ih
    refine ⟨simplifyUnary o t span, ?_, ruleClosed_whole.simplifyUnary ho hwhole⟩
    rw [hf.op, ht, simplifyOp_of_isUnary ho]
  | binary ho _ _ ihl ihr =>
    obtain ⟨l', hl', hl⟩ := ihl
    obtain ⟨r', hr', hr⟩ := ihr
    rw [hf.op, hl', Option.bind_some, hr']
    exact whole_simplifyOp ho hl hr
  | @tuple es hne _ ih =>
    obtain ⟨ts, hts, hlength, hall⟩ := exists_map_bind ih
    rw [hf.tuple, hts]
    refine whole_simplifyTuple ?_ hall
    intro h
    subst h
    exact hne (List.eq_nil_of_length_eq_zero hlength.symm)
  | cond _ _ ihy ihn =>
    obtain ⟨y', hy', hy⟩ := ihy
    obtain ⟨n', hn', hn⟩ := ihn
    rw [hf.cond, Option.bind_some, hy', Option.bind_some, hn']
    exact whole_simplifyCond hy hn
  | forIn hpasses _ _ _ ihs ihg ihbody =>
    obtain ⟨s', hs', hs⟩ := ihs
    obtain ⟨g', hg', hg⟩ := ihg
    obtain ⟨body', hbody', hbody⟩ := ihbody
    rw [hf.forIn, hs', hg', hbody']
    exact whole_simplifyLoop (hf.passes hpasses g' hg') hs hg hbody
  | letIn _ _ _ ihb ihg ihbody =>
    obtain ⟨b', hb', hb⟩ := ihb
    obtain ⟨g', hg', hg⟩ := ihg
    obtain ⟨body', hbody', hbody⟩ := ihbody
    rw [hf.letIn, hb', hg', hbody']
    exact whole_simplifyLet hp hb hg hbody
  | lambda _ ih =>
    obtain ⟨body', hbody', hbody⟩ := ih
    rw [hf.lambda, hbody']
    exact ⟨_, rfl, .lambda hbody⟩

end

theorem leavesWhole_pass : ∀ n, LeavesWhole F (pass n).simplify
  | 0 => fun _ h => ⟨_, rfl, h⟩
  | n + 1 => (traversal_simplifyWith _).leavesWhole (leavesWhole_pass n) fun _ _ => rfl

end Provenance.Prepare
