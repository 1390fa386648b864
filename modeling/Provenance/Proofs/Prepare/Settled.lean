import Provenance.Proofs.Prepare.LetCount

/-!
# Simplifying twice

A node is at rest if its own rule gives it back, and an expression is settled if
every node in it is at rest. A pass leaves a settled expression alone
(`simplifyWith_of_settled`), and what the rules make of settled parts is settled
again, also where they regroup operands or exchange them without being applied
to the outcome. So the result of simplifying is not simplified any further
(`simplify_simplify`).
-/

namespace Provenance.Prepare

open Provenance.Expr (int ofBool substitute)

variable {e l r : Expr} {o : Operator} {span : Option Span}

/-- The rule for the node gives the node back. -/
def AtRest : Expr → Prop
  | .op o left right span => simplifyOp o (some left) right span = some (.op o left right span)
  | .tuple fields => simplifyTuple fields = some (.tuple fields)
  | .cond test yes no => simplifyCond (some test) yes no = some (.cond test yes no)
  | .forIn x source guard body =>
    simplifyLoop x (some source) (some guard) (some body) = some (.forIn x source guard body)
  | .letIn x bound guard body =>
    ∀ p, simplifyLet p x (some bound) (some guard) (some body) = some (.letIn x bound guard body)
  | _ => True

/-- Every node is at rest. The bodies of closures that stand as literals are not looked at. -/
inductive Settled : Expr → Prop
  | of_parts (e : Expr) (rest : AtRest e) (parts : ∀ x a, (x, a) ∈ e.parts → Settled a) : Settled e

theorem Settled.atRest (h : Settled e) : AtRest e := by
  cases h
  assumption

theorem Settled.part {x : Option VarId} {a : Expr} (h : Settled e) (ha : (x, a) ∈ e.parts) : Settled a := by
  cases h with
  | of_parts _ _ parts => exact parts x a ha

theorem settled_val (v : Value) : Settled (.val v) :=
  .of_parts _ trivial fun _ _ h => by cases h

theorem settled_int (a : Int64) : Settled (int a) :=
  settled_val _

theorem settled_ofBool (b : Bool) : Settled (ofBool b) :=
  settled_val _

theorem settled_ref (x : VarId) : Settled (.ref x) :=
  .of_parts _ trivial fun _ _ h => by cases h

theorem Settled.left {r : Option Expr} (h : Settled (.op o l r span)) : Settled l :=
  h.part Expr.left_mem_parts

theorem Settled.right (h : Settled (.op o l (some r) span)) : Settled r :=
  h.part Expr.right_mem_parts

/-- If the rule gives the node back, this is what puts the node at rest. -/
theorem settled_of_unary {t : Expr} (he : Settled e) (h : simplifyOp o (some e) none span = some t)
    (ht : t = .op o e none span ∨ Settled t) : Settled t := by
  obtain rfl | ht := ht
  · refine .of_parts _ h fun x a ha => ?_
    obtain ⟨-, rfl | ha⟩ := Expr.mem_parts_op.mp ha
    · exact he
    · cases ha
  · exact ht

theorem settled_of_binary {t : Expr} (hl : Settled l) (hr : Settled r)
    (h : simplifyOp o (some l) (some r) span = some t) (ht : t = .op o l (some r) span ∨ Settled t) : Settled t := by
  obtain rfl | ht := ht
  · refine .of_parts _ h fun x a ha => ?_
    obtain ⟨-, rfl | ha⟩ := Expr.mem_parts_op.mp ha
    · exact hl
    · cases ha
      exact hr
  · exact ht

/-! ## A settled expression stays as it is -/

theorem bind_eq_self {f : Expr → Option Expr} {e : Option Expr} (h : ∀ a ∈ e, f a = some a) : e.bind f = e := by
  cases e with
  | none => rfl
  | some a => exact h a rfl

theorem map_bind_eq_self {f : Expr → Option Expr} {es : List (Option Expr)} (h : ∀ a, some a ∈ es → f a = some a) :
    es.map (·.bind f) = es := by
  refine (List.map_congr_left fun e he => ?_).trans (List.map_id es)
  exact bind_eq_self fun a ha => h a (Option.mem_def.mp ha ▸ he)

theorem simplifyWith_of_settled (p : Pass) : ∀ e, Settled e → simplifyWith p e = some e := by
  have hp := traversal_simplifyWith p
  refine Expr.parts_induction fun e ih he => ?_
  have hpart : ∀ x a, (x, a) ∈ e.parts → simplifyWith p a = some a := fun x a ha => ih x a ha (he.part ha)
  have hrest := he.atRest
  cases e with
  | val v => exact hp.val v
  | ref x => rfl
  | op o l r span =>
    rw [hp.op, hpart none l Expr.left_mem_parts,
      bind_eq_self fun a ha => hpart none a (Expr.mem_parts_op.mpr ⟨rfl, Or.inr (Option.mem_def.mp ha)⟩)]
    exact hrest
  | tuple fields =>
    rw [hp.tuple, map_bind_eq_self fun a ha => hpart none a (Expr.mem_parts_tuple.mpr ⟨rfl, ha⟩)]
    exact hrest
  | cond test yes no =>
    have hbranch : ∀ a, yes = some a ∨ no = some a → simplifyWith p a = some a := fun a ha =>
      hpart none a (Expr.mem_parts_cond.mpr ⟨rfl, Or.inr ha⟩)
    rw [hp.cond, hpart none test (Expr.mem_parts_cond.mpr ⟨rfl, Or.inl rfl⟩),
      bind_eq_self fun a ha => hbranch a (Or.inl (Option.mem_def.mp ha)),
      bind_eq_self fun a ha => hbranch a (Or.inr (Option.mem_def.mp ha))]
    exact hrest
  | forIn x source guard body =>
    rw [hp.forIn, hpart none source (by simp [Expr.parts]), hpart (some x.id) guard (by simp [Expr.parts]),
      hpart (some x.id) body (by simp [Expr.parts])]
    exact hrest
  | letIn x bound guard body =>
    rw [hp.letIn, hpart none bound (by simp [Expr.parts]), hpart (some x.id) guard (by simp [Expr.parts]),
      hpart (some x.id) body (by simp [Expr.parts])]
    exact hrest p
  | lambda x body =>
    rw [hp.lambda, hpart (some x.id) body (by simp [Expr.parts]), Option.map_some]

/-! ## Truth -/

theorem rightSide_eq_or_settled (hr : Settled r) :
    rightSide o l r span = .op o l (some r) span ∨ Settled (rightSide o l r span) := by
  unfold rightSide
  split
  · exact Or.inr (settled_ofBool _)
  · exact Or.inr hr
  · exact Or.inr hr
  · exact Or.inl rfl

theorem settled_simplifyAnd {l r : Option Expr} (hl : ∀ a ∈ l, Settled a) (hr : ∀ a ∈ r, Settled a) :
    Settled (simplifyAnd l r span) := by
  match l, r with
  | none, _ => exact settled_int 0
  | some _, none => exact settled_int 0
  | some l, some r =>
    refine settled_of_binary (o := .logAnd) (hl l rfl) (hr r rfl) rfl ?_
    simp only [simplifyAnd]
    split
    · exact rightSide_eq_or_settled (hr r rfl)
    · split
      · exact Or.inr (settled_int 0)
      · exact Or.inl rfl

/-- A side without a value is as good as a zero. -/
theorem simplifyOr_getD (l r : Option Expr) :
    simplifyOr l r span = simplifyOr (some (l.getD (int 0))) (some (r.getD (int 0))) span := by
  match l, r with
  | none, none => rfl
  | none, some r => rfl
  | some l, none => rfl
  | some l, some r => rfl

theorem settled_getD {e : Option Expr} (he : ∀ a ∈ e, Settled a) : Settled (e.getD (int 0)) := by
  cases e with
  | none => exact settled_int 0
  | some a => exact he a rfl

theorem settled_simplifyOr {l r : Option Expr} (hl : ∀ a ∈ l, Settled a) (hr : ∀ a ∈ r, Settled a) :
    Settled (simplifyOr l r span) := by
  have hl := settled_getD hl
  have hr := settled_getD hr
  rw [simplifyOr_getD]
  refine settled_of_binary (o := .logOr) hl hr rfl ?_
  simp only [simplifyOr]
  split
  · exact Or.inr (settled_int 1)
  · split
    · exact rightSide_eq_or_settled hr
    · exact Or.inl rfl

theorem settled_simplifyNot (he : Settled e) : Settled (simplifyNot e span) := by
  refine settled_of_unary (o := .logNot) he rfl ?_
  unfold simplifyNot
  split
  · split
    · exact Or.inr he.left
    · exact Or.inl rfl
  · exact Or.inr (settled_ofBool _)
  · exact Or.inl rfl

/-! ## Arithmetic -/

@[simp] theorem int?_int (a : Int64) : (int a).int? = some a :=
  rfl

theorem simplifyNeg_ne_sub : simplifyNeg r span ≠ .op .sub l (some r) span := by
  intro h
  unfold simplifyNeg at h
  split at h
  · have := congrArg sizeOf h
    simp at this
    omega
  · have := congrArg sizeOf h
    simp at this
    omega
  · cases h
  · cases h
  · cases h

/-- Neither side of a difference at rest is a zero, and at most one is a number, so the sides may
trade places. -/
theorem simplifySub_swap (h : simplifySub l r span = .op .sub l (some r) span) :
    simplifySub r l span = .op .sub r (some l) span := by
  unfold simplifySub at h ⊢
  cases hl : l.int? with
  | none =>
    cases hr : r.int? with
    | none => rfl
    | some b =>
      cases eq_int_of_int? hr
      simp only [hl, hr, subOf, subFrom] at h ⊢
      by_cases hb : b = 0
      · rw [if_pos hb] at h
        have := congrArg sizeOf h
        simp at this
        omega
      · rw [if_neg hb]
  | some a =>
    cases eq_int_of_int? hl
    simp only [hl, subFrom] at h
    by_cases ha : a = 0
    · rw [if_pos ha] at h
      exact absurd h simplifyNeg_ne_sub
    · rw [if_neg ha] at h
      cases hr : r.int? with
      | none => simp [subOf, ha]
      | some b =>
        rw [hr] at h
        cases h

theorem settled_simplifyNeg (he : Settled e) : Settled (simplifyNeg e span) := by
  refine settled_of_unary (o := .neg) he rfl ?_
  unfold simplifyNeg
  split
  · exact Or.inr he.left
  · rename_i l r span'
    refine Or.inr (settled_of_binary he.right he.left ?_ (Or.inl rfl))
    exact congrArg some (simplifySub_swap (Option.some.inj he.atRest))
  · exact Or.inr (settled_int _)
  · exact Or.inr (settled_val _)
  · exact Or.inl rfl

theorem settled_subFrom {a : Int64} (hr : Settled r) : Settled (subFrom a r span) := by
  refine settled_of_binary (o := .sub) (settled_int a) hr rfl ?_
  unfold subFrom
  split
  · exact Or.inr (settled_simplifyNeg hr)
  · split
    · exact Or.inr (settled_int _)
    · exact Or.inl rfl

/-- Stated for a side that is no number, as the rule for a number is `subFrom`. -/
theorem settled_subOf {b : Int64} (hl : Settled l) (hint : l.int? = none) : Settled (subOf l b span) := by
  have hself : simplifyOp .sub (some l) (some (int b)) span = some (subOf l b span) := by
    simp [simplifyOp, Operator.isUnary, simplifyBinary, simplifySub, hint]
  refine settled_of_binary hl (settled_int b) hself ?_
  unfold subOf
  split
  · exact Or.inr hl
  · exact Or.inl rfl

theorem addTo_eq_or_settled {a : Int64} (hr : Settled r) :
    addTo a r span = .op .add (int a) (some r) span ∨ Settled (addTo a r span) := by
  fun_induction addTo a r span with
  | case1 => exact Or.inr hr
  | case2 => exact Or.inr (settled_int _)
  | case3 a span ha left inner span' b hb ih =>
    exact Or.inr (settled_of_binary (settled_int (a + b)) hr.right rfl (ih hr.right))
  | case4 => exact Or.inl rfl
  | case5 a span ha left inner span' b hb => exact Or.inr (settled_subFrom hr.right)
  | case6 a span ha left inner span' b hinner hleft => exact Or.inr (settled_subOf hr.left hleft)
  | case7 => exact Or.inl rfl
  | case8 => exact Or.inl rfl

theorem settled_addTo {a : Int64} (hr : Settled r) : Settled (addTo a r span) :=
  settled_of_binary (o := .add) (settled_int a) hr rfl (addTo_eq_or_settled hr)

theorem mulBy_eq_or_settled {a : Int64} (hr : Settled r) :
    mulBy a r span = .op .mul (int a) (some r) span ∨ Settled (mulBy a r span) := by
  fun_induction mulBy a r span with
  | case1 => exact Or.inr (settled_int 0)
  | case2 => exact Or.inr hr
  | case3 => exact Or.inr (settled_int _)
  | case4 a span ha ha' left inner span' b hb ih =>
    exact Or.inr (settled_of_binary (settled_int (a * b)) hr.right rfl (ih hr.right))
  | case5 => exact Or.inl rfl
  | case6 => exact Or.inl rfl

theorem settled_mulBy {a : Int64} (hr : Settled r) : Settled (mulBy a r span) :=
  settled_of_binary (o := .mul) (settled_int a) hr rfl (mulBy_eq_or_settled hr)

theorem settled_simplifyAdd (hl : Settled l) (hr : Settled r) : Settled (simplifyAdd l r span) := by
  refine settled_of_binary (o := .add) hl hr rfl ?_
  unfold simplifyAdd
  cases hintl : l.int? with
  | some a => exact Or.inr (settled_addTo hr)
  | none =>
    cases hintr : r.int? with
    | some b =>
      simp only
      split
      · exact Or.inl rfl
      · exact Or.inr (settled_addTo hl)
    | none =>
      simp only
      split
      · rename_i hswap
        refine Or.inr (settled_of_binary hr hl ?_ (Or.inl rfl))
        simp_all [simplifyOp, Operator.isUnary, simplifyBinary, simplifyAdd]
      · exact Or.inl rfl

theorem settled_simplifyMul (hl : Settled l) (hr : Settled r) : Settled (simplifyMul l r span) := by
  refine settled_of_binary (o := .mul) hl hr rfl ?_
  unfold simplifyMul
  cases hintl : l.int? with
  | some a => exact Or.inr (settled_mulBy hr)
  | none =>
    cases hintr : r.int? with
    | some b =>
      simp only
      split
      · exact Or.inl rfl
      · exact Or.inr (settled_mulBy hl)
    | none =>
      simp only
      split
      · rename_i hswap
        refine Or.inr (settled_of_binary hr hl ?_ (Or.inl rfl))
        simp_all [simplifyOp, Operator.isUnary, simplifyBinary, simplifyMul]
      · exact Or.inl rfl

theorem settled_simplifySub (hl : Settled l) (hr : Settled r) : Settled (simplifySub l r span) := by
  refine settled_of_binary (o := .sub) hl hr rfl ?_
  unfold simplifySub
  split
  · exact Or.inr (settled_subFrom hr)
  · exact Or.inr (settled_subOf hl ‹_›)
  · exact Or.inl rfl

theorem simplifyDivision_eq_or_settled {divide : Int64 → Int64 → Int64} :
    simplifyDivision o divide l r span = .op o l (some r) span ∨ Settled (simplifyDivision o divide l r span) := by
  unfold simplifyDivision
  split
  · split
    · exact Or.inr (settled_int 0)
    · exact Or.inl rfl
  · split
    · exact Or.inr (settled_int 0)
    · split
      · exact Or.inl rfl
      · exact Or.inr (settled_int _)
  · exact Or.inl rfl

/-! ## Comparison and text -/

theorem simplifyOrder_eq_or_settled {holds : Int64 → Int64 → Bool} :
    simplifyOrder o holds l r span = .op o l (some r) span ∨ Settled (simplifyOrder o holds l r span) := by
  unfold simplifyOrder
  split
  · exact Or.inr (settled_ofBool _)
  · exact Or.inl rfl

theorem simplifyEq_eq_or_settled :
    simplifyEq l r span = .op .eq l (some r) span ∨ Settled (simplifyEq l r span) := by
  unfold simplifyEq
  split
  · exact Or.inr (settled_ofBool _)
  · split
    · exact Or.inr (settled_int 1)
    · exact Or.inl rfl
  · exact Or.inl rfl

theorem simplifyNe_eq_or_settled :
    simplifyNe l r span = .op .ne l (some r) span ∨ Settled (simplifyNe l r span) := by
  unfold simplifyNe
  split
  · exact Or.inr (settled_ofBool _)
  · exact Or.inl rfl

theorem simplifyConcat_eq_or_settled (hl : Settled l) (hr : Settled r) :
    simplifyConcat l r span = .op .concat l (some r) span ∨ Settled (simplifyConcat l r span) := by
  unfold simplifyConcat
  split
  · exact Or.inr hr
  · split
    · exact Or.inr hl
    · split
      · exact Or.inr (settled_val _)
      · exact Or.inl rfl

/-! ## Operators at large -/

theorem simplifyBinary_eq_or_settled (hl : Settled l) (hr : Settled r) :
    simplifyBinary o l r span = .op o l (some r) span ∨ Settled (simplifyBinary o l r span) := by
  unfold simplifyBinary
  split
  · exact simplifyEq_eq_or_settled
  · exact simplifyNe_eq_or_settled
  · exact simplifyOrder_eq_or_settled
  · exact simplifyOrder_eq_or_settled
  · exact simplifyOrder_eq_or_settled
  · exact simplifyOrder_eq_or_settled
  · exact Or.inr (settled_simplifyAdd hl hr)
  · exact Or.inr (settled_simplifySub hl hr)
  · exact Or.inr (settled_simplifyMul hl hr)
  · exact simplifyDivision_eq_or_settled
  · exact simplifyDivision_eq_or_settled
  · exact simplifyConcat_eq_or_settled hl hr
  · exact Or.inl rfl

theorem simplifyUnary_eq_or_settled (he : Settled e) :
    simplifyUnary o e span = .op o e none span ∨ Settled (simplifyUnary o e span) := by
  unfold simplifyUnary
  split
  · exact Or.inr (settled_simplifyNot he)
  · exact Or.inr (settled_simplifyNeg he)
  · exact Or.inl rfl

theorem settled_of_both (hl : Settled l) (hr : Settled r)
    (h : simplifyOp o (some l) (some r) span = some (simplifyBinary o l r span)) :
    ∀ t ∈ simplifyOp o (some l) (some r) span, Settled t := by
  intro t ht
  cases h.symm.trans ht
  exact settled_of_binary hl hr h (simplifyBinary_eq_or_settled hl hr)

theorem settled_simplifyOp {l r : Option Expr} (hl : ∀ a ∈ l, Settled a) (hr : ∀ a ∈ r, Settled a) :
    ∀ t ∈ simplifyOp o l r span, Settled t := by
  intro t ht
  have ht' := ht
  unfold simplifyOp at ht
  split at ht
  · cases ht
    exact settled_simplifyAnd hl hr
  · cases ht
    exact settled_simplifyOr hl hr
  iterate 2
    split at ht
    · exact hr t ht
    · exact hl t ht
    · exact settled_of_both (hl _ rfl) (hr _ rfl) rfl t ht'
  · split at ht
    · rename_i hunary
      obtain ⟨e, he, rfl⟩ := Option.map_eq_some_iff.mp ht
      exact settled_of_unary (hl e he) (simplifyOp_of_isUnary hunary none) (simplifyUnary_eq_or_settled (hl e he))
    · split at ht
      · exact settled_of_both (hl _ rfl) (hr _ rfl) (ht'.trans ht.symm) t ht'
      · cases ht

/-! ## Loops, conditions and tuples -/

theorem settled_simplifyLoop {x : Var} {source guard body : Option Expr} (hs : ∀ a ∈ source, Settled a)
    (hg : ∀ a ∈ guard, Settled a) (hb : ∀ a ∈ body, Settled a) : ∀ t ∈ simplifyLoop x source guard body, Settled t := by
  intro t ht
  match source, guard, body with
  | none, _, _ => cases ht
  | some _, none, _ => cases ht
  | some _, some _, none => cases ht
  | some source, some guard, some body =>
    have h := ht
    rw [simplifyLoop] at ht
    split at ht
    · cases ht
    · split at ht
      · exact hs t ht
      · cases ht
        refine .of_parts _ h fun y a ha => ?_
        obtain ⟨-, rfl⟩ | ⟨-, rfl⟩ | ⟨-, rfl⟩ := Expr.mem_parts_forIn.mp ha
        · exact hs _ rfl
        · exact hg _ rfl
        · exact hb _ rfl

theorem settled_simplifyCond {test yes no : Option Expr} (ht : ∀ a ∈ test, Settled a) (hy : ∀ a ∈ yes, Settled a)
    (hn : ∀ a ∈ no, Settled a) : ∀ t ∈ simplifyCond test yes no, Settled t := by
  intro t h
  match test with
  | none => exact hy t h
  | some test =>
    have hself := h
    simp only [simplifyCond] at h
    split at h
    · cases h
    · split at h
      · split at h
        · exact hy t h
        · exact hn t h
      · cases h
        refine .of_parts _ hself fun y a ha => ?_
        obtain ⟨-, rfl | ha | ha⟩ := Expr.mem_parts_cond.mp ha
        · exact ht _ rfl
        · exact hy a ha
        · exact hn a ha

theorem simplifyTuple_squeezed (fields : List (Option Expr)) :
    simplifyTuple fields = simplifyTuple ((fields.filterMap id).map some) := by
  unfold simplifyTuple
  rw [filterMap_id_map_some]

theorem settled_simplifyTuple {fields : List (Option Expr)} (h : ∀ a, some a ∈ fields → Settled a) :
    ∀ t ∈ simplifyTuple fields, Settled t := by
  have hes : ∀ a ∈ fields.filterMap id, Settled a := fun a ha => h a (by simpa using ha)
  rw [simplifyTuple_squeezed]
  generalize fields.filterMap id = es at hes ⊢
  intro t ht
  have hself := ht
  simp only [simplifyTuple, filterMap_id_map_some] at ht
  split at ht
  · cases ht
  · cases ht
    exact hes t List.mem_cons_self
  · split at ht
    · cases ht
      exact settled_val _
    · cases ht
      refine .of_parts _ hself fun x a ha => ?_
      obtain ⟨-, ha⟩ := Expr.mem_parts_tuple.mp ha
      exact hes a (by simpa using ha)

theorem settled_lambda {x : Var} {body : Option Expr} (hb : ∀ a ∈ body, Settled a) :
    ∀ t ∈ body.map (.lambda x), Settled t := by
  intro t ht
  obtain ⟨b, hbody, rfl⟩ := Option.map_eq_some_iff.mp ht
  refine .of_parts _ trivial fun y a ha => ?_
  obtain ⟨-, rfl⟩ := Expr.mem_parts_lambda.mp ha
  exact hb _ hbody

/-! ## Bindings -/

/-- What the pass makes of an expression with fewer than `n` bindings is settled. -/
structure Pass.Settles (p : Pass) (n : Nat) : Prop where
  simplify : ∀ e, letCount e < n → ∀ t ∈ p.simplify e, Settled t
  eliminate : ∀ x e, letCount e < n → ∀ t ∈ p.eliminate x e, Settled t

theorem settled_letIn {x : Var} {bound guard body : Expr} (hb : Settled bound) (hg : Settled guard)
    (hbody : Settled body) (hrest : AtRest (.letIn x bound guard body)) : Settled (.letIn x bound guard body) := by
  refine .of_parts _ hrest fun y a ha => ?_
  obtain ⟨-, rfl⟩ | ⟨-, rfl⟩ | ⟨-, rfl⟩ := Expr.mem_parts_letIn.mp ha
  · exact hb
  · exact hg
  · exact hbody

theorem settled_simplifyLet {p : Pass} {n : Nat} (hp : p.Settles n) {x : Var} {bound guard body : Option Expr}
    (hb : ∀ a ∈ bound, Settled a) (hg : ∀ a ∈ guard, Settled a) (hbody : ∀ a ∈ body, Settled a)
    (hn : letCountOpt body < n) : ∀ t ∈ simplifyLet p x bound guard body, Settled t := by
  intro t ht
  match body, guard with
  | none, _ => cases ht
  | some _, none => cases ht
  | some body, some guard =>
    have hg := hg guard rfl
    have hbody := hbody body rfl
    rw [letCountOpt_some] at hn
    simp only [simplifyLet] at ht
    by_cases htrue : guard.isTrueLiteral = true
    · by_cases hmentions : body.mentions x.id = true
      · simp only [htrue, hmentions, Bool.not_true, Bool.false_eq_true, if_false] at ht
        match bound with
        | none => exact hp.eliminate x.id body hn t ht
        | some b =>
          simp only at ht
          by_cases hatom : isAtom b = true
          · rw [if_pos hatom] at ht
            refine hp.simplify _ ?_ t ht
            rwa [letCount_substitute (letCount_of_isAtom hatom)]
          · by_cases hvar : body.isVar x.id = true
            · rw [if_neg hatom, if_pos hvar] at ht
              exact hb t ht
            · rw [if_neg hatom, if_neg hvar] at ht
              cases ht
              refine settled_letIn (hb b rfl) hg hbody fun q => ?_
              simp only [simplifyLet, htrue, hmentions, Bool.not_true, Bool.false_eq_true, if_false, if_neg hatom,
                if_neg hvar]
      · simp only [htrue, hmentions, Bool.not_true, Bool.not_false, Bool.false_eq_true, if_false, if_true] at ht
        cases ht
        exact hbody
    · simp only [htrue, Bool.not_false, if_true] at ht
      obtain ⟨b, hbound, rfl⟩ := Option.map_eq_some_iff.mp ht
      refine settled_letIn (hb b hbound) hg hbody fun q => ?_
      simp only [simplifyLet, htrue, Bool.not_false, if_true, Option.map_some]

/-! ## Passes -/

section
variable {p : Pass} {f : Expr → Option Expr}

theorem Traversal.settled (hf : Traversal p f) (hadds : p.AddsNone) {n : Nat} (hp : p.Settles n) :
    ∀ e, letCount e < n + 1 → ∀ t ∈ f e, Settled t := by
  refine Expr.parts_induction fun e ih he t ht => ?_
  have hpart : ∀ x a, (x, a) ∈ e.parts → ∀ t ∈ f a, Settled t := fun x a ha =>
    ih x a ha (Nat.lt_of_le_of_lt (letCount_le_of_mem_parts ha) he)
  have hbind : ∀ {a : Option Expr}, (∀ b, a = some b → (none, b) ∈ e.parts) → ∀ t ∈ a.bind f, Settled t := by
    intro a ha t ht
    obtain ⟨b, hb, ht⟩ := Option.bind_eq_some_iff.mp ht
    exact hpart none b (ha b hb) t ht
  cases e with
  | val v =>
    rw [hf.val] at ht
    cases ht
    exact settled_val v
  | ref x =>
    rw [hf.ref x t ht]
    exact settled_ref x
  | op o l r span =>
    rw [hf.op] at ht
    exact settled_simplifyOp (hpart none l Expr.left_mem_parts)
      (hbind fun b hb => Expr.mem_parts_op.mpr ⟨rfl, Or.inr hb⟩) t ht
  | tuple fields =>
    rw [hf.tuple] at ht
    refine settled_simplifyTuple (fun a ha => ?_) t ht
    obtain ⟨b, hb, hba⟩ := List.mem_map.mp ha
    exact hbind (fun c hc => Expr.mem_parts_tuple.mpr ⟨rfl, hc ▸ hb⟩) a hba
  | cond test yes no =>
    rw [hf.cond] at ht
    exact settled_simplifyCond (hpart none test (Expr.mem_parts_cond.mpr ⟨rfl, Or.inl rfl⟩))
      (hbind fun b hb => Expr.mem_parts_cond.mpr ⟨rfl, Or.inr (Or.inl hb)⟩)
      (hbind fun b hb => Expr.mem_parts_cond.mpr ⟨rfl, Or.inr (Or.inr hb)⟩) t ht
  | forIn x source guard body =>
    rw [hf.forIn] at ht
    exact settled_simplifyLoop (hpart none source (by simp [Expr.parts]))
      (hpart (some x.id) guard (by simp [Expr.parts])) (hpart (some x.id) body (by simp [Expr.parts])) t ht
  | letIn x bound guard body =>
    rw [hf.letIn] at ht
    rw [letCount] at he
    refine settled_simplifyLet hp (hpart none bound (by simp [Expr.parts]))
      (hpart (some x.id) guard (by simp [Expr.parts])) (hpart (some x.id) body (by simp [Expr.parts])) ?_ t ht
    have := hf.letCountOpt_le hadds body
    omega
  | lambda x body =>
    rw [hf.lambda] at ht
    exact settled_lambda (hpart (some x.id) body (by simp [Expr.parts])) t ht

end

theorem settles_pass : ∀ n, (pass n).Settles n
  | 0 => ⟨fun _ h => absurd h (Nat.not_lt_zero _), fun _ _ h => absurd h (Nat.not_lt_zero _)⟩
  | n + 1 => ⟨(traversal_simplifyWith _).settled (addsNone_pass n) (settles_pass n),
      fun x => (traversal_eliminateWith _ x).settled (addsNone_pass n) (settles_pass n)⟩

theorem settled_simplify {t : Expr} (h : simplify e = some t) : Settled t :=
  (settles_pass _).simplify e (Nat.lt_succ_self _) t h

theorem simplify_of_settled (h : Settled e) : simplify e = some e :=
  simplifyWith_of_settled _ e h

/-- Simplifying once is enough. -/
theorem simplify_simplify {t : Expr} (h : simplify e = some t) : simplify t = some t :=
  simplify_of_settled (settled_simplify h)

/-- The expression `let x = y in let x = x + 2 in (-(3 - (x + (4 + 5))), nil, let z = nil in z || x)`. -/
def rebound : Expr :=
  .letAlways ⟨1, "x"⟩ (.ref 0) (.letAlways ⟨1, "x"⟩ (.binary .add (.ref 1) (int 2)) (.tuple [
    some (.unary .neg (.binary .sub (int 3) (.binary .add (.ref 1) (.binary .add (int 4) (int 5))))),
    none,
    some (.letAlways ⟨2, "z"⟩ (.cond (.ref 1) none none) (.binary .logOr (.ref 2) (.ref 1)))]))

def regrouped : Expr :=
  .tuple [some (.binary .sub (.binary .add (int 9) (.ref 0)) (int 3)), some (.binary .logOr (int 0) (.ref 0))]

theorem simplify_simplify_rebound : simplify rebound = some regrouped ∧ simplify regrouped = some regrouped :=
  ⟨rfl, simplify_simplify (e := rebound) rfl⟩

end Provenance.Prepare
