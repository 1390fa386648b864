import Provenance.Prepare.Simplify
import Provenance.Proofs.Prepare.Rules

/-!
# Simplifying makes no bindings

No rule has more bindings in its result than in the parts it is given, and an
atom brings none along when it is substituted. So the passes for an expression
are enough for whatever simplifying makes of its parts (`addsNone_pass`).
-/

namespace Provenance.Prepare

open Provenance.Expr (int ofBool substitute substituteOpt substituteAll)

variable {e l r : Expr} {o : Operator} {span : Option Span}

@[simp] theorem letCount_int (a : Int64) : letCount (int a) = 0 := by
  rw [int, letCount]

@[simp] theorem letCount_ofBool (b : Bool) : letCount (ofBool b) = 0 := by
  rw [ofBool, letCount]

@[simp] theorem letCount_unary : letCount (.op o e none span) = letCount e := by
  rw [letCount, letCountOpt, Nat.add_zero]

@[simp] theorem letCount_binary : letCount (.op o l (some r) span) = letCount l + letCount r := by
  rw [letCount, letCountOpt]

@[simp] theorem letCountOpt_some : letCountOpt (some e) = letCount e := by
  rw [letCountOpt]

@[simp] theorem letCountOpt_none : letCountOpt none = 0 := by
  rw [letCountOpt]

theorem letCount_le_letCountAll {a : Expr} : ∀ {fields : List (Option Expr)}, some a ∈ fields →
    letCount a ≤ letCountAll fields
  | [], h => by cases h
  | f :: rest, h => by
    rw [letCountAll]
    rcases List.mem_cons.mp h with rfl | h
    · rw [letCountOpt_some]
      exact Nat.le_add_right _ _
    · exact Nat.le_trans (letCount_le_letCountAll h) (Nat.le_add_left _ _)

theorem letCount_le_of_mem_parts {a : Expr} {x : Option VarId} (h : (x, a) ∈ e.parts) : letCount a ≤ letCount e := by
  cases e with
  | val v => cases h
  | ref y => cases h
  | op o l r span =>
    rw [letCount]
    obtain ⟨-, rfl | rfl⟩ := Expr.mem_parts_op.mp h
    · exact Nat.le_add_right _ _
    · exact Nat.le_add_left _ _
  | tuple fields =>
    rw [letCount]
    exact letCount_le_letCountAll (Expr.mem_parts_tuple.mp h).2
  | cond test yes no =>
    rw [letCount]
    obtain ⟨-, rfl | rfl | rfl⟩ := Expr.mem_parts_cond.mp h
    · exact Nat.le_add_right _ _
    · rw [letCountOpt_some]
      omega
    · rw [letCountOpt_some]
      omega
  | forIn y source guard body =>
    rw [letCount]
    obtain ⟨-, rfl⟩ | ⟨-, rfl⟩ | ⟨-, rfl⟩ := Expr.mem_parts_forIn.mp h <;> omega
  | letIn y bound guard body =>
    rw [letCount]
    obtain ⟨-, rfl⟩ | ⟨-, rfl⟩ | ⟨-, rfl⟩ := Expr.mem_parts_letIn.mp h <;> omega
  | lambda y body =>
    obtain ⟨-, rfl⟩ := Expr.mem_parts_lambda.mp h
    exact Nat.le_refl _

/-! ## Operators -/

theorem letCount_rightSide : letCount (rightSide o l r span) ≤ letCount l + letCount r := by
  unfold rightSide
  split <;> simp

theorem letCount_simplifyAnd {l r : Option Expr} :
    letCount (simplifyAnd l r span) ≤ letCountOpt l + letCountOpt r := by
  unfold simplifyAnd
  split
  · split
    · exact letCount_rightSide
    · split <;> simp
  · simp

theorem letCount_simplifyOr {l r : Option Expr} :
    letCount (simplifyOr l r span) ≤ letCountOpt l + letCountOpt r := by
  unfold simplifyOr
  split
  · simp
  · simpa using letCount_rightSide (l := int 0)
  · split
    · simp
    · split <;> simp
  · split
    · simp
    · split
      · exact letCount_rightSide
      · simp

theorem letCount_simplifyNot : letCount (simplifyNot e span) ≤ letCount e := by
  unfold simplifyNot
  split
  · split
    · rw [letCount]
      exact Nat.le_add_right _ _
    · simp
  · simp
  · simp

theorem letCount_simplifyNeg : letCount (simplifyNeg e span) ≤ letCount e := by
  unfold simplifyNeg
  split
  · rw [letCount]
    exact Nat.le_add_right _ _
  · simp [Nat.add_comm]
  · simp
  · simp [letCount]
  · simp

theorem letCount_subFrom {a : Int64} : letCount (subFrom a r span) ≤ letCount r := by
  unfold subFrom
  split
  · exact letCount_simplifyNeg
  · split <;> simp

theorem letCount_subOf {b : Int64} : letCount (subOf l b span) ≤ letCount l := by
  unfold subOf
  split <;> simp

theorem letCount_addTo {a : Int64} : letCount (addTo a r span) ≤ letCount r := by
  fun_induction addTo a r span with
  | case3 a span ha left inner span' b hb ih =>
    rw [letCount_binary]
    exact Nat.le_trans ih (Nat.le_add_left _ _)
  | case5 a span ha left inner span' b hb =>
    rw [letCount_binary]
    exact Nat.le_trans letCount_subFrom (Nat.le_add_left _ _)
  | case6 a span ha left inner span' b hinner hleft =>
    rw [letCount_binary]
    exact Nat.le_trans letCount_subOf (Nat.le_add_right _ _)
  | _ => simp

theorem letCount_mulBy {a : Int64} : letCount (mulBy a r span) ≤ letCount r := by
  fun_induction mulBy a r span with
  | case4 a span ha ha' left inner span' b hb ih =>
    rw [letCount_binary]
    exact Nat.le_trans ih (Nat.le_add_left _ _)
  | _ => simp

theorem letCount_simplifyAdd : letCount (simplifyAdd l r span) ≤ letCount l + letCount r := by
  unfold simplifyAdd
  split
  · exact Nat.le_trans letCount_addTo (Nat.le_add_left _ _)
  · split
    · simp
    · exact Nat.le_trans letCount_addTo (Nat.le_add_right _ _)
  · split <;> simp [Nat.add_comm]

theorem letCount_simplifySub : letCount (simplifySub l r span) ≤ letCount l + letCount r := by
  unfold simplifySub
  split
  · exact Nat.le_trans letCount_subFrom (Nat.le_add_left _ _)
  · exact Nat.le_trans letCount_subOf (Nat.le_add_right _ _)
  · simp

theorem letCount_simplifyMul : letCount (simplifyMul l r span) ≤ letCount l + letCount r := by
  unfold simplifyMul
  split
  · exact Nat.le_trans letCount_mulBy (Nat.le_add_left _ _)
  · split
    · simp
    · exact Nat.le_trans letCount_mulBy (Nat.le_add_right _ _)
  · split <;> simp [Nat.add_comm]

theorem letCount_simplifyDivision {divide : Int64 → Int64 → Int64} :
    letCount (simplifyDivision o divide l r span) ≤ letCount l + letCount r := by
  unfold simplifyDivision
  split
  · split <;> simp
  · split
    · simp
    · split <;> simp
  · simp

theorem letCount_simplifyOrder {holds : Int64 → Int64 → Bool} :
    letCount (simplifyOrder o holds l r span) ≤ letCount l + letCount r := by
  unfold simplifyOrder
  split <;> simp

theorem letCount_simplifyEq : letCount (simplifyEq l r span) ≤ letCount l + letCount r := by
  unfold simplifyEq
  split
  · simp
  · split <;> simp
  · simp

theorem letCount_simplifyNe : letCount (simplifyNe l r span) ≤ letCount l + letCount r := by
  unfold simplifyNe
  split <;> simp

theorem letCount_simplifyConcat : letCount (simplifyConcat l r span) ≤ letCount l + letCount r := by
  unfold simplifyConcat
  split
  · exact Nat.le_add_left _ _
  · split
    · exact Nat.le_add_right _ _
    · split <;> simp [letCount]

theorem letCount_simplifyBinary : letCount (simplifyBinary o l r span) ≤ letCount l + letCount r := by
  unfold simplifyBinary
  split
  · exact letCount_simplifyEq
  · exact letCount_simplifyNe
  · exact letCount_simplifyOrder
  · exact letCount_simplifyOrder
  · exact letCount_simplifyOrder
  · exact letCount_simplifyOrder
  · exact letCount_simplifyAdd
  · exact letCount_simplifySub
  · exact letCount_simplifyMul
  · exact letCount_simplifyDivision
  · exact letCount_simplifyDivision
  · exact letCount_simplifyConcat
  · simp

theorem letCount_simplifyUnary : letCount (simplifyUnary o e span) ≤ letCount e := by
  unfold simplifyUnary
  split
  · exact letCount_simplifyNot
  · exact letCount_simplifyNeg
  · simp

theorem letCountOpt_simplifyOp {l r : Option Expr} :
    letCountOpt (simplifyOp o l r span) ≤ letCountOpt l + letCountOpt r := by
  unfold simplifyOp
  split
  · exact letCount_simplifyAnd
  · exact letCount_simplifyOr
  iterate 2 cases l <;> cases r <;> simp [letCount_simplifyBinary]
  · split
    · cases l with
      | none => simp
      | some l => exact Nat.le_trans letCount_simplifyUnary (Nat.le_add_right _ _)
    · split <;> simp [letCount_simplifyBinary]

/-! ## Loops, conditions and tuples -/

theorem letCountOpt_simplifyLoop {x : Var} {source guard body : Option Expr} :
    letCountOpt (simplifyLoop x source guard body) ≤
      letCountOpt source + (letCountOpt guard + letCountOpt body) := by
  unfold simplifyLoop
  split
  · split
    · simp
    · split <;> simp [letCount]
  · simp

theorem letCountOpt_simplifyCond {test yes no : Option Expr} :
    letCountOpt (simplifyCond test yes no) ≤ letCountOpt test + (letCountOpt yes + letCountOpt no) := by
  unfold simplifyCond
  split
  · simp
  · split
    · simp
    · split
      · split <;> omega
      · simp [letCount]

theorem letCountAll_filterMap : ∀ fields : List (Option Expr),
    letCountAll ((fields.filterMap id).map some) = letCountAll fields
  | [] => rfl
  | none :: rest => by
    rw [List.filterMap_cons_none rfl, letCountAll_filterMap rest, letCountAll, letCountOpt_none, Nat.zero_add]
  | some e :: rest => by
    rw [List.filterMap_cons_some (f := id) rfl, List.map_cons, letCountAll, letCountAll_filterMap rest, letCountAll]

theorem letCountOpt_simplifyTuple {fields : List (Option Expr)} :
    letCountOpt (simplifyTuple fields) ≤ letCountAll fields := by
  rw [← letCountAll_filterMap]
  unfold simplifyTuple
  generalize fields.filterMap id = es
  split
  · simp
  · simp [letCountAll]
  · split <;> simp [letCount]

/-! ## Bindings -/

theorem letCount_of_isAtom (h : isAtom e = true) : letCount e = 0 := by
  cases e <;> first | rfl | cases h

mutual

theorem letCount_substitute {x : VarId} {b : Expr} (hb : letCount b = 0) :
    ∀ e, letCount (substitute x b e) = letCount e
  | .val _ => rfl
  | .ref id => by
    rw [substitute]
    split
    · exact hb
    · rfl
  | .op _ l r _ => by
    rw [substitute, letCount, letCount, letCount_substitute hb l, letCountOpt_substituteOpt hb r]
  | .tuple fields => by
    rw [substitute, letCount, letCount, letCountAll_substituteAll hb fields]
  | .cond test yes no => by
    rw [substitute, letCount, letCount, letCount_substitute hb test, letCountOpt_substituteOpt hb yes,
      letCountOpt_substituteOpt hb no]
  | .forIn _ source guard body => by
    rw [substitute, letCount, letCount, letCount_substitute hb source, letCount_substitute hb guard,
      letCount_substitute hb body]
  | .letIn _ bound guard body => by
    rw [substitute, letCount, letCount, letCount_substitute hb bound, letCount_substitute hb guard,
      letCount_substitute hb body]
  | .lambda _ body => by
    rw [substitute, letCount, letCount, letCount_substitute hb body]

theorem letCountOpt_substituteOpt {x : VarId} {b : Expr} (hb : letCount b = 0) :
    ∀ e, letCountOpt (substituteOpt x b e) = letCountOpt e
  | none => rfl
  | some e => letCount_substitute hb e

theorem letCountAll_substituteAll {x : VarId} {b : Expr} (hb : letCount b = 0) :
    ∀ es, letCountAll (substituteAll x b es) = letCountAll es
  | [] => rfl
  | e :: es => by
    rw [substituteAll, letCountAll, letCountAll, letCountOpt_substituteOpt hb e, letCountAll_substituteAll hb es]

end

/-- What a pass makes of an expression has no more bindings. -/
structure Pass.AddsNone (p : Pass) : Prop where
  simplify : ∀ e, letCountOpt (p.simplify e) ≤ letCount e
  eliminate : ∀ x e, letCountOpt (p.eliminate x e) ≤ letCount e

theorem letCountOpt_simplifyLet {p : Pass} (hp : p.AddsNone) {x : Var} {bound guard body : Option Expr} :
    letCountOpt (simplifyLet p x bound guard body) ≤
      letCountOpt bound + (letCountOpt guard + letCountOpt body) + 1 := by
  unfold simplifyLet
  split
  · rename_i body guard
    simp only [letCountOpt_some]
    split
    · cases bound <;> simp [letCount]
    · split
      · simp only [letCountOpt_some]
        omega
      · split
        · have h := hp.eliminate x.id body
          omega
        · rename_i b
          split
          · have h := hp.simplify (substitute x.id b body)
            rw [letCount_substitute (letCount_of_isAtom ‹_›)] at h
            omega
          · split
            · simp only [letCountOpt_some]
              omega
            · simp [letCount]
  · simp

/-! ## Traversals -/

theorem simplifyOpt_eq (p : Pass) (e : Option Expr) : simplifyOpt p e = e.bind (simplifyWith p) := by
  cases e <;> rfl

theorem simplifyAll_eq (p : Pass) : ∀ es, simplifyAll p es = es.map (·.bind (simplifyWith p))
  | [] => rfl
  | e :: es => by rw [simplifyAll, simplifyOpt_eq, simplifyAll_eq p es, List.map_cons]

theorem eliminateOpt_eq (p : Pass) (x : VarId) (e : Option Expr) :
    eliminateOpt p x e = e.bind (eliminateWith p x) := by
  cases e <;> rfl

theorem eliminateAll_eq (p : Pass) (x : VarId) : ∀ es, eliminateAll p x es = es.map (·.bind (eliminateWith p x))
  | [] => rfl
  | e :: es => by rw [eliminateAll, eliminateOpt_eq, eliminateAll_eq p x es, List.map_cons]

/-- The function applies the rules to every node whose parts are done, and makes of a reference
itself or nothing. -/
structure Traversal (p : Pass) (f : Expr → Option Expr) : Prop where
  val : ∀ v, f (.val v) = some (.val v)
  ref : ∀ x, ∀ e ∈ f (.ref x), e = .ref x
  op : ∀ o l r span, f (.op o l r span) = simplifyOp o (f l) (r.bind f) span
  tuple : ∀ fields, f (.tuple fields) = simplifyTuple (fields.map (·.bind f))
  cond : ∀ test yes no, f (.cond test yes no) = simplifyCond (f test) (yes.bind f) (no.bind f)
  forIn : ∀ x source guard body, f (.forIn x source guard body) = simplifyLoop x (f source) (f guard) (f body)
  letIn : ∀ x bound guard body, f (.letIn x bound guard body) = simplifyLet p x (f bound) (f guard) (f body)
  lambda : ∀ x body, f (.lambda x body) = (f body).map (.lambda x)

theorem traversal_simplifyWith (p : Pass) : Traversal p (simplifyWith p) where
  val _ := rfl
  ref x e h := by
    cases h
    rfl
  op o l r span := by rw [simplifyWith, simplifyOpt_eq]
  tuple fields := by rw [simplifyWith, simplifyAll_eq]
  cond test yes no := by rw [simplifyWith, simplifyOpt_eq, simplifyOpt_eq]
  forIn _ _ _ _ := rfl
  letIn _ _ _ _ := rfl
  lambda _ _ := rfl

theorem traversal_eliminateWith (p : Pass) (x : VarId) : Traversal p (eliminateWith p x) where
  val _ := rfl
  ref y e h := by
    rw [eliminateWith] at h
    split at h <;> cases h
    rfl
  op o l r span := by rw [eliminateWith, eliminateOpt_eq]
  tuple fields := by rw [eliminateWith, eliminateAll_eq]
  cond test yes no := by rw [eliminateWith, eliminateOpt_eq, eliminateOpt_eq]
  forIn _ _ _ _ := rfl
  letIn _ _ _ _ := rfl
  lambda _ _ := rfl

section
variable {p : Pass} {f : Expr → Option Expr}

theorem letCountOpt_bind_le {e : Option Expr} (h : ∀ a ∈ e, letCountOpt (f a) ≤ letCount a) :
    letCountOpt (e.bind f) ≤ letCountOpt e := by
  cases e with
  | none => exact Nat.le_refl _
  | some a => exact h a rfl

theorem letCountAll_map_le : ∀ {es : List (Option Expr)}, (∀ a, some a ∈ es → letCountOpt (f a) ≤ letCount a) →
    letCountAll (es.map (·.bind f)) ≤ letCountAll es
  | [], _ => Nat.le_refl _
  | e :: es, h => by
    rw [List.map_cons, letCountAll, letCountAll]
    refine Nat.add_le_add (letCountOpt_bind_le fun a ha => h a ?_)
      (letCountAll_map_le fun a ha => h a (List.mem_cons_of_mem _ ha))
    rw [Option.mem_def.mp ha]
    exact List.mem_cons_self

theorem Traversal.letCountOpt_le (hf : Traversal p f) (hp : p.AddsNone) : ∀ e, letCountOpt (f e) ≤ letCount e := by
  refine Expr.parts_induction fun e ih => ?_
  cases e with
  | val v =>
    rw [hf.val]
    exact Nat.le_refl _
  | ref x =>
    cases h : f (.ref x) with
    | none => exact Nat.zero_le _
    | some e =>
      rw [hf.ref x e h]
      exact Nat.le_refl _
  | op o l r span =>
    rw [hf.op, letCount]
    refine Nat.le_trans letCountOpt_simplifyOp (Nat.add_le_add (ih none l (by simp [Expr.parts]))
      (letCountOpt_bind_le fun a ha => ih none a ?_))
    simp [Expr.parts, Option.mem_def.mp ha]
  | tuple fields =>
    rw [hf.tuple, letCount]
    refine Nat.le_trans letCountOpt_simplifyTuple (letCountAll_map_le fun a ha => ih none a ?_)
    simpa [Expr.parts] using ha
  | cond test yes no =>
    rw [hf.cond, letCount]
    refine Nat.le_trans letCountOpt_simplifyCond (Nat.add_le_add (ih none test (by simp [Expr.parts]))
      (Nat.add_le_add (letCountOpt_bind_le fun a ha => ih none a ?_)
        (letCountOpt_bind_le fun a ha => ih none a ?_)))
    · simp [Expr.parts, Option.mem_def.mp ha]
    · simp [Expr.parts, Option.mem_def.mp ha]
  | forIn x source guard body =>
    rw [hf.forIn, letCount]
    exact Nat.le_trans letCountOpt_simplifyLoop (Nat.add_le_add (ih none source (by simp [Expr.parts]))
      (Nat.add_le_add (ih (some x.id) guard (by simp [Expr.parts])) (ih (some x.id) body (by simp [Expr.parts]))))
  | letIn x bound guard body =>
    rw [hf.letIn, letCount]
    exact Nat.le_trans (letCountOpt_simplifyLet hp) (Nat.succ_le_succ (Nat.add_le_add
      (ih none bound (by simp [Expr.parts]))
      (Nat.add_le_add (ih (some x.id) guard (by simp [Expr.parts])) (ih (some x.id) body (by simp [Expr.parts])))))
  | lambda x body =>
    have h := ih (some x.id) body (by simp [Expr.parts])
    rw [hf.lambda, letCount]
    cases hbody : f body with
    | none => exact Nat.zero_le _
    | some b =>
      rw [hbody] at h
      exact h

end

theorem addsNone_pass : ∀ n, (pass n).AddsNone
  | 0 => ⟨fun _ => Nat.le_refl _, fun _ _ => Nat.le_refl _⟩
  | n + 1 => ⟨(traversal_simplifyWith _).letCountOpt_le (addsNone_pass n),
      fun x => (traversal_eliminateWith _ x).letCountOpt_le (addsNone_pass n)⟩

end Provenance.Prepare
