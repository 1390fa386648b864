import Provenance.Prepare.IndexScan
import Provenance.Proofs.Prepare.LetCount

/-!
# The rules on expressions with other sources

The rules look at literals, at references and at how operators are nested,
which `indexScans` leaves as they are. So it makes no difference whether the
scans below a node are replaced before the rule for the node is applied or in
its result, for operators (`simplifyOp_indexScans`), conditions and tuples. The
exceptions are the nodes that bind a variable.
-/

namespace Provenance.Prepare

open Provenance.Expr (int ofBool)

variable {e l r : Expr} {o : Operator} {span : Option Span}

/-! ## What the rules look at -/

@[simp] theorem literal?_indexScans (e : Expr) : (indexScans e).literal? = e.literal? := by
  cases e <;> rfl

@[simp] theorem isLiteral_indexScans (e : Expr) : (indexScans e).isLiteral = e.isLiteral := by
  simp [Expr.isLiteral]

@[simp] theorem int?_indexScans (e : Expr) : (indexScans e).int? = e.int? := by
  simp [Expr.int?]

@[simp] theorem isTrueLiteral_indexScans (e : Expr) : (indexScans e).isTrueLiteral = e.isTrueLiteral := by
  simp [Expr.isTrueLiteral]

@[simp] theorem isFalseLiteral_indexScans (e : Expr) : (indexScans e).isFalseLiteral = e.isFalseLiteral := by
  simp [Expr.isFalseLiteral]

@[simp] theorem isVar_indexScans (x : VarId) (e : Expr) : (indexScans e).isVar x = e.isVar x := by
  cases e <;> rfl

@[simp] theorem isAtom_indexScans (e : Expr) : isAtom (indexScans e) = isAtom e := by
  cases e <;> rfl

@[simp] theorem isEmptyText_indexScans (e : Expr) : isEmptyText (indexScans e) = isEmptyText e := by
  cases e <;> rfl

@[simp] theorem isTruthValue_indexScans (e : Expr) : isTruthValue (indexScans e) = isTruthValue e := by
  cases e <;> rfl

@[simp] theorem indexScansOpt_eq (e : Option Expr) : indexScansOpt e = e.map indexScans := by
  cases e <;> rfl

@[simp] theorem indexScansAll_eq (es : List (Option Expr)) : indexScansAll es = es.map (·.map indexScans) := by
  induction es with
  | nil => rfl
  | cons e es ih => rw [indexScansAll, indexScansOpt_eq, ih, List.map_cons]

@[simp] theorem indexScans_val (v : Value) : indexScans (.val v) = .val v :=
  rfl

@[simp] theorem indexScans_int (a : Int64) : indexScans (int a) = int a :=
  indexScans_val _

@[simp] theorem indexScans_ofBool (b : Bool) : indexScans (ofBool b) = ofBool b :=
  indexScans_val _

@[simp] theorem indexScans_ref (x : VarId) : indexScans (.ref x) = .ref x :=
  rfl

@[simp] theorem indexScans_op (r : Option Expr) :
    indexScans (.op o l r span) = .op o (indexScans l) (r.map indexScans) span := by
  rw [← indexScansOpt_eq]
  rfl

@[simp] theorem indexScans_tuple (fields : List (Option Expr)) :
    indexScans (.tuple fields) = .tuple (fields.map (·.map indexScans)) := by
  rw [← indexScansAll_eq]
  rfl

@[simp] theorem indexScans_cond (test : Expr) (yes no : Option Expr) :
    indexScans (.cond test yes no) = .cond (indexScans test) (yes.map indexScans) (no.map indexScans) := by
  rw [← indexScansOpt_eq, ← indexScansOpt_eq]
  rfl

/-! ## Operators -/

theorem indexScans_rightSide :
    indexScans (rightSide o l r span) = rightSide o (indexScans l) (indexScans r) span := by
  cases r with
  | op o' a b s => cases o' <;> simp [rightSide]
  | val v => simp [rightSide]
  | _ => simp [rightSide, indexScans]

theorem indexScans_simplifyAnd (l r : Option Expr) :
    indexScans (simplifyAnd l r span) = simplifyAnd (l.map indexScans) (r.map indexScans) span := by
  cases l <;> cases r <;> simp only [simplifyAnd, Option.map, indexScans_int]
  simp [apply_ite indexScans, indexScans_rightSide]

theorem indexScans_simplifyOr (l r : Option Expr) :
    indexScans (simplifyOr l r span) = simplifyOr (l.map indexScans) (r.map indexScans) span := by
  cases l <;> cases r <;> simp [simplifyOr, apply_ite indexScans, indexScans_rightSide]

theorem indexScans_simplifyNot : indexScans (simplifyNot e span) = simplifyNot (indexScans e) span := by
  cases e with
  | op o a b s => cases o <;> simp [simplifyNot, apply_ite indexScans]
  | val v => simp [simplifyNot]
  | _ => simp [simplifyNot, indexScans]

theorem indexScans_simplifyNeg : indexScans (simplifyNeg e span) = simplifyNeg (indexScans e) span := by
  cases e with
  | op o a b s => cases o <;> cases b <;> simp [simplifyNeg]
  | val v => cases v <;> simp [simplifyNeg]
  | _ => simp [simplifyNeg, indexScans]

theorem indexScans_subFrom {a : Int64} : indexScans (subFrom a r span) = subFrom a (indexScans r) span := by
  unfold subFrom
  rw [int?_indexScans, apply_ite indexScans, indexScans_simplifyNeg]
  cases r.int? <;> simp

theorem indexScans_subOf {b : Int64} : indexScans (subOf l b span) = subOf (indexScans l) b span := by
  simp [subOf, apply_ite indexScans]

theorem indexScans_addTo {a : Int64} : indexScans (addTo a r span) = addTo a (indexScans r) span := by
  fun_induction addTo a r span with
  | case1 =>
    unfold addTo
    rw [if_pos rfl]
  | case2 => simp [addTo, *]
  | case3 => simp [addTo, *]
  | case4 => simp [addTo, *]
  | case5 => simp [addTo, *, indexScans_subFrom]
  | case6 => simp [addTo, *, indexScans_subOf]
  | case7 => simp [addTo, *]
  | case8 r a span ha hint hadd hsub =>
    cases r with
    | op o a b s => cases o <;> cases b <;> simp_all [addTo]
    | val v => cases v <;> simp_all [addTo]
    | _ => simp [addTo, indexScans, *]

theorem indexScans_mulBy {a : Int64} : indexScans (mulBy a r span) = mulBy a (indexScans r) span := by
  fun_induction mulBy a r span with
  | case1 =>
    unfold mulBy
    rw [if_pos rfl, indexScans_int]
  | case2 =>
    unfold mulBy
    rw [if_neg ‹_›, if_pos rfl]
  | case6 r a span ha ha' hint hmul =>
    cases r with
    | op o a b s => cases o <;> cases b <;> simp_all [mulBy]
    | val v => cases v <;> simp_all [mulBy]
    | _ => simp [mulBy, indexScans, *]
  | _ => simp [mulBy, *]

theorem indexScans_simplifyAdd :
    indexScans (simplifyAdd l r span) = simplifyAdd (indexScans l) (indexScans r) span := by
  unfold simplifyAdd
  rw [int?_indexScans, int?_indexScans]
  cases l.int? <;> cases r.int? <;> simp [indexScans_addTo, apply_ite indexScans]

theorem indexScans_simplifySub :
    indexScans (simplifySub l r span) = simplifySub (indexScans l) (indexScans r) span := by
  unfold simplifySub
  rw [int?_indexScans, int?_indexScans]
  cases l.int? <;> cases r.int? <;> simp [indexScans_subFrom, indexScans_subOf]

theorem indexScans_simplifyMul :
    indexScans (simplifyMul l r span) = simplifyMul (indexScans l) (indexScans r) span := by
  unfold simplifyMul
  rw [int?_indexScans, int?_indexScans]
  cases l.int? <;> cases r.int? <;> simp [indexScans_mulBy, apply_ite indexScans]

theorem indexScans_simplifyDivision {divide : Int64 → Int64 → Int64} :
    indexScans (simplifyDivision o divide l r span) = simplifyDivision o divide (indexScans l) (indexScans r) span := by
  unfold simplifyDivision
  rw [int?_indexScans, int?_indexScans]
  cases l.int? <;> cases r.int? <;> simp [apply_ite indexScans]

theorem indexScans_simplifyOrder {holds : Int64 → Int64 → Bool} :
    indexScans (simplifyOrder o holds l r span) = simplifyOrder o holds (indexScans l) (indexScans r) span := by
  unfold simplifyOrder
  rw [int?_indexScans, int?_indexScans]
  cases l.int? <;> cases r.int? <;> simp

theorem indexScans_simplifyEq :
    indexScans (simplifyEq l r span) = simplifyEq (indexScans l) (indexScans r) span := by
  cases l <;> cases r <;> simp [simplifyEq, indexScans, apply_ite indexScans]

theorem indexScans_simplifyNe :
    indexScans (simplifyNe l r span) = simplifyNe (indexScans l) (indexScans r) span := by
  cases l <;> cases r <;> simp [simplifyNe, indexScans]

theorem indexScans_simplifyConcat :
    indexScans (simplifyConcat l r span) = simplifyConcat (indexScans l) (indexScans r) span := by
  unfold simplifyConcat
  rw [isEmptyText_indexScans, isEmptyText_indexScans, apply_ite indexScans, apply_ite indexScans]
  congr 2
  cases l with
  | val v => cases r with
    | val w => cases v <;> cases w <;> simp
    | _ => simp [indexScans]
  | _ => simp [indexScans]

theorem indexScans_simplifyBinary :
    indexScans (simplifyBinary o l r span) = simplifyBinary o (indexScans l) (indexScans r) span := by
  cases o <;> simp [simplifyBinary, indexScans_simplifyEq, indexScans_simplifyNe, indexScans_simplifyOrder,
    indexScans_simplifyAdd, indexScans_simplifySub, indexScans_simplifyMul, indexScans_simplifyDivision,
    indexScans_simplifyConcat]

theorem indexScans_simplifyUnary :
    indexScans (simplifyUnary o e span) = simplifyUnary o (indexScans e) span := by
  unfold simplifyUnary
  split
  · exact indexScans_simplifyNot
  · exact indexScans_simplifyNeg
  · simp

theorem simplifyOp_indexScans (l r : Option Expr) :
    simplifyOp o (l.map indexScans) (r.map indexScans) span = (simplifyOp o l r span).map indexScans := by
  unfold simplifyOp
  split
  · simp [indexScans_simplifyAnd]
  · simp [indexScans_simplifyOr]
  iterate 2 cases l <;> cases r <;> simp [indexScans_simplifyBinary]
  · split
    · cases l <;> simp [indexScans_simplifyUnary]
    · cases l <;> cases r <;> simp [indexScans_simplifyBinary]

/-! ## Conditions and tuples -/

theorem simplifyCond_indexScans (test yes no : Option Expr) :
    simplifyCond (test.map indexScans) (yes.map indexScans) (no.map indexScans) =
      (simplifyCond test yes no).map indexScans := by
  cases test with
  | none => rfl
  | some test =>
    simp only [simplifyCond, Option.map_some, Option.isNone_map, literal?_indexScans]
    split
    · rfl
    · cases test.literal? with
      | none => simp
      | some v => exact (apply_ite (Option.map indexScans) _ _ _).symm

theorem simplifyTuple_indexScans (fields : List (Option Expr)) :
    simplifyTuple (fields.map (·.map indexScans)) = (simplifyTuple fields).map indexScans := by
  have hfields : (fields.map (·.map indexScans)).filterMap id = (fields.filterMap id).map indexScans := by
    rw [List.filterMap_map, List.map_filterMap]
    rfl
  unfold simplifyTuple
  rw [hfields]
  match fields.filterMap id with
  | [] => rfl
  | [e] => rfl
  | a :: b :: es =>
    have hall : ((a :: b :: es).map indexScans).all Expr.isLiteral = (a :: b :: es).all Expr.isLiteral := by
      simp [List.all_map, Function.comp_def]
    have hlits : ((a :: b :: es).map indexScans).filterMap Expr.literal? = (a :: b :: es).filterMap Expr.literal? := by
      rw [List.filterMap_map]
      exact congrFun (congrArg List.filterMap (funext literal?_indexScans)) _
    simp only [List.map_cons] at hall hlits ⊢
    rw [hall, hlits, apply_ite (Option.map indexScans), Option.map_some, Option.map_some, indexScans_val,
      indexScans_tuple]
    simp [Function.comp_def]

end Provenance.Prepare
