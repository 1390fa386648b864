import Provenance.Proofs.Path.Evaluation
import Provenance.Proofs.Path.Extraction
import Provenance.Proofs.Value.Domain

/-!
# Lists that need no check

Paths and `filter` put their results into a list one by one, and each is checked
to be of the kind of those before it. The check never fails: all walks of a path
extract equally much, and what `filter` keeps was in one list before. So both do
what they would do without the check (`lists_unchecked`).
-/

namespace Provenance

namespace Path

open Eval
open Members (ofObjects)

/-! ## The results of a path -/

def extractCount (e : Expr) : Nat :=
  (Segment.ofPath e).countP Segment.extract

/-- The results of walks that extract `k` objects each: none, an object, or a tuple for each walk. -/
def resultList : Nat → List (List ObjectId) → List Value
  | 0, _ => []
  | 1, found => ofObjects found.flatten
  | _, found => found.map fun ps => .tuple (ofObjects ps)

/-- The list holds nothing, only objects, or only tuples of `k` objects. -/
def Shaped : Nat → List Value → Prop
  | 0, vs => vs = []
  | 1, vs => ∃ ps, vs = ofObjects ps
  | k, vs => ∀ v ∈ vs, ∃ ps, ps.length = k ∧ v = .tuple (ofObjects ps)

/-- The value of a path if the results go into the list as they come. -/
def evaluateUnchecked (ev : Expr → Eval (Option Value)) (e : Expr) : Eval (Option Value) := do
  let scope ← currentScope
  let r := route scope e
  note fun _ => "path: " ++ toString r.segments.length ++ " entries, " ++ r.direction.text
  let found ← indented do
    noteRoute r
    walks ev r
  let result := Value.listOf (resultList (extractCount e) (found.map (inOrder r.direction)))
  note fun _ => "path => " ++ result.text
  return some result

theorem whole_route_iff {scope : Scope (Option Value)} {e : Expr} {ps : List ObjectId} :
    (route scope e).Whole ps ↔ ps.length = extractCount e := by
  have hcount : (route scope e).segments.countP Segment.extract = extractCount e := by
    simp only [route, extractCount]
    split
    · exact List.countP_reverse
    · rfl
  rw [Route.Whole, hcount]

theorem length_inOrder (d : Direction) (ps : List ObjectId) : (inOrder d ps).length = ps.length := by
  cases d with
  | forward => exact List.length_reverse
  | backward => rfl

theorem tag_of_resultOf {ps : List ObjectId} {v : Value} (h : resultOf ps = some v) :
    v.tag = if ps.length = 1 then .object else .tuple := by
  match ps with
  | [] => cases h
  | [p] =>
    cases h
    rfl
  | p :: q :: ps =>
    cases h
    rw [if_neg (by simp)]
    rfl

theorem filterMap_resultOf {k : Nat} {found : List (List ObjectId)} (h : ∀ ps ∈ found, ps.length = k) :
    found.filterMap resultOf = resultList k found := by
  match k with
  | 0 =>
    rw [resultList, List.filterMap_eq_nil_iff]
    intro ps hps
    rw [List.eq_nil_of_length_eq_zero (h ps hps)]
    rfl
  | 1 =>
    rw [resultList]
    induction found with
    | nil => rfl
    | cons ps found ih =>
      obtain ⟨p, rfl⟩ := List.length_eq_one_iff.mp (h ps List.mem_cons_self)
      rw [List.filterMap_cons_some (f := resultOf) rfl, ih fun qs hqs => h qs (List.mem_cons_of_mem _ hqs)]
      rfl
  | k + 2 =>
    have htuple : ∀ ps ∈ found, resultOf ps = some (.tuple (ofObjects ps)) := by
      intro ps hps
      match ps, h ps hps with
      | p :: q :: ps, _ => rfl
    rw [List.filterMap_congr htuple]
    exact congrFun List.filterMap_eq_map found

theorem shaped_resultList {k : Nat} {found : List (List ObjectId)} (h : ∀ ps ∈ found, ps.length = k) :
    Shaped k (resultList k found) := by
  match k with
  | 0 => exact rfl
  | 1 => exact ⟨_, rfl⟩
  | k + 2 =>
    intro v hv
    obtain ⟨ps, hps, rfl⟩ := List.mem_map.mp hv
    exact ⟨ps, h ps hps, rfl⟩

section
variable (ev : Expr → Eval (Option Value)) (e : Expr)

theorem returns_found (scope : Scope (Option Value)) :
    Returns (walks ev (route scope e)) fun found => ∀ ps ∈ found, ps.length = extractCount e := by
  intro c s found s' h ps hps
  exact whole_route_iff.mp (returns_walks (proper_route scope e) c s found s' h ps hps)

theorem returns_found_noted (scope : Scope (Option Value)) :
    Returns (indented (noteRoute (route scope e) >>= fun _ => walks ev (route scope e))) fun found =>
      ∀ ps ∈ found.map (inOrder (route scope e).direction), ps.length = extractCount e := by
  refine .indented (.andThen fun _ c s found s' h ps hps => ?_)
  obtain ⟨qs, hqs, rfl⟩ := List.mem_map.mp hps
  rw [length_inOrder]
  exact returns_found ev e scope c s found s' h qs hqs

theorem evaluate_eq_unchecked : Path.evaluate ev e = evaluateUnchecked ev e := by
  unfold Path.evaluate evaluateUnchecked
  refine congrArg (currentScope >>= ·) (funext fun scope => ?_)
  refine congrArg (note _ >>= ·) (funext fun _ => ?_)
  refine (returns_found_noted ev e scope).bind_congr fun found hfound => ?_
  have htag : ∀ ps ∈ found, ∀ v, resultOf (inOrder (route scope e).direction ps) = some v →
      v.tag = if extractCount e = 1 then .object else .tuple := by
    intro ps hps v hv
    rw [tag_of_resultOf hv, hfound _ (List.mem_map_of_mem hps)]
  have hlist : (found.filterMap fun ps => resultOf (inOrder (route scope e).direction ps)) =
      resultList (extractCount e) (found.map (inOrder (route scope e).direction)) := by
    rw [← filterMap_resultOf hfound, List.filterMap_map]
    rfl
  obtain ⟨l, hl, hvalue⟩ := exists_gatherResults e.span? htag
  rw [hl, pure_bind, hvalue, hlist]

theorem returns_evaluate :
    Returns (Path.evaluate ev e) fun v => ∃ vs, v = some (.listOf vs) ∧ Shaped (extractCount e) vs := by
  rw [evaluate_eq_unchecked]
  refine .andThen fun scope => .andThen fun _ => (returns_found_noted ev e scope).bind fun found hfound => ?_
  exact .andThen fun _ => .pure ⟨_, rfl, shaped_resultList hfound⟩

end

end Path

namespace Eval

open Members (OfOneKind)

/-! ## The members that a predicate accepts -/

section
variable (ev : Expr → Eval (Option Value)) (id : UInt64) (x : Var) (body : Expr)

def accepts (v : Value) : Eval Bool := do
  let r ← applyClosure ev id x body v
  return truth r

variable {ev id x body}

theorem keepWhere_eq {span : Option Span} {t : Tag} : ∀ {vs kept : List Value}, (∀ v ∈ vs, v.tag = t) →
    (∀ v ∈ kept, v.tag = t) → keepWhere ev id x body span vs (.of kept) =
      List.filterAuxM (accepts ev id x body) vs kept >>= fun kept => pure (.of kept)
  | [], kept, _, _ => rfl
  | v :: vs, kept, hvs, hkept => by
    have hrest : ∀ u ∈ vs, u.tag = t := fun u hu => hvs u (List.mem_cons_of_mem v hu)
    have hkept' : ∀ u ∈ v :: kept, u.tag = t := List.forall_mem_cons.mpr ⟨hvs v List.mem_cons_self, hkept⟩
    rw [keepWhere, List.filterAuxM, accepts, bind_assoc, bind_assoc]
    refine congrArg (applyClosure ev id x body v >>= ·) (funext fun r => ?_)
    rw [pure_bind]
    cases truth r with
    | false =>
      rw [if_neg Bool.false_ne_true, keep, pure_bind]
      exact keepWhere_eq hrest hkept
    | true =>
      rw [if_pos rfl, keep_of_push (Tagged.push_of (Members.ofOneKind_of_forall hkept')), pure_bind]
      exact keepWhere_eq hrest hkept'

end

theorem returns_filterAuxM {α : Type} (p : α → Eval Bool) : ∀ as acc : List α,
    Returns (List.filterAuxM p as acc) fun out => ∃ kept : List α, kept.Sublist as ∧ out = kept.reverse ++ acc
  | [], acc => .pure ⟨[], .slnil, rfl⟩
  | a :: as, acc => by
    rw [List.filterAuxM]
    refine .andThen fun b c s out s' h => ?_
    obtain ⟨kept, hkept, rfl⟩ := returns_filterAuxM p as (cond b (a :: acc) acc) c s out s' h
    cases b with
    | false => exact ⟨kept, hkept.cons a, rfl⟩
    | true => exact ⟨a :: kept, hkept.cons_cons a, by simp⟩

theorem returns_filterM {α : Type} (p : α → Eval Bool) (as : List α) :
    Returns (as.filterM p) (List.Sublist · as) := by
  rw [List.filterM]
  refine (returns_filterAuxM p as []).bind fun out hout => .pure ?_
  obtain ⟨kept, hkept, rfl⟩ := hout
  simpa using hkept

theorem filterList_eq {ev : Expr → Eval (Option Value)} {id : UInt64} {x : Var} {body : Expr} {kind : Option Tag}
    {members : Members} {span : Option Span} (h : OfOneKind members) :
    filterList ev (.tuple [.lambda id x body, .list kind members]) span =
      members.filterM (accepts ev id x body) >>= fun kept => pure (some (.listOf kept)) := by
  have htag : ∃ t, ∀ v ∈ members, v.tag = t := by
    cases members with
    | nil => exact ⟨.int, List.forall_mem_nil _⟩
    | cons v vs => exact ⟨v.tag, fun w hw => h w hw v List.mem_cons_self⟩
  obtain ⟨t, ht⟩ := htag
  rw [filterList, Tagged.empty_eq, keepWhere_eq ht (List.forall_mem_nil _), List.filterM, bind_assoc, bind_assoc]
  refine (returns_filterAuxM _ members []).bind_congr fun out hout => ?_
  obtain ⟨kept, hkept, rfl⟩ := hout
  rw [pure_bind, pure_bind, List.append_nil, Tagged.reverse_of, Tagged.value_of]
  exact Tagged.ofOneKind_reverse_iff.mpr (h.subset hkept.subset)

/-! ## Both lists -/

/-- The results of a path go into its list as they come, and so do the members that `filter` keeps. All
walks of a path extract as many objects as it has segments to extract; `filter` keeps the members
that the predicate accepts, in their order. -/
theorem lists_unchecked (ev : Expr → Eval (Option Value)) :
    (∀ e, Path.evaluate ev e = Path.evaluateUnchecked ev e ∧
      (∀ scope, Returns (Path.walks ev (Path.route scope e)) fun found =>
        ∀ ps ∈ found, ps.length = Path.extractCount e) ∧
      Returns (Path.evaluate ev e) fun v => ∃ vs, v = some (.listOf vs) ∧ Path.Shaped (Path.extractCount e) vs) ∧
    ∀ id x body kind members span, OfOneKind members →
      filterList ev (.tuple [.lambda id x body, .list kind members]) span =
        (members.filterM (accepts ev id x body) >>= fun kept => pure (some (.listOf kept))) ∧
      Returns (members.filterM (accepts ev id x body)) (List.Sublist · members) := by
  constructor
  · intro e
    exact ⟨Path.evaluate_eq_unchecked ev e, Path.returns_found ev e, Path.returns_evaluate ev e⟩
  · intro id x body kind members span h
    exact ⟨filterList_eq h, returns_filterM _ _⟩

/-- The path `extract(1) ->* extract(ALL)`. -/
def bothEnds : Expr :=
  .binary .stepsZ (.unary .extract (.object 1)) (.unary .extract Expr.all)

/-- The body `x > 1` of a predicate. -/
def aboveOne : Expr :=
  .binary .gt (.ref 0) (.int 1)

def pairs : List Value :=
  [.tuple [.object 1, .object 2], .tuple [.object 1, .object 3], .tuple [.object 1, .object 3]]

theorem lists_unchecked_bothEnds :
    (Path.evaluate (evaluateIn 3) bothEnds Path.triangle (.new false)).1 = .ok (some (.listOf pairs)) ∧
      (Path.evaluateUnchecked (evaluateIn 3) bothEnds Path.triangle (.new false)).1 = .ok (some (.listOf pairs)) ∧
      Path.extractCount bothEnds = 2 ∧ Path.Shaped 2 pairs ∧
      (filterList (evaluateIn 3) (.tuple [.lambda 0 ⟨0, "x"⟩ aboveOne, .listOf [.int 1, .int 2, .int 3]]) none
        Path.triangle (.new false)).1 = .ok (some (.listOf [.int 2, .int 3])) ∧
      OfOneKind [.int 1, .int 2, .int 3] ∧
      ([.int 1, .int 2, .int 3].filterM (accepts (evaluateIn 3) 0 ⟨0, "x"⟩ aboveOne) Path.triangle (.new false)).1 =
        .ok [.int 2, .int 3] := by
  have hvalue : (Path.evaluate (evaluateIn 3) bothEnds Path.triangle (.new false)).1 = .ok (some (.listOf pairs)) := by
    cbv
  have hrun : Path.evaluate (evaluateIn 3) bothEnds Path.triangle (.new false) =
      (.ok (some (.listOf pairs)), (Path.evaluate (evaluateIn 3) bothEnds Path.triangle (.new false)).2) := by
    rw [← hvalue]
  have hkept : ([.int 1, .int 2, .int 3].filterM (accepts (evaluateIn 3) 0 ⟨0, "x"⟩ aboveOne) Path.triangle
      (.new false)).1 = .ok [.int 2, .int 3] := by
    cbv
  have hcount : Path.extractCount bothEnds = 2 := by
    cbv
  have hkind : OfOneKind [.int 1, .int 2, .int 3] := Members.ofOneKind_of_forall (t := .int) (by decide)
  obtain ⟨hpaths, hfilter⟩ := lists_unchecked (evaluateIn 3)
  obtain ⟨heq, -, hshape⟩ := hpaths bothEnds
  obtain ⟨vs, hvs, hshaped⟩ := hshape _ _ _ _ hrun
  obtain ⟨hlist, -⟩ := hfilter 0 ⟨0, "x"⟩ aboveOne (some .int) _ none hkind
  obtain ⟨-, hmembers⟩ := Value.list.inj (Option.some.inj hvs)
  rw [← hmembers, hcount] at hshaped
  refine ⟨hvalue, ?_, hcount, hshaped, ?_, hkind, hkept⟩
  · rw [← heq]
    exact hvalue
  · refine (congrArg (fun m : Eval (Option Value) => (m Path.triangle (.new false)).1) hlist).trans ?_
    rw [bind_of_ok (Prod.ext hkept rfl : _ = (_, _))]
    rfl

end Eval

end Provenance
