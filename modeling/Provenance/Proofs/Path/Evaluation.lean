import Mathlib.Data.List.Permutation
import Provenance.Proofs.Path.Generations

/-!
# The value of a path

The value of a path is the list of the results of all walks that match it, each
as often as the walk can be taken (`evaluate_path`).
-/

namespace Provenance.Path

open Eval

variable {c : Setting} {σ : Scope (Option Value)} {n : Nat}

/-! ## Walks -/

section
variable {r : Route} {pass : Nat → ObjectId → Bool} {neighbours : ObjectId → List ObjectId}

def Route.launched (r : Route) (seeds : Nat → List ObjectId) (starts : List Nat) : List Walker :=
  starts.flatMap fun i => (seeds i).flatMap fun p => r.successors i p (r.extend i p [])

theorem flatMap_launched {seeds : Nat → List ObjectId} :
    (r.launched seeds r.automaton.starts).flatMap (r.resultsFrom neighbours pass n) =
      (r.matching neighbours pass seeds n).map fun w => (r.picked w).reverse := by
  simp only [Route.launched, Route.matching, List.flatMap_assoc, List.map_flatMap, List.map_map]
  refine List.flatMap_congr fun i _ => ?_
  rw [← Route.flatMap_stopsAt fun i p => (r.successors i p (r.extend i p [])).flatMap
    (r.resultsFrom neighbours pass n)]
  refine List.flatMap_congr fun s hs => ?_
  obtain ⟨hsegment, -⟩ := mem_stopsAt.mp hs
  rw [Route.successors, List.flatMap_map, hsegment]
  refine List.flatMap_congr fun j _ => List.map_congr_left fun v _ => ?_
  have h := Route.picked_cons (r := r) s v []
  rw [List.append_nil, hsegment] at h
  exact h.symm

variable (htame : ∀ i, (r.test i).Tame c σ)
include htame

theorem ensures_launch : ∀ {starts : List Nat}, Ensures c σ (launch (evaluateIn n) r starts) fun live =>
    (∀ i ∈ starts, ∃ ps, Seeds c σ (r.test i) ps) ∧
      ∀ seeds, (∀ i ∈ starts, Seeds c σ (r.test i) (seeds i)) → live = r.launched seeds starts
  | [] => .pure ⟨nofun, fun _ _ => rfl⟩
  | i :: starts => by
    refine .note_bind ((Ensures.indented (ensures_startObjects (htame i))).bind fun ps hps => .note_bind ?_)
    refine ensures_launch.bind fun later ⟨hseeds, hlater⟩ => .pure ⟨fun j hj => ?_, fun seeds h => ?_⟩
    · rcases List.mem_cons.mp hj with rfl | hj
      · exact ⟨ps, hps⟩
      · exact hseeds j hj
    · rw [hlater seeds fun j hj => h j (List.mem_cons_of_mem i hj),
        Seeds.unique (htame i) hps (h i List.mem_cons_self)]
      rfl

/-- There are seeds to start from, and the results found are those of the walks that match the path. -/
theorem ensures_walks (hr : r.Proper) : Ensures c σ (walks (evaluateIn n) r) fun found =>
    (∀ i ∈ r.automaton.starts, ∃ ps, Seeds c σ (r.test i) ps) ∧
    ∃ ws : List (List Stop), ws.Nodup ∧ (∀ w, w ∈ ws ↔ r.Matches c σ w) ∧
      found.Perm (ws.map fun w => (r.picked w).reverse) := by
  classical
  let pass : Nat → ObjectId → Bool := fun i p => decide (Passes c σ (r.test i) p)
  have hpass : ∀ i p, pass i p = true ↔ Passes c σ (r.test i) p := fun i p => decide_eq_true_iff
  have hgenerations : Ensures c σ generations fun _ => True := by
    intro s a s' hs h
    unfold generations at h
    split at h <;> cases h <;> exact ⟨hs, trivial⟩
  refine (ensures_launch htame).bind fun live ⟨hex, hlive⟩ => hgenerations.bind fun m _ => ?_
  choose! seeds hseeds using hex
  refine (ensures_run hpass htame).mono fun found ⟨hfound, hlen⟩ => ?_
  have hiff : ∀ i ∈ r.automaton.starts, ∀ ps, Seeds c σ (r.test i) ps ↔ ps = seeds i := fun i hi ps =>
    ⟨fun h => h.unique (htame i) (hseeds i hi), fun h => h ▸ hseeds i hi⟩
  refine ⟨fun i hi => ⟨seeds i, hseeds i hi⟩, r.matching (r.direction.neighbours c.graph) pass seeds m,
    Route.nodup_matching hr seeds m, fun w => ?_, ?_⟩
  · rw [Route.mem_matching hr hpass hiff, and_iff_left_iff_imp]
    -- No walk that matches is longer than the run.
    intro hw
    obtain ⟨i, hi, s, hs, j, hj, v, hv, rfl⟩ : ∃ i ∈ r.automaton.starts, ∃ s ∈ stopsAt i (seeds i), ∃ j ∈ r.next i,
        ∃ v ∈ r.onward (r.direction.neighbours c.graph) pass w.length j s.object, s :: v = w := by
      have hmem := (Route.mem_matching (n := w.length) hr hpass hiff).mpr ⟨hw, Nat.le_succ _⟩
      simpa only [Route.matching, List.mem_flatMap, List.mem_map] using hmem
    refine Nat.succ_le_succ (hlen ⟨j, s.object, r.extend i s.object []⟩ ?_ v (Route.mem_onward.mp hv).1)
    rw [hlive seeds hseeds]
    refine List.mem_flatMap.mpr ⟨i, hi, List.mem_flatMap.mpr ⟨s.object, ?_, List.mem_map_of_mem hj⟩⟩
    exact List.mem_of_getElem? (mem_stopsAt.mp hs).2
  · rw [hlive seeds hseeds, flatMap_launched, List.reverse_nil, List.nil_append] at hfound
    exact hfound

end

/-! ## Results -/

theorem tag_of_resultFor {r : Route} {w : List Stop} {v : Value} (h : r.resultFor w = some v) :
    v.tag = if r.extractedAsWritten.length = 1 then .object else .tuple := by
  unfold Route.resultFor at h
  split at h
  · cases h
  · rename_i i heq
    obtain ⟨p, -, rfl⟩ := Option.map_eq_some_iff.mp h
    rw [heq]
    rfl
  · rename_i is hnil hone
    cases h
    rw [if_neg fun hlen => ?_]
    · rfl
    · obtain ⟨i, hi⟩ := List.length_eq_one_iff.mp hlen
      exact hone i hi

/-- Results of one kind are all kept. -/
theorem gatherResults_eq {d : Direction} {span : Option Span} {t : Tag} :
    ∀ {found : List (List ObjectId)} {gathered : List Value},
      (∀ ps ∈ found, ∀ v, resultOf (inOrder d ps) = some v → v.tag = t) → (∀ v ∈ gathered, v.tag = t) →
      gatherResults d span found (.of gathered) =
        pure (.of ((found.filterMap fun ps => resultOf (inOrder d ps)).reverse ++ gathered))
  | [], gathered, _, _ => rfl
  | ps :: found, gathered, hfound, hgathered => by
    have hrest : ∀ ps ∈ found, ∀ v, resultOf (inOrder d ps) = some v → v.tag = t := fun ps hps =>
      hfound ps (List.mem_cons_of_mem _ hps)
    rw [gatherResults]
    cases hps : resultOf (inOrder d ps) with
    | none =>
      rw [keep, pure_bind, gatherResults_eq hrest hgathered,
        List.filterMap_cons_none (f := fun ps => resultOf (inOrder d ps)) hps]
    | some v =>
      have hv : v.tag = t := hfound ps List.mem_cons_self v hps
      have hgathered' : ∀ u ∈ v :: gathered, u.tag = t := by
        intro u hu
        rcases List.mem_cons.mp hu with rfl | hu
        · exact hv
        · exact hgathered u hu
      rw [keep_of_push (Tagged.push_of (Members.ofOneKind_of_forall hgathered')), pure_bind,
        gatherResults_eq hrest hgathered', List.filterMap_cons_some (f := fun ps => resultOf (inOrder d ps)) hps,
        List.reverse_cons, List.append_assoc, List.singleton_append]

theorem exists_gatherResults (span : Option Span) {d : Direction} {t : Tag} {found : List (List ObjectId)}
    (h : ∀ ps ∈ found, ∀ v, resultOf (inOrder d ps) = some v → v.tag = t) :
    ∃ l, gatherResults d span found .empty = pure l ∧
      l.reverse.value = .listOf (found.filterMap fun ps => resultOf (inOrder d ps)) := by
  refine ⟨_, gatherResults_eq h (List.forall_mem_nil _), ?_⟩
  have hkind : Members.OfOneKind (found.filterMap fun ps => resultOf (inOrder d ps)) := by
    refine Members.ofOneKind_of_forall (t := t) fun v hv => ?_
    obtain ⟨ps, hps, hv⟩ := List.mem_filterMap.mp hv
    exact h ps hps v hv
  rw [List.append_nil, Tagged.reverse_of (Tagged.ofOneKind_reverse_iff.mpr hkind), List.reverse_reverse, Tagged.value_of]

theorem ensures_noteAll : ∀ {lines : List String}, Ensures c σ (noteAll lines) fun _ => True
  | [] => .pure trivial
  | _ :: _ => .note_bind ensures_noteAll

theorem ensures_noteRoute {r : Route} : Ensures c σ (noteRoute r) fun _ => True := by
  have htracing : Ensures c σ isTracing fun _ => True := by
    intro s a s' hs h
    cases h
    exact ⟨hs, trivial⟩
  refine htracing.bind fun _ _ => ?_
  split
  · exact ensures_noteAll
  · exact .pure trivial

theorem test_plain {e : Expr} (h : ∀ s ∈ Segment.ofPath e, s.test.Plain σ) (i : Nat) :
    ((route σ e).test i).Plain σ := by
  rw [Route.test]
  cases hs : (route σ e).segments[i]? with
  | none => trivial
  | some s =>
    refine h s ?_
    have hmem := List.mem_of_getElem? hs
    simp only [route] at hmem
    split at hmem
    · exact List.mem_reverse.mp hmem
    · exact hmem

/-- The value is a list with one result for each walk that matches the path. -/
def ListsMatches (c : Setting) (σ : Scope (Option Value)) (r : Route) (v : Option Value) : Prop :=
  ∃ ws : List (List Stop), ws.Nodup ∧ (∀ w, w ∈ ws ↔ r.Matches c σ w) ∧
    ∃ vs, v = some (.listOf vs) ∧ vs.Perm (ws.filterMap r.resultFor)

theorem ensures_evaluate {e : Expr} (hplain : ∀ s ∈ Segment.ofPath e, s.test.Plain σ) (hg : c.graph.NoClosures) :
    Ensures c σ (Path.evaluate (evaluateIn n) e) (ListsMatches c σ (route σ e)) := by
  have hr := proper_route σ e
  have htame : ∀ i, ((route σ e).test i).Tame c σ := fun i => (test_plain hplain i).tame hg
  refine .currentScope_bind (.note_bind ?_)
  refine (Ensures.indented (ensures_noteRoute.bind fun _ _ => ensures_walks htame hr)).bind
    fun found ⟨_, ws, hnodup, hws, hfound⟩ => ?_
  have hresult : ∀ w ∈ ws, resultOf (inOrder (route σ e).direction ((route σ e).picked w).reverse) =
      (route σ e).resultFor w := fun w hw => ((hws w).mp hw).resultOf_picked hr
  have htag : ∀ ps ∈ found, ∀ v, resultOf (inOrder (route σ e).direction ps) = some v →
      v.tag = if (route σ e).extractedAsWritten.length = 1 then .object else .tuple := by
    intro ps hps v hv
    obtain ⟨w, hw, rfl⟩ := List.mem_map.mp (hfound.mem_iff.mp hps)
    rw [hresult w hw] at hv
    exact tag_of_resultFor hv
  obtain ⟨l, hl, hvalue⟩ := exists_gatherResults e.span? htag
  rw [hl, pure_bind, hvalue]
  refine .note_bind (.pure ⟨ws, hnodup, hws, _, rfl, ?_⟩)
  refine (hfound.filterMap _).trans ?_
  rw [List.filterMap_map]
  exact .of_eq (List.filterMap_congr hresult)

theorem evaluate_path {o : Operator} {left : Expr} {right : Option Expr} {span : Option Span} {s s' : Session}
    {v : Option Value} (ho : o.isJoin = true) (hg : c.graph.NoClosures)
    (hplain : ∀ t ∈ Segment.ofPath (.op o left right span), t.test.Plain s.scope)
    (h : Eval.evaluate (.op o left right span) c s = (.ok v, s')) :
    ListsMatches c s.scope (route s.scope (.op o left right span)) v := by
  have hensures : ∀ n, Ensures c s.scope (evaluateIn n (.op o left right span))
      (ListsMatches c s.scope (route s.scope (.op o left right span)))
    | 0 => fun _ _ _ _ h => by cases h
    | n + 1 => by
      refine .deeper ?_
      rw [node, if_pos ho]
      exact ensures_evaluate hplain hg
  exact (hensures _ s v s' rfl h).2

/-- The path `1 ->* extract(ALL)`. -/
def fromFirst : Expr :=
  .binary .stepsZ (.object 1) (.unary .extract Expr.all)

/-- The third object comes from the first by itself and by way of the second. -/
def triangle : Setting :=
  ⟨⟨[(1, []), (2, [("INPUT", .object 1)]), (3, [("INPUT", .object 2), ("INPUT", .object 1)])],
    [⟨2, 1⟩, ⟨3, 2⟩, ⟨3, 1⟩]⟩, ⟨3, none, 4⟩, .standard⟩

theorem evaluate_path_triangle :
    (Eval.evaluate fromFirst triangle (.new false)).1 = .ok (some (.listOf [.object 2, .object 3, .object 3])) ∧
      ListsMatches triangle [] (route [] fromFirst) (some (.listOf [.object 2, .object 3, .object 3])) := by
  have hvalue : (Eval.evaluate fromFirst triangle (.new false)).1 =
      .ok (some (.listOf [.object 2, .object 3, .object 3])) := by
    cbv
  have hsegments : Segment.ofPath fromFirst =
      [⟨.one, .expr (.object 1), false⟩, ⟨.star, .any, false⟩, ⟨.one, .expr Expr.all, true⟩] := rfl
  have hrun : Eval.evaluate fromFirst triangle (.new false) =
      (.ok (some (.listOf [.object 2, .object 3, .object 3])), (Eval.evaluate fromFirst triangle (.new false)).2) := by
    rw [← hvalue]
  refine ⟨hvalue, evaluate_path (c := triangle) (s := .new false) (o := .stepsZ) rfl ?_ ?_ hrun⟩
  · unfold Graph.NoClosures
    decide
  · change ∀ t ∈ Segment.ofPath fromFirst, t.test.Plain []
    rw [hsegments]
    simp only [List.forall_mem_cons]
    have hclosed : NoneBound (· ∈ []) [] := fun y hy => absurd hy List.not_mem_nil
    exact ⟨⟨Expr.inert_val rfl, hclosed⟩, trivial, ⟨Expr.inert_val rfl, hclosed⟩, List.forall_mem_nil _⟩

end Provenance.Path
