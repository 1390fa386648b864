import Provenance.Proofs.Path.Onward

/-!
# Generations follow all walks

What one generation finds and leaves to the next (`ensures_exploreAll`), and by
induction on the generations that a run finds every continuation of its walkers
once (`ensures_run`).
-/

namespace Provenance.Path

open Eval

variable {c : Setting} {σ : Scope (Option Value)} {n : Nat}

namespace Route

variable (r : Route) (pass : Nat → ObjectId → Bool)

def ended (w : Walker) (p : ObjectId) : List (List ObjectId) :=
  if pass w.state p && r.accepting w.state then [r.extend w.state p w.kept] else []

def going (w : Walker) (p : ObjectId) : List Walker :=
  if pass w.state p then r.successors w.state p (r.extend w.state p w.kept) else []

variable {r pass}

theorem extend_eq {i : Nat} {p : ObjectId} {kept : List ObjectId} :
    r.extend i p kept = if r.extracts i then p :: kept else kept := rfl

theorem picked_cons (s : Stop) (w : List Stop) (kept : List ObjectId) :
    (r.picked (s :: w)).reverse ++ kept = (r.picked w).reverse ++ r.extend s.segment s.object kept := by
  rw [extend_eq, picked, List.filter_cons]
  split <;> simp [picked]

/-- The results of all continuations of a walk by at most `n` stops. -/
def resultsFrom (r : Route) (neighbours : ObjectId → List ObjectId) (pass : Nat → ObjectId → Bool) (n : Nat)
    (w : Walker) : List (List ObjectId) :=
  (r.onward neighbours pass n w.state w.last).map fun v => (r.picked v).reverse ++ w.kept

theorem flatMap_stopsAt {α : Type} {i : Nat} {ps : List ObjectId} (f : Nat → ObjectId → List α) :
    (stopsAt i ps).flatMap (fun s => f s.segment s.object) = ps.flatMap (f i) := by
  rw [stopsAt, List.flatMap_map]
  conv_rhs => rw [← List.zipIdx_map_fst 0 ps, List.flatMap_map]

theorem resultsFrom_succ {neighbours : ObjectId → List ObjectId} {w : Walker} :
    r.resultsFrom neighbours pass (n + 1) w = (neighbours w.last).flatMap fun p =>
      r.ended pass w p ++ (r.going pass w p).flatMap (r.resultsFrom neighbours pass n) := by
  rw [← flatMap_stopsAt (i := w.state) fun i p => r.ended pass ⟨i, w.last, w.kept⟩ p ++
    (r.going pass ⟨i, w.last, w.kept⟩ p).flatMap (r.resultsFrom neighbours pass n)]
  rw [resultsFrom, onward, List.map_flatMap]
  refine List.flatMap_congr fun s hs => ?_
  obtain ⟨hsegment, -⟩ := mem_stopsAt.mp hs
  cases hpass : pass w.state s.object with
  | false => simp [ended, going, hsegment, hpass]
  | true =>
    simp only [ended, going, hsegment, hpass, Bool.true_and, if_true, List.map_append, List.map_flatMap, List.map_map,
      successors, List.flatMap_map, resultsFrom]
    congr 1
    · split
      · have h := picked_cons (r := r) s [] w.kept
        rw [hsegment] at h
        simpa [picked] using h
      · rfl
    · refine List.flatMap_congr fun j _ => List.map_congr_left fun v _ => ?_
      rw [Function.comp_apply, picked_cons, hsegment]

end Route

/-! ## One generation -/

section
variable {r : Route} {pass : Nat → ObjectId → Bool} (hpass : ∀ i q, pass i q = true ↔ Passes c σ (r.test i) q)
  (htame : ∀ i, (r.test i).Tame c σ)
include hpass htame

theorem ensures_visit {w : Walker} {f : Frontier} {p : ObjectId} :
    Ensures c σ (visit (evaluateIn n) r w f p) fun f' =>
      f'.found = (r.ended pass w p).reverse ++ f.found ∧ f'.next = (r.going pass w p).reverse ++ f.next := by
  have hcount : Ensures c σ countStep fun _ => True := by
    intro s a s' hs h
    unfold countStep at h
    split at h
    · cases h
      exact ⟨hs, trivial⟩
    · dsimp only at h
      split at h <;> cases h
      exact ⟨hs, trivial⟩
  refine hcount.bind fun _ _ => (ensures_passes (htame w.state)).bind fun ok hok => ?_
  rw [← hpass] at hok
  have hok : ok = pass w.state p := Bool.eq_iff_iff.mpr hok
  subst hok
  split
  · rename_i htrue
    have hnext : (r.successors w.state p (r.extend w.state p w.kept)).foldl (fun ws w => w :: ws) f.next =
        (r.going pass w p).reverse ++ f.next := by
      rw [Route.going, if_pos htrue]
      simp
    simp only [hnext]
    split
    · rename_i hacc
      exact .note_bind (.pure ⟨by simp [Route.ended, htrue, hacc], rfl⟩)
    · rename_i hacc
      exact .pure ⟨by simp [Route.ended, htrue, hacc], rfl⟩
  · rename_i hfalse
    exact .pure ⟨by simp [Route.ended, hfalse], by simp [Route.going, hfalse]⟩

theorem ensures_visitAll {w : Walker} : ∀ {ps : List ObjectId} {f : Frontier},
    Ensures c σ (visitAll (evaluateIn n) r w ps f) fun f' =>
      f'.found = (ps.flatMap (r.ended pass w)).reverse ++ f.found ∧
        f'.next = (ps.flatMap (r.going pass w)).reverse ++ f.next
  | [], f => .pure ⟨rfl, rfl⟩
  | p :: ps, f => by
    refine (ensures_visit hpass htame).bind fun f₁ hf₁ => ensures_visitAll.mono fun f₂ hf₂ => ?_
    simp [hf₁, hf₂]

theorem ensures_exploreAll : ∀ {ws : List Walker} {f : Frontier},
    Ensures c σ (exploreAll (evaluateIn n) r ws f) fun f' =>
      f'.found =
          (ws.flatMap fun w => (r.direction.neighbours c.graph w.last).flatMap (r.ended pass w)).reverse ++ f.found ∧
        f'.next =
          (ws.flatMap fun w => (r.direction.neighbours c.graph w.last).flatMap (r.going pass w)).reverse ++ f.next
  | [], f => .pure ⟨rfl, rfl⟩
  | w :: ws, f => by
    have hexplore : Ensures c σ (explore (evaluateIn n) r w f) fun f' =>
        f'.found = ((r.direction.neighbours c.graph w.last).flatMap (r.ended pass w)).reverse ++ f.found ∧
          f'.next = ((r.direction.neighbours c.graph w.last).flatMap (r.going pass w)).reverse ++ f.next :=
      .graph_bind (.note_bind (ensures_visitAll hpass htame))
    refine hexplore.bind fun f₁ hf₁ => ensures_exploreAll.mono fun f₂ hf₂ => ?_
    simp [hf₁, hf₂]

/-! ## All generations -/

/-- A run that comes to an end has found the results of all continuations, and none is longer than
the run. -/
theorem ensures_run : ∀ {m : Nat} {live : List Walker} {found : List (List ObjectId)},
    Ensures c σ (run (evaluateIn n) r m live found) fun out =>
      out.Perm (found.reverse ++ live.flatMap (r.resultsFrom (r.direction.neighbours c.graph) pass m)) ∧
        ∀ w ∈ live, ∀ v, r.Onward (r.direction.neighbours c.graph) pass w.state w.last v → v.length ≤ m
  | m, [], found => by
    rw [run]
    exact .pure ⟨by simp, nofun⟩
  | 0, _ :: _, _ => fun _ _ _ _ h => by cases h
  | m + 1, w :: live, found => by
    rw [run]
    refine .note_bind ((Ensures.change (f := enter) fun _ => rfl).bind fun _ _ => ?_)
    refine (ensures_exploreAll hpass htame).bind fun f hf => ?_
    refine (Ensures.change (f := leave) fun _ => rfl).bind fun _ _ => ?_
    refine ensures_run.mono fun out ⟨hout, hlen⟩ => ⟨?_, ?_⟩
    · refine hout.trans ?_
      rw [hf.1, hf.2, List.append_nil, List.reverse_append, List.reverse_reverse, List.reverse_reverse,
        List.append_assoc]
      refine List.Perm.append_left _ ?_
      -- Each walker's results are those that end now and those of the walkers that go on.
      rw [List.flatMap_assoc]
      refine (List.flatMap_append_perm _ _ _).trans (List.Perm.flatMap_left _ fun w _ => ?_)
      rw [Route.resultsFrom_succ, List.flatMap_assoc]
      exact List.flatMap_append_perm _ _ _
    · intro w' hw' v hv
      cases v with
      | nil => exact hv.elim
      | cons s v =>
        obtain ⟨⟨hs, hedge⟩, hp, ⟨rfl, -⟩ | ⟨j, hj, hv⟩⟩ := hv
        · exact Nat.succ_le_succ (Nat.zero_le m)
        · refine Nat.succ_le_succ (hlen ⟨j, s.object, r.extend w'.state s.object w'.kept⟩ ?_ v hv)
          rw [hf.2, List.append_nil, List.reverse_reverse]
          refine List.mem_flatMap.mpr ⟨w', hw', List.mem_flatMap.mpr ⟨s.object, List.mem_of_getElem? hedge, ?_⟩⟩
          rw [Route.going, if_pos hp]
          exact List.mem_map_of_mem hj

end

end Provenance.Path
