import Provenance.Proofs.Path.Match

/-!
# How much a walk extracts

An extracted segment stands for exactly one object, so no walk leaves it out or
comes to it twice. A walker has kept one object for each extracted segment that
lies behind it (`Walker.OnCount`), whatever the tests answer, and a walk that
ends has extracted one object for each extracted segment of the path
(`returns_walks`).
-/

namespace Provenance.Path

open Eval

/-! ## Counting extracted segments -/

namespace Route

variable {r : Route} {i j : Nat}

/-- How many of the segments before `i` are extracted. -/
def extractedBefore (r : Route) (i : Nat) : Nat :=
  (r.segments.take i).countP Segment.extract

theorem extractedBefore_zero : r.extractedBefore 0 = 0 := by
  simp [extractedBefore]

theorem extractedBefore_length : r.extractedBefore r.repetitions.length = r.segments.countP Segment.extract := by
  rw [extractedBefore, repetitions, List.length_map, List.take_length]

theorem extractedBefore_succ (r : Route) (i : Nat) :
    r.extractedBefore (i + 1) = r.extractedBefore i + if r.extracts i then 1 else 0 := by
  rw [extractedBefore, List.take_add_one, List.countP_append, ← extractedBefore, extracts]
  cases r.segments[i]? with
  | none => rfl
  | some e => simp [List.countP_singleton]

theorem length_extend (i : Nat) (p : ObjectId) (kept : List ObjectId) :
    (r.extend i p kept).length = kept.length + if r.extracts i then 1 else 0 := by
  unfold extend extracts
  split <;> rfl

section
variable (hr : r.Proper)
include hr

/-- No extracted segment is among those that may be left out. -/
theorem extractedBefore_of_skips (hij : i ≤ j) (h : Skips r.repetitions i j) :
    r.extractedBefore j = r.extractedBefore i := by
  induction j, hij using Nat.le_induction with
  | base => rfl
  | succ j hij ih =>
    have hnot : ¬ r.extracts j = true := fun hj => not_skips hr hj hij (Nat.lt_succ_self j) h
    rw [extractedBefore_succ, if_neg hnot, Nat.add_zero]
    exact ih fun k hik hkj => h k hik (Nat.lt_succ_of_lt hkj)

/-- A segment that repeats is not extracted either. -/
theorem extractedBefore_of_mayFollow (h : MayFollow r.repetitions i j) :
    r.extractedBefore j = r.extractedBefore (i + 1) := by
  rcases h with ⟨rfl, hrep⟩ | ⟨hij, -, hskips⟩
  · have hnot : ¬ r.extracts j = true := fun hj => hr.not_repeats hj hrep
    rw [extractedBefore_succ, if_neg hnot, Nat.add_zero]
  · exact extractedBefore_of_skips hr hij hskips

theorem extractedBefore_of_mem_starts (h : i ∈ r.automaton.starts) : r.extractedBefore i = 0 := by
  rw [extractedBefore_of_skips hr (Nat.zero_le i) ((mem_starts hr.compiled).mp h).2, extractedBefore_zero]

theorem extractedBefore_of_accepting (h : r.accepting i = true) :
    r.extractedBefore (i + 1) = r.segments.countP Segment.extract := by
  obtain ⟨hi, hskips⟩ := (accepting_iff hr.compiled).mp h
  rw [← extractedBefore_length, extractedBefore_of_skips hr hi hskips]

end

end Route

/-! ## Walkers -/

/-- The walker has kept an object for each extracted segment behind it. -/
def Walker.OnCount (r : Route) (w : Walker) : Prop :=
  w.kept.length = r.extractedBefore w.state

/-- As many objects as there are extracted segments. -/
def Route.Whole (r : Route) (ps : List ObjectId) : Prop :=
  ps.length = r.segments.countP Segment.extract

structure Frontier.OnCount (r : Route) (f : Frontier) : Prop where
  found : ∀ ps ∈ f.found, r.Whole ps
  next : ∀ w ∈ f.next, w.OnCount r

section
variable {ev : Expr → Eval (Option Value)} {r : Route} (hr : r.Proper)

theorem Walker.OnCount.extend {w : Walker} (hw : w.OnCount r) (p : ObjectId) :
    (r.extend w.state p w.kept).length = r.extractedBefore (w.state + 1) := by
  rw [Route.length_extend, hw, Route.extractedBefore_succ]

include hr

theorem onCount_of_mem_successors {i : Nat} {p : ObjectId} {kept : List ObjectId}
    (hkept : kept.length = r.extractedBefore (i + 1)) {w : Walker} (hw : w ∈ r.successors i p kept) :
    w.OnCount r := by
  obtain ⟨j, hj, rfl⟩ := List.mem_map.mp hw
  have hfollow := ((Route.mem_next hr.compiled).mp hj).2
  exact hkept.trans (Route.extractedBefore_of_mayFollow hr hfollow).symm

theorem returns_visit {w : Walker} (hw : w.OnCount r) {f : Frontier} (hf : f.OnCount r) (p : ObjectId) :
    Returns (visit ev r w f p) (Frontier.OnCount r) := by
  refine .andThen fun _ => .andThen fun ok => ?_
  split
  · have hkept := hw.extend p
    have hnext : ∀ v ∈ (r.successors w.state p (r.extend w.state p w.kept)).foldl (fun ws w => w :: ws) f.next,
        v.OnCount r := by
      intro v hv
      have hmem : v ∈ r.successors w.state p (r.extend w.state p w.kept) ∨ v ∈ f.next := by simpa using hv
      rcases hmem with hv | hv
      · exact onCount_of_mem_successors hr hkept hv
      · exact hf.next v hv
    split
    · refine .andThen fun _ => .pure ⟨fun ps hps => ?_, hnext⟩
      rcases List.mem_cons.mp hps with rfl | hps
      · exact hkept.trans (Route.extractedBefore_of_accepting hr ‹_›)
      · exact hf.found ps hps
    · exact .pure ⟨hf.found, hnext⟩
  · exact .pure hf

theorem returns_visitAll {w : Walker} (hw : w.OnCount r) : ∀ {ps : List ObjectId} {f : Frontier}, f.OnCount r →
    Returns (visitAll ev r w ps f) (Frontier.OnCount r)
  | [], _, hf => .pure hf
  | p :: _, _, hf => (returns_visit hr hw hf p).bind fun _ hf => returns_visitAll hw hf

theorem returns_exploreAll : ∀ {ws : List Walker} {f : Frontier}, (∀ w ∈ ws, w.OnCount r) → f.OnCount r →
    Returns (exploreAll ev r ws f) (Frontier.OnCount r)
  | [], _, _, hf => .pure hf
  | w :: ws, f, hws, hf => by
    have hexplore : Returns (explore ev r w f) (Frontier.OnCount r) :=
      .andThen fun _ => .andThen fun _ => returns_visitAll hr (hws w List.mem_cons_self) hf
    exact hexplore.bind fun _ hf => returns_exploreAll (fun v hv => hws v (List.mem_cons_of_mem w hv)) hf

theorem returns_run : ∀ {n : Nat} {live : List Walker} {found : List (List ObjectId)}, (∀ w ∈ live, w.OnCount r) →
    (∀ ps ∈ found, r.Whole ps) → Returns (run ev r n live found) fun out => ∀ ps ∈ out, r.Whole ps
  | n, [], found, _, hfound => by
    rw [run]
    exact .pure fun ps hps => hfound ps (List.mem_reverse.mp hps)
  | 0, _ :: _, _, _, _ => fun _ _ _ _ h => by cases h
  | n + 1, w :: live, found, hlive, hfound => by
    rw [run]
    refine .andThen fun _ => .andThen fun _ => ?_
    refine (returns_exploreAll hr hlive ⟨hfound, List.forall_mem_nil _⟩).bind fun f hf => .andThen fun _ => ?_
    exact returns_run (fun v hv => hf.next v (List.mem_reverse.mp hv)) hf.found

theorem returns_launch : ∀ {starts : List Nat}, starts ⊆ r.automaton.starts →
    Returns (launch ev r starts) fun live => ∀ w ∈ live, w.OnCount r
  | [], _ => .pure (List.forall_mem_nil _)
  | i :: starts, hstarts => by
    refine .andThen fun _ => .andThen fun ps => .andThen fun _ => ?_
    refine (returns_launch fun j hj => hstarts (List.mem_cons_of_mem i hj)).bind fun later hlater => .pure ?_
    intro w hw
    rcases List.mem_append.mp hw with hw | hw
    · obtain ⟨p, -, hw⟩ := List.mem_flatMap.mp hw
      refine onCount_of_mem_successors hr ?_ hw
      rw [Route.length_extend, Route.extractedBefore_succ,
        Route.extractedBefore_of_mem_starts hr (hstarts List.mem_cons_self)]
      rfl
    · exact hlater w hw

/-- Every walk that ends extracts one object for each extracted segment. -/
theorem returns_walks : Returns (walks ev r) fun found => ∀ ps ∈ found, r.Whole ps :=
  (returns_launch hr (List.Subset.refl _)).bind fun _ hlive => .andThen fun _ =>
    returns_run hr hlive (List.forall_mem_nil _)

end

end Provenance.Path
