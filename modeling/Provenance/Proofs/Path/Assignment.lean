import Provenance.Proofs.Path.Skipping

/-!
# Runs of the automaton of a path

A run takes one state after the other, from a start to a state that accepts. What
runs there are can be told without the automaton: those that assign each place to
a segment, never going back, more than once only to one that repeats, and leave out
only segments that may be left out (`isRun_compile_iff`).
-/

namespace Provenance.Path

namespace Automaton

variable (a : Automaton)

def Edge (i j : Nat) : Prop :=
  ∃ s, a.states[i]? = some s ∧ j ∈ s.next

def Accepts (i : Nat) : Prop :=
  ∃ s, a.states[i]? = some s ∧ s.accepting = true

structure IsRun (w : List Nat) : Prop where
  start : ∃ i ∈ w.head?, i ∈ a.starts
  go : w.IsChain a.Edge
  stop : ∃ i ∈ w.getLast?, a.Accepts i

/-- In how many ways a run that has come to state `i` can take the other states in turn and end there. An
edge counts as often as it is listed. -/
def waysOn (i : Nat) : List Nat → Nat
  | [] => if a.states[i]?.any State.accepting then 1 else 0
  | j :: w => (a.states[i]?.elim 0 fun s => s.next.count j) * waysOn j w

/-- How many runs there are that take the states in turn. -/
def ways : List Nat → Nat
  | [] => 0
  | i :: w => a.starts.count i * a.waysOn i w

end Automaton

/-- The segments to which the places of a walk may be assigned in turn. -/
structure IsAssignment (ms : List Repetition) (w : List Nat) : Prop where
  within : ∀ i ∈ w, i < ms.length
  rising : w.Pairwise (· ≤ ·)
  repeated : ∀ i m, ms[i]? = some m → 1 < w.count i → m.repeats = true
  skipped : ∀ i m, ms[i]? = some m → i ∉ w → m.skippable = true

/-- The same for what comes after a place that is assigned to segment `i`. -/
structure Completes (ms : List Repetition) (i : Nat) (w : List Nat) : Prop where
  within : ∀ j ∈ w, j < ms.length
  rising : (i :: w).Pairwise (· ≤ ·)
  repeated : ∀ j m, ms[j]? = some m → 1 < (i :: w).count j → m.repeats = true
  skipped : ∀ j m, i < j → ms[j]? = some m → j ∉ w → m.skippable = true

section
variable {ms : List Repetition} {i j : Nat} {w : List Nat}

theorem getElem?_of_lt {k : Nat} (h : k < ms.length) : ∃ m, ms[k]? = some m :=
  ⟨_, List.getElem?_eq_getElem h⟩

/-! ## Place by place -/

theorem completes_nil : Completes ms i [] ↔ Skips ms (i + 1) ms.length := by
  refine ⟨fun h k hik hk => ?_, fun h => ⟨?_, ?_, fun j m _ hj => ?_, fun j m hij hm _ => ?_⟩⟩
  · obtain ⟨m, hm⟩ := getElem?_of_lt hk
    exact ⟨m, hm, h.skipped k m hik hm List.not_mem_nil⟩
  · exact fun j hj => absurd hj List.not_mem_nil
  · exact List.pairwise_singleton _ _
  · have hle := List.count_le_length (a := j) (l := [i])
    exact absurd hj (Nat.not_lt.mpr hle)
  · obtain ⟨m', hm', hskip⟩ := h j hij (List.getElem?_eq_some_iff.mp hm).1
    rw [hm] at hm'
    cases hm'
    exact hskip

theorem MayFollow.le (h : MayFollow ms i j) : i ≤ j := by
  rcases h with ⟨rfl, -⟩ | ⟨hlt, -⟩
  · exact Nat.le_refl _
  · exact Nat.le_of_lt hlt

theorem Completes.cons (hij : MayFollow ms i j) (h : Completes ms j w) : Completes ms i (j :: w) where
  within k hk := by
    rcases List.mem_cons.mp hk with rfl | hk
    · exact hij.lt
    · exact h.within k hk
  rising := by
    refine List.pairwise_cons.mpr ⟨fun k hk => ?_, h.rising⟩
    rcases List.mem_cons.mp hk with rfl | hk
    · exact hij.le
    · exact Nat.le_trans hij.le ((List.pairwise_cons.mp h.rising).1 k hk)
  repeated k m hm hk := by
    by_cases hik : i = k
    · subst hik
      rcases hij with ⟨-, m', hm', hrep⟩ | ⟨hlt, -, -⟩
      · rw [hm] at hm'
        cases hm'
        exact hrep
      · -- All further places are assigned to later segments.
        have hnot : i ∉ j :: w := by
          intro hi
          rcases List.mem_cons.mp hi with rfl | hi
          · exact Nat.lt_irrefl _ hlt
          · exact Nat.not_lt.mpr ((List.pairwise_cons.mp h.rising).1 i hi) hlt
        rw [List.count_cons_self, List.count_eq_zero_of_not_mem hnot] at hk
        exact absurd hk (Nat.lt_irrefl _)
    · rw [List.count_cons_of_ne hik] at hk
      exact h.repeated k m hm hk
  skipped k m hik hm hk := by
    rcases Nat.lt_trichotomy k j with hkj | rfl | hjk
    · rcases hij with ⟨rfl, -⟩ | ⟨-, -, hs⟩
      · omega
      · obtain ⟨m', hm', hskip⟩ := hs k hik hkj
        rw [hm] at hm'
        cases hm'
        exact hskip
    · exact absurd List.mem_cons_self hk
    · exact h.skipped k m hjk hm fun h => hk (List.mem_cons_of_mem j h)

theorem Completes.mayFollow (h : Completes ms i (j :: w)) : MayFollow ms i j := by
  have hj : j < ms.length := h.within j List.mem_cons_self
  obtain ⟨hi, hrising⟩ := List.pairwise_cons.mp h.rising
  rcases Nat.eq_or_lt_of_le (hi j List.mem_cons_self) with rfl | hij
  · obtain ⟨m, hm⟩ := getElem?_of_lt hj
    refine Or.inl ⟨rfl, m, hm, h.repeated i m hm ?_⟩
    rw [List.count_cons_self, List.count_cons_self]
    omega
  · refine Or.inr ⟨hij, hj, fun k hik hkj => ?_⟩
    obtain ⟨m, hm⟩ := getElem?_of_lt (Nat.lt_trans hkj hj)
    refine ⟨m, hm, h.skipped k m hik hm fun hk => ?_⟩
    rcases List.mem_cons.mp hk with rfl | hk
    · exact Nat.lt_irrefl _ hkj
    · exact Nat.not_lt.mpr ((List.pairwise_cons.mp hrising).1 k hk) hkj

theorem Completes.tail (h : Completes ms i (j :: w)) : Completes ms j w where
  within k hk := h.within k (List.mem_cons_of_mem j hk)
  rising := (List.pairwise_cons.mp h.rising).2
  repeated k m hm hk := h.repeated k m hm (Nat.lt_of_lt_of_le hk (List.count_le_count_cons))
  skipped k m hjk hm hk := by
    refine h.skipped k m (Nat.lt_of_le_of_lt h.mayFollow.le hjk) hm fun hmem => ?_
    rcases List.mem_cons.mp hmem with rfl | hmem
    · exact Nat.lt_irrefl _ hjk
    · exact hk hmem

theorem completes_cons : Completes ms i (j :: w) ↔ MayFollow ms i j ∧ Completes ms j w :=
  ⟨fun h => ⟨h.mayFollow, h.tail⟩, fun h => h.2.cons h.1⟩

theorem isAssignment_cons : IsAssignment ms (i :: w) ↔ (i < ms.length ∧ Skips ms 0 i) ∧ Completes ms i w := by
  constructor
  · intro h
    have hi : i < ms.length := h.within i List.mem_cons_self
    refine ⟨⟨hi, fun k _ hki => ?_⟩, fun j hj => h.within j (List.mem_cons_of_mem i hj), h.rising, h.repeated, ?_⟩
    · obtain ⟨m, hm⟩ := getElem?_of_lt (Nat.lt_trans hki hi)
      refine ⟨m, hm, h.skipped k m hm fun hk => ?_⟩
      rcases List.mem_cons.mp hk with rfl | hk
      · exact Nat.lt_irrefl _ hki
      · exact Nat.not_lt.mpr ((List.pairwise_cons.mp h.rising).1 k hk) hki
    · intro j m hij hm hj
      refine h.skipped j m hm fun hmem => ?_
      rcases List.mem_cons.mp hmem with rfl | hmem
      · exact Nat.lt_irrefl _ hij
      · exact hj hmem
  · intro ⟨⟨hi, hs⟩, h⟩
    refine ⟨fun k hk => ?_, h.rising, h.repeated, fun k m hm hk => ?_⟩
    · rcases List.mem_cons.mp hk with rfl | hk
      · exact hi
      · exact h.within k hk
    · rcases Nat.lt_trichotomy k i with hki | rfl | hik
      · obtain ⟨m', hm', hskip⟩ := hs k (Nat.zero_le k) hki
        rw [hm] at hm'
        cases hm'
        exact hskip
      · exact absurd List.mem_cons_self hk
      · exact h.skipped k m hik hm fun h => hk (List.mem_cons_of_mem i h)

/-! ## The automaton of the segments -/

namespace Automaton

theorem edge_iff : (ofRepetitions ms).Edge i j ↔ i < ms.length ∧ MayFollow ms i j := by
  rw [Edge, getElem?_states]
  cases hm : ms[i]? with
  | none => simp [Nat.not_lt.mpr (List.getElem?_eq_none_iff.mp hm)]
  | some m => simp [(List.getElem?_eq_some_iff.mp hm).1, mem_next_state hm]

theorem accepts_iff : (ofRepetitions ms).Accepts i ↔ i < ms.length ∧ Skips ms (i + 1) ms.length := by
  rw [Accepts, getElem?_states]
  cases hm : ms[i]? with
  | none => simp [Nat.not_lt.mpr (List.getElem?_eq_none_iff.mp hm)]
  | some m => simp [(List.getElem?_eq_some_iff.mp hm).1, accepting_state]

theorem nodup_next {s : State} (hs : s ∈ (ofRepetitions ms).states) : s.next.Nodup := by
  obtain ⟨i, hi⟩ := List.getElem?_of_mem hs
  rw [getElem?_states] at hi
  obtain ⟨m, -, rfl⟩ := Option.map_eq_some_iff.mp hi
  exact nodup_next_state

theorem completes_iff_isChain : ∀ {w : List Nat} {i : Nat}, i < ms.length →
    (Completes ms i w ↔ (i :: w).IsChain (ofRepetitions ms).Edge ∧
      ∃ k ∈ (i :: w).getLast?, (ofRepetitions ms).Accepts k)
  | [], i, hi => by simp [completes_nil, accepts_iff, hi]
  | j :: w, i, hi => by
    rw [completes_cons, List.isChain_cons_cons, edge_iff, List.getLast?_cons_cons]
    constructor
    · intro ⟨hij, h⟩
      obtain ⟨hgo, hstop⟩ := (completes_iff_isChain hij.lt).mp h
      exact ⟨⟨⟨hi, hij⟩, hgo⟩, hstop⟩
    · intro ⟨⟨⟨_, hij⟩, hgo⟩, hstop⟩
      exact ⟨hij, (completes_iff_isChain hij.lt).mpr ⟨hgo, hstop⟩⟩

theorem isRun_iff : (ofRepetitions ms).IsRun w ↔ w ≠ [] ∧ IsAssignment ms w := by
  cases w with
  | nil => exact iff_of_false (fun h => by obtain ⟨i, hi, -⟩ := h.start; cases hi) fun h => h.1 rfl
  | cons i w =>
    rw [isAssignment_cons, and_iff_right (List.cons_ne_nil i w)]
    constructor
    · intro h
      obtain ⟨k, hk, hstart⟩ := h.start
      cases hk
      have hi := mem_startsOf.mp hstart
      exact ⟨hi, (completes_iff_isChain hi.1).mpr ⟨h.go, h.stop⟩⟩
    · intro ⟨hi, h⟩
      obtain ⟨hgo, hstop⟩ := (completes_iff_isChain hi.1).mp h
      exact ⟨⟨i, rfl, mem_startsOf.mpr hi⟩, hgo, hstop⟩

/-! ## One run for each assignment -/

section
variable {a : Automaton}

theorem waysOn_eq_one (hnext : ∀ s ∈ a.states, s.next.Nodup) : ∀ {w : List Nat} {i : Nat},
    (i :: w).IsChain a.Edge → (∃ k ∈ (i :: w).getLast?, a.Accepts k) → a.waysOn i w = 1
  | [], i, _, hstop => by
    obtain ⟨k, hk, s, hs, hacc⟩ := hstop
    rw [List.getLast?_singleton, Option.mem_some_iff] at hk
    subst hk
    simp [waysOn, hs, hacc]
  | j :: w, i, hgo, hstop => by
    obtain ⟨⟨s, hs, hj⟩, hgo⟩ := List.isChain_cons_cons.mp hgo
    rw [List.getLast?_cons_cons] at hstop
    have hedge : s.next.count j = 1 := List.count_eq_one_of_mem (hnext s (List.mem_of_getElem? hs)) hj
    rw [waysOn, hs, Option.elim_some, hedge, waysOn_eq_one hnext hgo hstop]

theorem IsRun.ways_eq_one (h : a.IsRun w) (hstarts : a.starts.Nodup) (hnext : ∀ s ∈ a.states, s.next.Nodup) :
    a.ways w = 1 := by
  cases w with
  | nil =>
    obtain ⟨i, hi, -⟩ := h.start
    cases hi
  | cons i w =>
    obtain ⟨k, hk, hstart⟩ := h.start
    cases hk
    rw [ways, List.count_eq_one_of_mem hstarts hstart, waysOn_eq_one hnext h.go h.stop]

end

/-- The runs of the automaton of a path are the assignments to its segments, one run for each: no start and no edge
is listed twice. -/
theorem isRun_compile_iff (segments : List Segment) :
    (∀ w, (compile segments).IsRun w ↔ w ≠ [] ∧ IsAssignment (segments.map Segment.repetition) w) ∧
      (compile segments).starts.Nodup ∧ (∀ s ∈ (compile segments).states, s.next.Nodup) ∧
        ∀ w, (compile segments).IsRun w → (compile segments).ways w = 1 := by
  have hstarts : (compile segments).starts.Nodup := nodup_startsOf
  have hnext : ∀ s ∈ (compile segments).states, s.next.Nodup := fun _ => nodup_next
  exact ⟨fun w => isRun_iff, hstarts, hnext, fun w h => h.ways_eq_one hstarts hnext⟩

/-- The middle segment may be left out or repeated, the others may not. -/
example : [[0, 2], [0, 1, 2], [0, 1, 1, 2], [0, 0, 2], [0, 1], [1, 2]].map
    (ofRepetitions [.one, .star, .one]).ways = [1, 1, 1, 0, 0, 0] := by
  decide

end Automaton

end

end Provenance.Path
