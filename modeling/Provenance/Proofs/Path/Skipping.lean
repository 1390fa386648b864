import Mathlib.Data.List.Nodup
import Provenance.Path.Walk

/-!
# What the automaton of a path admits

The lists of the automaton put into words: a segment may be followed by itself
if it repeats, and by a later one if all between them may be left out.
-/

namespace Provenance.Path

/-- The segments from `i` on and before `j` may all be left out. -/
def Skips (ms : List Repetition) (i j : Nat) : Prop :=
  ∀ k, i ≤ k → k < j → ∃ m, ms[k]? = some m ∧ m.skippable = true

/-- After an object for segment `i` there may come one for segment `j`. -/
def MayFollow (ms : List Repetition) (i j : Nat) : Prop :=
  (j = i ∧ ∃ m, ms[i]? = some m ∧ m.repeats = true) ∨ i < j ∧ j < ms.length ∧ Skips ms (i + 1) j

section
variable {ms : List Repetition} {i j k : Nat}

theorem Skips.refl : Skips ms i i := fun _ h h' => absurd h (Nat.not_le.mpr h')

theorem skips_succ_iff (hij : i < j) :
    Skips ms i j ↔ (∃ m, ms[i]? = some m ∧ m.skippable = true) ∧ Skips ms (i + 1) j := by
  refine ⟨fun h => ⟨h i (Nat.le_refl i) hij, fun k hk => h k (by omega)⟩, fun ⟨hi, h⟩ k hk hkj => ?_⟩
  rcases Nat.eq_or_lt_of_le hk with rfl | hk
  · exact hi
  · exact h k hk hkj

theorem MayFollow.lt (h : MayFollow ms i j) : j < ms.length := by
  rcases h with ⟨rfl, m, hm, -⟩ | ⟨-, hj, -⟩
  · exact (List.getElem?_eq_some_iff.mp hm).1
  · exact hj

namespace Automaton

theorem mem_skipsFrom : ∀ {later : List Repetition} {j : Nat}, ms.drop j = later →
    (k ∈ skipsFrom j later ↔ j < k ∧ k < ms.length ∧ Skips ms j k)
  | [], j, h => by
    have := List.drop_eq_nil_iff.mp h
    simp only [skipsFrom, List.not_mem_nil, false_iff]
    omega
  | [m], j, h => by
    have := congrArg List.length h
    simp only [List.length_drop, List.length_singleton] at this
    simp only [skipsFrom, List.not_mem_nil, false_iff]
    omega
  | m :: m' :: rest, j, h => by
    have hlen := congrArg List.length h
    simp only [List.length_drop, List.length_cons] at hlen
    have hj : ms[j]? = some m := by rw [← Nat.add_zero j, ← List.getElem?_drop, h]; rfl
    have hdrop : ms.drop (j + 1) = m' :: rest := by rw [← List.drop_drop, h]; rfl
    rw [skipsFrom]
    split
    · rw [List.mem_cons, mem_skipsFrom hdrop]
      constructor
      · intro h
        rcases h with rfl | ⟨hk, hlt, hs⟩
        · refine ⟨Nat.lt_succ_self j, by omega, (skips_succ_iff (Nat.lt_succ_self j)).mpr ⟨⟨m, hj, ‹_›⟩, .refl⟩⟩
        · exact ⟨by omega, hlt, (skips_succ_iff (by omega)).mpr ⟨⟨m, hj, ‹_›⟩, hs⟩⟩
      · intro h
        obtain ⟨hk, hlt, hs⟩ := h
        rcases Nat.eq_or_lt_of_le hk with rfl | hk
        · exact Or.inl rfl
        · exact Or.inr ⟨hk, hlt, ((skips_succ_iff (by omega)).mp hs).2⟩
    · simp only [List.not_mem_nil, false_iff]
      intro h
      obtain ⟨hk, -, hs⟩ := h
      obtain ⟨m₁, hm₁, hskip⟩ := hs j (Nat.le_refl j) hk
      rw [hj] at hm₁
      cases hm₁
      exact absurd hskip ‹_›

theorem skipsFrom_pairwise : ∀ (later : List Repetition) (j : Nat), (j :: skipsFrom j later).Pairwise (· < ·)
  | [], j => List.pairwise_singleton _ j
  | [_], j => List.pairwise_singleton _ j
  | m :: m' :: rest, j => by
    rw [skipsFrom]
    split
    · have h := skipsFrom_pairwise (m' :: rest) (j + 1)
      refine List.pairwise_cons.mpr ⟨fun k hk => ?_, h⟩
      rcases List.mem_cons.mp hk with rfl | hk
      · exact Nat.lt_succ_self j
      · exact Nat.lt_of_succ_lt ((List.pairwise_cons.mp h).1 k hk)
    · exact List.pairwise_singleton _ j

theorem getElem?_statesFrom : ∀ {ms : List Repetition} {j i : Nat},
    (statesFrom j ms)[i]? = ms[i]?.map fun m => state (j + i) m (ms.drop (i + 1))
  | [], _, _ => rfl
  | m :: rest, j, 0 => rfl
  | m :: rest, j, i + 1 => by
    rw [statesFrom, List.getElem?_cons_succ, getElem?_statesFrom, List.getElem?_cons_succ]
    simp only [List.drop_succ_cons, Nat.add_right_comm j 1 i, Nat.add_assoc]

theorem getElem?_states : (ofRepetitions ms).states[i]? = ms[i]?.map fun m => state i m (ms.drop (i + 1)) := by
  rw [ofRepetitions, getElem?_statesFrom, Nat.zero_add]

theorem mem_startsOf : k ∈ startsOf ms ↔ k < ms.length ∧ Skips ms 0 k := by
  cases ms with
  | nil => simp [startsOf]
  | cons m rest =>
    rw [startsOf, List.mem_cons, mem_skipsFrom (List.drop_zero : (m :: rest).drop 0 = _)]
    case x_1 => exact List.cons_ne_nil _ _
    constructor
    · intro h
      rcases h with rfl | ⟨-, h⟩
      · exact ⟨Nat.succ_pos _, .refl⟩
      · exact h
    · intro h
      rcases Nat.eq_zero_or_pos k with rfl | hk
      · exact Or.inl rfl
      · exact Or.inr ⟨hk, h⟩

theorem nodup_startsOf : (startsOf ms).Nodup := by
  cases ms with
  | nil => exact List.nodup_nil
  | cons m rest => exact (skipsFrom_pairwise (m :: rest) 0).imp Nat.ne_of_lt

variable {m : Repetition}

theorem mem_next_state (hm : ms[i]? = some m) : j ∈ (state i m (ms.drop (i + 1))).next ↔ MayFollow ms i j := by
  have hlater : (ms.drop (i + 1)).isEmpty = true ↔ ms.length ≤ i + 1 := by simp
  have hself : (∃ m', ms[i]? = some m' ∧ m'.repeats = true) ↔ m.repeats = true := by simp [hm]
  simp only [state, List.mem_append, mem_skipsFrom rfl, MayFollow, hself]
  constructor
  · intro h
    rcases h with (h | h) | ⟨hlt, hj, hs⟩
    · split at h
      · cases h
      · have hlt : ¬ ms.length ≤ i + 1 := fun hle => ‹¬ _› (hlater.mpr hle)
        cases List.mem_singleton.mp h
        exact Or.inr ⟨Nat.lt_succ_self i, Nat.not_le.mp hlt, .refl⟩
    · split at h
      · exact Or.inl ⟨List.mem_singleton.mp h, ‹_›⟩
      · cases h
    · exact Or.inr ⟨by omega, hj, hs⟩
  · intro h
    rcases h with ⟨rfl, hrep⟩ | ⟨hlt, hj, hs⟩
    · exact Or.inl (Or.inr (by simp [hrep]))
    · rcases Nat.eq_or_lt_of_le hlt with rfl | hlt
      · have hmore : ¬ (ms.drop (i + 1)).isEmpty = true := fun he => absurd (hlater.mp he) (Nat.not_le.mpr hj)
        exact Or.inl (Or.inl (by rw [if_neg hmore]; exact List.mem_singleton_self _))
      · exact Or.inr ⟨hlt, hj, hs⟩

theorem nodup_next_state : (state i m (ms.drop (i + 1))).next.Nodup := by
  have hskips := skipsFrom_pairwise (ms.drop (i + 1)) (i + 1)
  have hgt : ∀ k ∈ skipsFrom (i + 1) (ms.drop (i + 1)), i + 1 < k := (List.pairwise_cons.mp hskips).1
  simp only [state]
  refine List.nodup_append.mpr ⟨?_, (List.pairwise_cons.mp hskips).2.imp Nat.ne_of_lt, fun a ha b hb => ?_⟩
  · split <;> split <;> simp
  · have hle : a ≤ i + 1 := by
      rcases List.mem_append.mp ha with ha | ha
      · split at ha
        · cases ha
        · exact Nat.le_of_eq (List.mem_singleton.mp ha)
      · split at ha
        · rw [List.mem_singleton.mp ha]
          exact Nat.le_succ i
        · cases ha
    exact Nat.ne_of_lt (Nat.lt_of_le_of_lt hle (hgt b hb))

theorem accepting_state : (state i m (ms.drop (i + 1))).accepting = true ↔ Skips ms (i + 1) ms.length := by
  simp only [state, List.all_eq_true]
  constructor
  · intro h k hk hlt
    refine ⟨ms[k], List.getElem?_eq_getElem hlt, h _ (List.mem_drop_iff_getElem.mpr ⟨k - (i + 1), by omega, ?_⟩)⟩
    congr 1
    omega
  · intro h m' hm'
    obtain ⟨k, hk, rfl⟩ := List.mem_drop_iff_getElem.mp hm'
    obtain ⟨m₁, hm₁, hskip⟩ := h (i + 1 + k) (Nat.le_add_right _ _) (by omega)
    rw [List.getElem?_eq_getElem (by omega)] at hm₁
    cases hm₁
    exact hskip

end Automaton

end

/-! ## Routes -/

def Route.repetitions (r : Route) : List Repetition :=
  r.segments.map Segment.repetition

def Route.Compiled (r : Route) : Prop :=
  r.automaton = .compile r.segments

namespace Route

variable {r : Route} (hr : r.Compiled) {i j : Nat}
include hr

theorem states_eq : r.automaton.states[i]? = r.repetitions[i]?.map fun m =>
    Automaton.state i m (r.repetitions.drop (i + 1)) := by
  rw [hr]
  exact Automaton.getElem?_states

theorem mem_next : j ∈ r.next i ↔ i < r.repetitions.length ∧ MayFollow r.repetitions i j := by
  rw [next, states_eq hr]
  cases hm : r.repetitions[i]? with
  | none => simp [Nat.not_lt.mpr (List.getElem?_eq_none_iff.mp hm)]
  | some m =>
    have hi : i < r.repetitions.length := (List.getElem?_eq_some_iff.mp hm).1
    exact (Automaton.mem_next_state hm).trans (and_iff_right hi).symm

theorem nodup_next : (r.next i).Nodup := by
  rw [next, states_eq hr]
  cases hm : r.repetitions[i]? with
  | none => exact List.nodup_nil
  | some m => exact Automaton.nodup_next_state

theorem accepting_iff :
    r.accepting i = true ↔ i < r.repetitions.length ∧ Skips r.repetitions (i + 1) r.repetitions.length := by
  rw [accepting, states_eq hr]
  cases hm : r.repetitions[i]? with
  | none => simp [Nat.not_lt.mpr (List.getElem?_eq_none_iff.mp hm)]
  | some m =>
    have hi : i < r.repetitions.length := (List.getElem?_eq_some_iff.mp hm).1
    exact Automaton.accepting_state.trans (and_iff_right hi).symm

theorem mem_starts : i ∈ r.automaton.starts ↔ i < r.repetitions.length ∧ Skips r.repetitions 0 i := by
  rw [hr]
  exact Automaton.mem_startsOf

theorem nodup_starts : r.automaton.starts.Nodup := by
  rw [hr]
  exact Automaton.nodup_startsOf

end Route

end Provenance.Path
