import Provenance.Eval.Evaluate

/-!
# Counting from one end to the other

A loop over a range tests for the last number before it goes on to the next, so
it never leaves the numbers between the two ends. What it goes through is a list
that can be written down beforehand (`gatherRange_eq`), in whole numbers without
limits.
-/

namespace Provenance.Eval

/-- The number `k` steps away from `a`. -/
def away (up : Bool) (a : Int) (k : Nat) : Int :=
  if up then a + k else a - k

/-- The numbers from `a` to `b`, upwards or downwards, with both ends. -/
def countTo (a b : Int) : List Int :=
  (List.range ((b - a).natAbs + 1)).map (away (a ≤ b) a)

example : countTo 2 5 = [2, 3, 4, 5] ∧ countTo 1 (-1) = [1, 0, -1] ∧ countTo 7 7 = [7] := by decide

@[simp] theorem away_zero (up : Bool) (a : Int) : away up a 0 = a := by
  cases up <;> simp [away]

theorem away_succ (up : Bool) (a : Int) (k : Nat) : away up a (k + 1) = away up (away up a 1) k := by
  cases up <;> simp [away] <;> omega

/-- A number ahead of which there is another one is not at the limit. -/
theorem toInt_advance {up : Bool} {i last : Int64} {n : Nat} (h : last.toInt = away up i.toInt (n + 1)) :
    (advance up i).toInt = away up i.toInt 1 := by
  have hi := i.le_toInt
  have hi' := i.toInt_lt
  have hlast := last.le_toInt
  have hlast' := last.toInt_lt
  cases up with
  | true =>
    simp only [away, if_true] at h
    simp only [advance, away, if_true, Int64.toInt_add, Int64.toInt_one]
    rw [Int.bmod_eq_of_le (by omega) (by omega)]
    rfl
  | false =>
    simp only [away, Bool.false_eq_true, if_false] at h
    simp only [advance, away, Bool.false_eq_true, if_false, Int64.toInt_sub, Int64.toInt_one]
    rw [Int.bmod_eq_of_le (by omega) (by omega)]
    rfl

theorem ne_of_toInt_eq_away {up : Bool} {i last : Int64} {n : Nat} (h : last.toInt = away up i.toInt (n + 1)) : i ≠ last := by
  rintro rfl
  cases up <;> simp [away] at h <;> omega

variable {item : Value → Eval (Option Value)}

theorem gatherRange_eq_of_away {up : Bool} {last : Int64} : ∀ (n : Nat) {i : Int64} {gathered : Tagged},
    last.toInt = away up i.toInt n → gatherRange item up last i gathered =
      gatherAll item ((List.range (n + 1)).map fun k => .int (Int64.ofInt (away up i.toInt k))) gathered
  | 0, i, gathered, h => by
    obtain rfl : last = i := Int64.toInt_inj.mp (h.trans (away_zero up _))
    rw [gatherRange]
    simp [gatherAll]
  | n + 1, i, gathered, h => by
    have hadvance := toInt_advance h
    rw [gatherRange, List.range_succ_eq_map, List.map_cons, gatherAll, away_zero, Int64.ofInt_toInt]
    congr 1
    funext gathered
    rw [if_neg (ne_of_toInt_eq_away h), gatherRange_eq_of_away n (by rw [hadvance, ← away_succ, h]), List.map_map]
    simp only [hadvance, ← away_succ]
    rfl

def numbers (first last : Int64) : List Int64 :=
  (countTo first.toInt last.toInt).map Int64.ofInt

theorem away_natAbs (a b : Int) : away (a ≤ b) a (b - a).natAbs = b := by
  unfold away
  by_cases h : a ≤ b
  · rw [if_pos (decide_eq_true h)]
    omega
  · rw [if_neg (by simpa using h)]
    omega

theorem decide_le_eq (first last : Int64) : decide (first ≤ last) = decide (first.toInt ≤ last.toInt) := by
  simp [Int64.le_iff_toInt_le]

/-- The loop goes through the numbers from one end of the range to the other. -/
theorem gatherRange_eq (first last : Int64) (gathered : Tagged) :
    gatherRange item (first ≤ last) last first gathered = gatherAll item ((numbers first last).map .int) gathered := by
  rw [decide_le_eq, gatherRange_eq_of_away _ (away_natAbs first.toInt last.toInt).symm, numbers, countTo, List.map_map, List.map_map]
  rfl

theorem away_bounds {a b : Int} {k : Nat} (hk : k < (b - a).natAbs + 1) :
    min a b ≤ away (a ≤ b) a k ∧ away (a ≤ b) a k ≤ max a b := by
  by_cases h : a ≤ b <;> simp [away, h] <;> omega

theorem map_toInt_numbers (first last : Int64) : (numbers first last).map Int64.toInt = countTo first.toInt last.toInt := by
  rw [numbers, List.map_map]
  refine (List.map_congr_left fun n hn => ?_).trans (List.map_id _)
  obtain ⟨k, hk, rfl⟩ := List.mem_map.mp hn
  have hbounds := away_bounds (List.mem_range.mp hk)
  have hfirst := first.le_toInt
  have hfirst' := first.toInt_lt
  have hlast := last.le_toInt
  have hlast' := last.toInt_lt
  exact Int64.toInt_ofInt_of_le (by omega) (by omega)

/-- The step that the loop takes from any number but the last does not go round. -/
theorem toInt_advance_of_mem_numbers {first last i : Int64} (hi : i ∈ numbers first last) (hlast : i ≠ last) :
    (advance (first ≤ last) i).toInt = away (first ≤ last) i.toInt 1 := by
  have hmem : i.toInt ∈ countTo first.toInt last.toInt := by
    rw [← map_toInt_numbers]
    exact List.mem_map_of_mem hi
  obtain ⟨k, hk, hik⟩ := List.mem_map.mp hmem
  have hk := List.mem_range.mp hk
  have hend := away_natAbs first.toInt last.toInt
  have hne : k ≠ (last.toInt - first.toInt).natAbs := by
    rintro rfl
    exact hlast (Int64.toInt_inj.mp (hik.symm.trans hend))
  obtain ⟨n, hn⟩ : ∃ n, (last.toInt - first.toInt).natAbs = k + (n + 1) :=
    ⟨(last.toInt - first.toInt).natAbs - k - 1, by omega⟩
  rw [decide_le_eq]
  apply toInt_advance (n := n)
  rw [hn] at hend
  rw [← hend, ← hik]
  cases decide (first.toInt ≤ last.toInt) <;> simp [away] <;> omega

theorem overSource_range (first last : Int64) : overSource item (.range first last) =
    gatherAll item ((numbers first last).map .int) .empty >>= fun gathered => pure (some gathered.reverse.value) := by
  rw [overSource, gatherRange_eq]

end Provenance.Eval
