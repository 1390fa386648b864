import Provenance.Proofs.Number.Rounding
import Provenance.Proofs.Value.Everywhere
import Provenance.Proofs.Value.Ordering
import Provenance.Proofs.Value.Uniform

/-!
# Comparing values of any kind

Turned around, a comparison is reversed, whatever the values are. It is transitive
for values in which no floating point number stands for two whole numbers at
once, and without NaN two values that compare equal are equal if their lists have
the same tags (`compare_laws`). Neither condition can go (`compare_not_total`).
-/

namespace Provenance.Value

/-! ## Numbers -/

theorem number_of_place {v : Value} (h : v.tag.place = 0) : (∃ i, v = int i) ∨ ∃ x, v = float x := by
  cases v <;> first | exact .inl ⟨_, rfl⟩ | exact .inr ⟨_, rfl⟩ | cases h

theorem rank_floatOfInt_mono {i j : Int64} (h : i.toInt ≤ j.toInt) : (floatOfInt i).rank ≤ (floatOfInt j).rank := by
  refine Binary64.rank_ofInt_mono ?_ ?_ h
  · have := i.toInt_lt
    have := i.le_toInt
    omega
  · have := j.toInt_lt
    have := j.le_toInt
    omega

theorem isNaN_floatOfInt (i : Int64) : (floatOfInt i).isNaN = false := by
  refine (Binary64.rank_ofInt ?_).1
  have := i.toInt_lt
  have := i.le_toInt
  omega

/-- No floating point number among them compares equal to two whole numbers among them that differ. -/
def KeepApart (ns : List Value) : Prop :=
  ∀ x ∈ ns, ∀ v ∈ ns, ∀ w ∈ ns, x.tag = .float → v.tag = .int → w.tag = .int →
    x.compare v = .eq → x.compare w = .eq → v.compare w = .eq

instance (ns : List Value) : Decidable (KeepApart ns) :=
  inferInstanceAs (Decidable (∀ x ∈ ns, ∀ v ∈ ns, ∀ w ∈ ns, _ → _ → _ → _ → _ → _))

section

variable {i j r s t : Int}

/-- Of three numbers the whole ones `i` and `j`, which as floating point numbers are at `r` and `s`, are
told apart next to one at `t`. -/
theorem chained_merged (hmono : i ≤ j → r ≤ s) (hmono' : j ≤ i → s ≤ r) (hapart : t = r → t = s → i = j) :
    Chained (Ord.compare i j) (Ord.compare s t) (Ord.compare r t) ∧
      Chained (Ord.compare r t) (Ord.compare t s) (Ord.compare i j) ∧
      Chained (Ord.compare t r) (Ord.compare i j) (Ord.compare t s) := by
  simp only [Int.compare_eq_ite_lt]
  refine ⟨?_, ?_, ?_⟩ <;> split_ifs <;> first | decide | omega

end

mutual

/-- The numbers in a value, at every depth. -/
def numbers : Value → List Value
  | int n => [int n]
  | float x => [float x]
  | tuple vs => numbersAll vs
  | list _ vs => numbersAll vs
  | _ => []

def numbersAll : List Value → List Value
  | [] => []
  | v :: vs => v.numbers ++ numbersAll vs

end

/-! ## The order -/

section

variable {ns : List Value} (hns : KeepApart ns)
include hns

theorem KeepApart.chained_numbers {u v w : Value} (hu : u ∈ ns) (hv : v ∈ ns) (hw : w ∈ ns) (hpu : u.tag.place = 0)
    (hpv : v.tag.place = 0) (hpw : w.tag.place = 0) : Chained (u.compare v) (v.compare w) (u.compare w) := by
  have hapart : ∀ {x : Binary64} {i j : Int64}, float x ∈ ns → int i ∈ ns → int j ∈ ns →
      x.rank = (floatOfInt i).rank → x.rank = (floatOfInt j).rank → i.toInt = j.toInt :=
    fun hx hi hj hxi hxj => by
      have h := hns _ hx _ hi _ hj rfl rfl rfl
      simp only [compare, Binary64.compare, Std.compare_eq_iff_eq] at h
      exact h hxi hxj
  obtain ⟨i, rfl⟩ | ⟨x, rfl⟩ := number_of_place hpu <;> obtain ⟨j, rfl⟩ | ⟨y, rfl⟩ := number_of_place hpv <;>
    obtain ⟨k, rfl⟩ | ⟨z, rfl⟩ := number_of_place hpw <;> simp only [compare, Binary64.compare]
  · exact Chained.of_ord _ _ _
  · exact (chained_merged rank_floatOfInt_mono rank_floatOfInt_mono (hapart hw hu hv)).1
  · exact (chained_merged rank_floatOfInt_mono rank_floatOfInt_mono (hapart hv hu hw)).2.1
  · exact Chained.of_ord _ _ _
  · exact (chained_merged rank_floatOfInt_mono rank_floatOfInt_mono (hapart hu hv hw)).2.2
  · exact Chained.of_ord _ _ _
  · exact Chained.of_ord _ _ _
  · exact Chained.of_ord _ _ _

theorem KeepApart.chained_number {u v w : Value} (hplace : u.tag.place = 0) (hu : u.numbers ⊆ ns) (hv : v.numbers ⊆ ns)
    (hw : w.numbers ⊆ ns) : Chained (u.compare v) (v.compare w) (u.compare w) := by
  have hmem : ∀ {n : Value}, n.tag.place = 0 → n.numbers ⊆ ns → n ∈ ns := fun hn hsub => by
    obtain ⟨i, rfl⟩ | ⟨x, rfl⟩ := number_of_place hn <;> simpa [numbers] using hsub
  rw [compare_eq_then u v, compare_eq_then v w, compare_eq_then u w]
  refine (Chained.of_ord _ _ _).andThen fun huv hvw => ?_
  have hpv : v.tag.place = 0 := (Std.compare_eq_iff_eq.mp huv).symm.trans hplace
  have hpw : w.tag.place = 0 := (Std.compare_eq_iff_eq.mp hvw).symm.trans hpv
  exact hns.chained_numbers (hmem hplace hu) (hmem hpv hv) (hmem hpw hw) hplace hpv hpw

end

/-- The values `seq k xs` have a place of their own, where they sort by length and then one by one,
whatever `k` is. -/
structure Sequence {κ : Type} (seq : κ → List Value → Value) : Prop where
  place : ∀ k xs v, (seq k xs).tag.place = v.tag.place → ∃ k' ys, v = seq k' ys
  compare : ∀ k k' xs ys, (seq k xs).compare (seq k' ys) = (Ord.compare xs.length ys.length).then (compareAll xs ys)
  numbers : ∀ k xs, (seq k xs).numbers = numbersAll xs

theorem sequence_tuple : Sequence fun _ : Unit => tuple where
  place _ _ v h := by
    cases v <;> first | exact ⟨(), _, rfl⟩ | cases h
  compare _ _ _ _ := by rw [compare]
  numbers _ _ := by rw [numbers]

theorem sequence_list : Sequence list where
  place _ _ v h := by
    cases v <;> first | exact ⟨_, _, rfl⟩ | cases h
  compare _ _ _ _ := by rw [compare]
  numbers _ _ := by rw [numbers]

namespace Sequence

variable {κ : Type} {seq : κ → List Value → Value} (h : Sequence seq) {k : κ} {xs : List Value}
include h

theorem swap (hall : ∀ ys, compareAll ys xs = (compareAll xs ys).swap) (v : Value) :
    v.compare (seq k xs) = ((seq k xs).compare v).swap := by
  by_cases hplace : (seq k xs).tag.place = v.tag.place
  · obtain ⟨k', ys, rfl⟩ := h.place k xs v hplace
    rw [h.compare, h.compare, hall, Ordering.swap_then]
    congr 1
    exact Std.OrientedOrd.eq_swap
  · rw [compare_of_place_ne hplace, compare_of_place_ne (Ne.symm hplace)]
    exact Std.OrientedOrd.eq_swap

theorem chained {ns : List Value}
    (hall : ∀ ys zs, xs.length = ys.length → ys.length = zs.length → numbersAll xs ⊆ ns → numbersAll ys ⊆ ns →
      numbersAll zs ⊆ ns → Chained (compareAll xs ys) (compareAll ys zs) (compareAll xs zs))
    (v w : Value) (hu : (seq k xs).numbers ⊆ ns) (hv : v.numbers ⊆ ns) (hw : w.numbers ⊆ ns) :
    Chained ((seq k xs).compare v) (v.compare w) ((seq k xs).compare w) := by
  rw [compare_eq_then (seq k xs) v, compare_eq_then v w, compare_eq_then (seq k xs) w]
  refine (Chained.of_ord _ _ _).andThen fun huv hvw => ?_
  obtain ⟨k', ys, rfl⟩ := h.place k xs v (Std.compare_eq_iff_eq.mp huv)
  obtain ⟨k'', zs, rfl⟩ := h.place k' ys w (Std.compare_eq_iff_eq.mp hvw)
  rw [h.numbers] at hu hv hw
  rw [h.compare, h.compare, h.compare]
  exact (Chained.of_ord _ _ _).andThen fun hxy hyz =>
    hall ys zs (Std.compare_eq_iff_eq.mp hxy) (Std.compare_eq_iff_eq.mp hyz) hu hv hw

end Sequence

mutual

theorem compare_swap : ∀ v w : Value, w.compare v = (v.compare w).swap
  | int i, w => by
    cases w <;> first | rfl | (simp only [compare]; exact Std.OrientedOrd.eq_swap)
  | float x, w => by
    cases w <;> first | rfl | (simp only [compare]; exact Std.OrientedOrd.eq_swap)
  | str s, w => keyed_str.swap s w
  | object p, w => keyed_object.swap p w
  | range a b, w => @Keyed.swap _ _ lexOrd _ _ keyed_range _ (a, b) w
  | tuple xs, w => sequence_tuple.swap (k := ()) (compareAll_swap xs) w
  | list _ xs, w => sequence_list.swap (compareAll_swap xs) w
  | all, w => keyed_all.swap () w
  | index a, w => keyed_index.swap a w
  | lambda a x body, w => keyed_lambda.swap (a, x, body) w
  | builtin b, w => keyed_builtin.swap b w

theorem compareAll_swap : ∀ xs ys : List Value, compareAll ys xs = (compareAll xs ys).swap
  | [], ys => by cases ys <;> rfl
  | _ :: _, [] => rfl
  | x :: xs, y :: ys => by
    rw [compareAll, compareAll, Ordering.swap_then, compare_swap x y, compareAll_swap xs ys]

end

mutual

theorem KeepApart.chained {ns : List Value} (hns : KeepApart ns) : ∀ u v w : Value, u.numbers ⊆ ns → v.numbers ⊆ ns →
    w.numbers ⊆ ns → Chained (u.compare v) (v.compare w) (u.compare w)
  | int _, _, _, hu, hv, hw => hns.chained_number rfl hu hv hw
  | float _, _, _, hu, hv, hw => hns.chained_number rfl hu hv hw
  | str s, v, w, _, _, _ => keyed_str.chained s v w
  | object p, v, w, _, _, _ => keyed_object.chained p v w
  | range a b, v, w, _, _, _ => @Keyed.chained _ _ lexOrd _ _ keyed_range _ (a, b) v w
  | tuple xs, v, w, hu, hv, hw => sequence_tuple.chained (k := ()) (KeepApart.chainedAll hns xs) v w hu hv hw
  | list _ xs, v, w, hu, hv, hw => sequence_list.chained (KeepApart.chainedAll hns xs) v w hu hv hw
  | all, v, w, _, _, _ => keyed_all.chained () v w
  | index a, v, w, _, _, _ => keyed_index.chained a v w
  | lambda a x body, v, w, _, _, _ => keyed_lambda.chained (a, x, body) v w
  | builtin b, v, w, _, _, _ => keyed_builtin.chained b v w

theorem KeepApart.chainedAll {ns : List Value} (hns : KeepApart ns) : ∀ xs ys zs : List Value, xs.length = ys.length →
    ys.length = zs.length → numbersAll xs ⊆ ns → numbersAll ys ⊆ ns → numbersAll zs ⊆ ns →
    Chained (compareAll xs ys) (compareAll ys zs) (compareAll xs zs)
  | [], [], [], _, _, _, _, _ => by decide
  | x :: xs, y :: ys, z :: zs, hxy, hyz, hx, hy, hz => by
    rw [numbersAll, List.append_subset] at hx hy hz
    rw [compareAll, compareAll, compareAll]
    exact (KeepApart.chained hns x y z hx.1 hy.1 hz.1).andThen fun _ _ =>
      KeepApart.chainedAll hns xs ys zs (Nat.succ.inj hxy) (Nat.succ.inj hyz) hx.2 hy.2 hz.2

end

/-! ## Equality -/

/-- No number in the value is NaN. -/
def isNaNFree (v : Value) : Bool :=
  v.everywhere fun
    | float x => !x.isNaN
    | _ => true

theorem isNaNFree_tuple {vs : List Value} : (tuple vs).isNaNFree = true ↔ ∀ v ∈ vs, v.isNaNFree = true :=
  everywhere_tuple rfl

theorem isNaNFree_list {t : Option Tag} {vs : List Value} : (list t vs).isNaNFree = true ↔ ∀ v ∈ vs, v.isNaNFree = true :=
  everywhere_list rfl

theorem isNaNFree_float {x : Binary64} : (float x).isNaNFree = true ↔ x.isNaN = false := by
  rw [isNaNFree, everywhere, Bool.not_eq_true'] <;> intros <;> contradiction

mutual

/-- Wherever both values have a list, the lists are of the same kind. -/
def listsAlike : Value → Value → Bool
  | tuple xs, tuple ys => listsAlikeAll xs ys
  | list s xs, list t ys => s == t && listsAlikeAll xs ys
  | _, _ => true

def listsAlikeAll : List Value → List Value → Bool
  | x :: xs, y :: ys => x.listsAlike y && listsAlikeAll xs ys
  | _, _ => true

end

theorem listsAlike_of_leaf {v : Value} (h : (v.tag != .tuple && v.tag != .list) = true) (w : Value) :
    v.listsAlike w = true := by
  cases v <;> cases w <;> first | rfl | cases h

theorem equals_iff_of_place_ne {v w : Value} (h : v.tag.place ≠ w.tag.place) :
    v.equals w = true ↔ v.compare w = .eq ∧ v.listsAlike w = true := by
  rw [equals_of_place_ne h]
  exact iff_of_false Bool.false_ne_true fun heq => h (place_of_compare_eq heq.1)

theorem equals_iff_rank {x y : Binary64} (hx : x.isNaN = false) (hy : y.isNaN = false) :
    x.equals y = true ↔ x.rank = y.rank := by
  rw [Binary64.equals, hx, hy]
  exact beq_iff_eq

theorem equals_number_iff {v w : Value} (hplace : v.tag.place = 0) (hv : v.isNaNFree = true) (hw : w.isNaNFree = true) :
    v.equals w = true ↔ v.compare w = .eq := by
  by_cases hw0 : w.tag.place = 0
  · obtain ⟨i, rfl⟩ | ⟨x, rfl⟩ := number_of_place hplace <;> obtain ⟨j, rfl⟩ | ⟨y, rfl⟩ := number_of_place hw0
    · rw [equals, compare, Std.compare_eq_iff_eq, beq_iff_eq, Int64.toInt_inj]
    · rw [equals, compare, Binary64.compare, Std.compare_eq_iff_eq,
        equals_iff_rank (isNaN_floatOfInt i) (isNaNFree_float.mp hw)]
    · rw [equals, compare, Binary64.compare, Std.compare_eq_iff_eq,
        equals_iff_rank (isNaN_floatOfInt j) (isNaNFree_float.mp hv), eq_comm]
    · rw [equals, compare, Binary64.compare, Std.compare_eq_iff_eq,
        equals_iff_rank (isNaNFree_float.mp hv) (isNaNFree_float.mp hw)]
  · have hne : v.tag.place ≠ w.tag.place := fun h => hw0 (h.symm.trans hplace)
    rw [equals_of_place_ne hne]
    exact iff_of_false Bool.false_ne_true fun heq => hne (place_of_compare_eq heq)

mutual

theorem equals_iff : ∀ v w : Value, v.isNaNFree = true → w.isNaNFree = true →
    (v.equals w = true ↔ v.compare w = .eq ∧ v.listsAlike w = true)
  | int _, w, hv, hw => (equals_number_iff rfl hv hw).trans (and_iff_left (listsAlike_of_leaf rfl w)).symm
  | float _, w, hv, hw => (equals_number_iff rfl hv hw).trans (and_iff_left (listsAlike_of_leaf rfl w)).symm
  | str s, w, _, _ => (keyed_str.equals_iff s w).trans (and_iff_left (listsAlike_of_leaf rfl w)).symm
  | object p, w, _, _ => (keyed_object.equals_iff p w).trans (and_iff_left (listsAlike_of_leaf rfl w)).symm
  | range a b, w, _, _ =>
    (@Keyed.equals_iff _ _ lexOrd _ _ keyed_range _ (a, b) w).trans (and_iff_left (listsAlike_of_leaf rfl w)).symm
  | tuple xs, w, hv, hw => by
    by_cases hplace : (tuple xs).tag.place = w.tag.place
    · obtain ⟨-, ys, rfl⟩ := sequence_tuple.place () xs w hplace
      rw [equals, compare, listsAlike, Ordering.then_eq_eq, Std.compare_eq_iff_eq,
        equalAll_iff xs ys (isNaNFree_tuple.mp hv) (isNaNFree_tuple.mp hw), and_assoc]
    · exact equals_iff_of_place_ne hplace
  | list s xs, w, hv, hw => by
    by_cases hplace : (list s xs).tag.place = w.tag.place
    · obtain ⟨t, ys, rfl⟩ := sequence_list.place s xs w hplace
      rw [equals, compare, listsAlike, Ordering.then_eq_eq, Std.compare_eq_iff_eq, Bool.and_eq_true, Bool.and_eq_true,
        equalAll_iff xs ys (isNaNFree_list.mp hv) (isNaNFree_list.mp hw), and_assoc, and_left_comm,
        and_left_comm (a := s == t)]
    · exact equals_iff_of_place_ne hplace
  | all, w, _, _ => (keyed_all.equals_iff () w).trans (and_iff_left (listsAlike_of_leaf rfl w)).symm
  | index a, w, _, _ => (keyed_index.equals_iff a w).trans (and_iff_left (listsAlike_of_leaf rfl w)).symm
  | lambda a x body, w, _, _ =>
    (keyed_lambda.equals_iff (a, x, body) w).trans (and_iff_left (listsAlike_of_leaf rfl w)).symm
  | builtin b, w, _, _ => (keyed_builtin.equals_iff b w).trans (and_iff_left (listsAlike_of_leaf rfl w)).symm

theorem equalAll_iff : ∀ xs ys : List Value, (∀ x ∈ xs, x.isNaNFree = true) → (∀ y ∈ ys, y.isNaNFree = true) →
    (equalAll xs ys = true ↔ xs.length = ys.length ∧ compareAll xs ys = .eq ∧ listsAlikeAll xs ys = true)
  | [], [], _, _ => by simp [equalAll, compareAll, listsAlikeAll]
  | [], _ :: _, _, _ => by simp [equalAll]
  | _ :: _, [], _, _ => by simp [equalAll]
  | x :: xs, y :: ys, hx, hy => by
    rw [List.forall_mem_cons] at hx hy
    rw [equalAll, compareAll, listsAlikeAll, Bool.and_eq_true, Bool.and_eq_true, Ordering.then_eq_eq,
      equals_iff x y hx.1 hy.1, equalAll_iff xs ys hx.2 hy.2, List.length_cons, List.length_cons, Nat.succ_inj]
    tauto

end

/-- Turned around the order is reversed; it is transitive as long as rounding makes no two whole
numbers one that a floating point number stands for; and values that compare equal are equal but
for the tags of lists. -/
theorem compare_laws (a b c : Value) :
    b.compare a = (a.compare b).swap ∧
      (KeepApart (a.numbers ++ (b.numbers ++ c.numbers)) → a.compare b ≠ .gt → b.compare c ≠ .gt → a.compare c ≠ .gt) ∧
      (a.isNaNFree = true → b.isNaNFree = true → (a.equals b = true ↔ a.compare b = .eq ∧ a.listsAlike b = true)) := by
  refine ⟨compare_swap a b, fun h => ?_, equals_iff a b⟩
  exact (h.chained a b c (List.subset_append_left _ _)
    (List.subset_append_of_subset_right _ (List.subset_append_left _ _))
    (List.subset_append_of_subset_right _ (List.subset_append_right _ _))).not_gt

/-- A whole number and the same as a floating point number, inside tuples and beside lists. -/
theorem compare_laws_promoted :
    let a := tuple [int 3, listOf [str "a"]]
    let b := tuple [float ⟨0x4008000000000000⟩, listOf [str "b"]]
    let c := tuple [int 4, listOf [str "a"]]
    KeepApart (a.numbers ++ (b.numbers ++ c.numbers)) ∧ a.compare b ≠ .gt ∧ b.compare c ≠ .gt ∧ a.compare c ≠ .gt ∧
      a.isNaNFree = true ∧ b.isNaNFree = true ∧ (a.equals b = true ↔ a.compare b = .eq ∧ a.listsAlike b = true) := by
  intro a b c
  have hapart : KeepApart (a.numbers ++ (b.numbers ++ c.numbers)) := by decide +kernel
  have hab : a.compare b ≠ .gt := by decide +kernel
  have hbc : b.compare c ≠ .gt := by decide +kernel
  have ha : a.isNaNFree = true := by decide +kernel
  have hb : b.isNaNFree = true := by decide +kernel
  obtain ⟨-, htrans, hequal⟩ := compare_laws a b c
  exact ⟨hapart, hab, hbc, htrans hapart hab hbc, ha, hb, hequal ha hb⟩

/-- The whole number `2 ^ 53 + 1` compares equal to the floating point number `2 ^ 53`, the one next to it, and
that to the whole number `2 ^ 53`; a list of a whole number compares equal to the list of the same floating
point number, which it does not equal. -/
theorem compare_not_total :
    (¬ ∀ a b c : Value, a.isUniform = true → b.isUniform = true → c.isUniform = true →
        a.isNaNFree = true → b.isNaNFree = true → c.isNaNFree = true →
        a.compare b ≠ .gt → b.compare c ≠ .gt → a.compare c ≠ .gt) ∧
      ¬ ∀ a b : Value, a.isUniform = true → b.isUniform = true → a.isNaNFree = true → b.isNaNFree = true →
        (a.compare b = .eq ↔ a.equals b = true) := by
  refine ⟨fun h => ?_, fun h => ?_⟩
  · have htrans := h (int 9007199254740993) (float ⟨0x4340000000000000⟩) (int 9007199254740992) rfl rfl rfl
      (by decide +kernel) (by decide +kernel) (by decide +kernel) (by decide +kernel) (by decide +kernel)
    exact htrans (by decide +kernel)
  · have hagree := h (listOf [int 1]) (listOf [float ⟨0x3FF0000000000000⟩]) rfl rfl (by decide +kernel) (by decide +kernel)
    have hequals := hagree.mp (by decide +kernel)
    exact absurd hequals (by decide +kernel)

end Provenance.Value
