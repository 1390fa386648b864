import Provenance.Proofs.Value.Order
import Provenance.Proofs.Value.Sorting

/-!
# The set operations on lists without floating point numbers

Values without floating point numbers are totally ordered. If in addition their
lists keep the tags of their members, those that compare equal cannot be told
apart by `equals`, since they differ in the bodies of closures at most. So
sorting, union, intersection and difference are exact (`setOperations_exact`). A value to look up may still be a floating point number: it can
equal two different members, one of either side, and is then in both lists
without being in the intersection (`setOperations_between`).
-/

namespace Provenance

namespace Value

/-- Neither a floating point number nor is there one inside. -/
def isFloatFree (v : Value) : Bool :=
  v.everywhere fun w => w.tag != .float

theorem isFloatFree_tuple {vs : List Value} : (tuple vs).isFloatFree = true ↔ ∀ v ∈ vs, v.isFloatFree = true :=
  everywhere_tuple rfl

theorem isFloatFree_list {t : Option Tag} {vs : List Value} : (list t vs).isFloatFree = true ↔ ∀ v ∈ vs, v.isFloatFree = true :=
  everywhere_list rfl

theorem isFloatFree_float {x : Binary64} : ¬ (float x).isFloatFree = true := by
  simp [isFloatFree, everywhere, tag]

/-- Uniform, and without floating point numbers. -/
structure Discrete (v : Value) : Prop where
  uniform : v.isUniform = true
  floatFree : v.isFloatFree = true

theorem Discrete.of_tuple {vs : List Value} (h : Discrete (tuple vs)) : ∀ v ∈ vs, Discrete v := fun v hv =>
  ⟨isUniform_tuple.mp h.uniform v hv, isFloatFree_tuple.mp h.floatFree v hv⟩

theorem Discrete.of_list {t : Option Tag} {vs : List Value} (h : Discrete (list t vs)) : ∀ v ∈ vs, Discrete v :=
  fun v hv => ⟨(isUniform_list.mp h.uniform).2 v hv, isFloatFree_list.mp h.floatFree v hv⟩

theorem isNaNFree_of_isFloatFree {v : Value} (h : v.isFloatFree = true) : v.isNaNFree = true := by
  refine everywhere_mono (fun w hw => ?_) v h
  cases w <;> first | rfl | cases hw

mutual

theorem tag_of_mem_numbers : ∀ {v n : Value}, v.isFloatFree = true → n ∈ v.numbers → n.tag ≠ .float
  | int _, n, _, hn => by
    rw [numbers, List.mem_singleton] at hn
    rw [hn]
    exact Tag.noConfusion
  | float _, _, h, _ => absurd h isFloatFree_float
  | tuple vs, n, h, hn => by
    rw [numbers] at hn
    exact tag_of_mem_numbersAll (isFloatFree_tuple.mp h) hn
  | list _ vs, n, h, hn => by
    rw [numbers] at hn
    exact tag_of_mem_numbersAll (isFloatFree_list.mp h) hn

theorem tag_of_mem_numbersAll : ∀ {vs : List Value} {n : Value}, (∀ v ∈ vs, v.isFloatFree = true) →
    n ∈ numbersAll vs → n.tag ≠ .float
  | v :: vs, n, h, hn => by
    rw [List.forall_mem_cons] at h
    rw [numbersAll, List.mem_append] at hn
    rcases hn with hn | hn
    · exact tag_of_mem_numbers h.1 hn
    · exact tag_of_mem_numbersAll h.2 hn

end

theorem ordered_discrete : Ordered Discrete where
  swap _ _ := compare_swap _ _
  chained {u v w} hu hv hw := by
    have hapart : KeepApart (u.numbers ++ (v.numbers ++ w.numbers)) := fun x hx _ _ _ _ htag => by
      rcases List.mem_append.mp hx with hx | hx
      · exact absurd htag (tag_of_mem_numbers hu.floatFree hx)
      · rcases List.mem_append.mp hx with hx | hx
        · exact absurd htag (tag_of_mem_numbers hv.floatFree hx)
        · exact absurd htag (tag_of_mem_numbers hw.floatFree hx)
    exact hapart.chained u v w (List.subset_append_left _ _)
      (List.subset_append_of_subset_right _ (List.subset_append_left _ _))
      (List.subset_append_of_subset_right _ (List.subset_append_right _ _))

/-! ## Equality without floating point numbers -/

theorem place_of_equals {v w : Value} (h : v.equals w = true) : v.tag.place = w.tag.place := by
  by_contra hne
  rw [equals_of_place_ne hne] at h
  cases h

theorem tag_of_compare_eq {v w : Value} (hv : Discrete v) (hw : Discrete w) (h : v.compare w = .eq) : v.tag = w.tag := by
  have hplace := place_of_compare_eq h
  have hnot : ∀ {x : Binary64}, ¬ Discrete (float x) := fun hx => isFloatFree_float hx.floatFree
  cases v <;> cases w <;> first | rfl | exact absurd hv hnot | exact absurd hw hnot | cases hplace

theorem tag?_of_compareAll_eq : ∀ {xs ys : List Value}, (∀ x ∈ xs, Discrete x) → (∀ y ∈ ys, Discrete y) →
    xs.length = ys.length → compareAll xs ys = .eq → Members.tag? xs = Members.tag? ys
  | [], [], _, _, _, _ => rfl
  | x :: _, y :: _, hx, hy, _, h => by
    rw [compareAll, Ordering.then_eq_eq] at h
    exact congrArg some (tag_of_compare_eq (hx x List.mem_cons_self) (hy y List.mem_cons_self) h.1)

mutual

theorem listsAlike_of_compare_eq : ∀ {v w : Value}, Discrete v → Discrete w → v.compare w = .eq → v.listsAlike w = true
  | tuple xs, w, hv, hw, h => by
    obtain ⟨-, ys, rfl⟩ := sequence_tuple.place () xs w (place_of_compare_eq h)
    rw [compare, Ordering.then_eq_eq, Std.compare_eq_iff_eq] at h
    rw [listsAlike]
    exact listsAlikeAll_of_compareAll_eq hv.of_tuple hw.of_tuple h.1 h.2
  | list s xs, w, hv, hw, h => by
    obtain ⟨t, ys, rfl⟩ := sequence_list.place s xs w (place_of_compare_eq h)
    rw [compare, Ordering.then_eq_eq, Std.compare_eq_iff_eq] at h
    have hkind : s = t := calc
      s = Members.tag? xs := (isUniform_list.mp hv.uniform).1.tag
      _ = Members.tag? ys := tag?_of_compareAll_eq hv.of_list hw.of_list h.1 h.2
      _ = t := (isUniform_list.mp hw.uniform).1.tag.symm
    rw [listsAlike, hkind, beq_self_eq_true, Bool.true_and]
    exact listsAlikeAll_of_compareAll_eq hv.of_list hw.of_list h.1 h.2
  | int _, w, _, _, _ => listsAlike_of_leaf rfl w
  | float _, w, _, _, _ => listsAlike_of_leaf rfl w
  | str _, w, _, _, _ => listsAlike_of_leaf rfl w
  | object _, w, _, _, _ => listsAlike_of_leaf rfl w
  | range _ _, w, _, _, _ => listsAlike_of_leaf rfl w
  | all, w, _, _, _ => listsAlike_of_leaf rfl w
  | index _, w, _, _, _ => listsAlike_of_leaf rfl w
  | lambda _ _ _, w, _, _, _ => listsAlike_of_leaf rfl w
  | builtin _, w, _, _, _ => listsAlike_of_leaf rfl w

theorem listsAlikeAll_of_compareAll_eq : ∀ {xs ys : List Value}, (∀ x ∈ xs, Discrete x) → (∀ y ∈ ys, Discrete y) →
    xs.length = ys.length → compareAll xs ys = .eq → listsAlikeAll xs ys = true
  | [], [], _, _, _, _ => by rw [listsAlikeAll]; exact fun _ _ _ _ h => by cases h
  | x :: xs, y :: ys, hx, hy, hlen, h => by
    rw [List.forall_mem_cons] at hx hy
    rw [compareAll, Ordering.then_eq_eq] at h
    rw [listsAlikeAll, listsAlike_of_compare_eq hx.1 hy.1 h.1,
      listsAlikeAll_of_compareAll_eq hx.2 hy.2 (Nat.succ.inj hlen) h.2]
    rfl

end

theorem equals_iff_compare {v w : Value} (hv : Discrete v) (hw : Discrete w) : v.equals w = true ↔ v.compare w = .eq := by
  rw [equals_iff v w (isNaNFree_of_isFloatFree hv.floatFree) (isNaNFree_of_isFloatFree hw.floatFree)]
  exact and_iff_left_of_imp fun h => listsAlike_of_compare_eq hv hw h

mutual

/-- What equals a value without floating point numbers is equal to the same values. -/
theorem equals_congr : ∀ {v w : Value}, v.isFloatFree = true → w.isFloatFree = true → v.equals w = true →
    ∀ u, v.equals u = w.equals u
  | int i, w, _, hw, h => by
    cases w with
    | int j =>
      rw [equals, beq_iff_eq] at h
      rw [h]
      exact fun _ => rfl
    | float x => exact absurd hw isFloatFree_float
    | _ => cases h
  | float _, _, hv, _, _ => absurd hv isFloatFree_float
  | str s, _, _, _, h => keyed_str.congr h
  | object p, _, _, _, h => keyed_object.congr h
  | range a b, _, _, _, h => @Keyed.congr _ _ lexOrd _ _ keyed_range (a, b) _ h
  | tuple xs, w, hv, hw, h => by
    obtain ⟨-, ys, rfl⟩ := sequence_tuple.place () xs w (place_of_equals h)
    rw [equals] at h
    have hall := equalAll_congr (isFloatFree_tuple.mp hv) (isFloatFree_tuple.mp hw) h
    intro u
    cases u with
    | tuple zs =>
      rw [equals, equals]
      exact hall zs
    | _ => rfl
  | list s xs, w, hv, hw, h => by
    obtain ⟨t, ys, rfl⟩ := sequence_list.place s xs w (place_of_equals h)
    rw [equals, Bool.and_eq_true, beq_iff_eq] at h
    have hall := equalAll_congr (isFloatFree_list.mp hv) (isFloatFree_list.mp hw) h.2
    intro u
    cases u with
    | list _ zs =>
      rw [equals, equals, h.1, hall zs]
    | _ => rfl
  | all, _, _, _, h => keyed_all.congr (x := ()) h
  | index a, _, _, _, h => keyed_index.congr h
  | lambda a x body, _, _, _, h => keyed_lambda.congr (x := (a, x, body)) h
  | builtin b, _, _, _, h => keyed_builtin.congr h

theorem equalAll_congr : ∀ {xs ys : List Value}, (∀ x ∈ xs, x.isFloatFree = true) → (∀ y ∈ ys, y.isFloatFree = true) →
    equalAll xs ys = true → ∀ zs, equalAll xs zs = equalAll ys zs
  | [], [], _, _, _, _ => rfl
  | [], _ :: _, _, _, h, _ => by cases h
  | _ :: _, [], _, _, h, _ => by cases h
  | x :: xs, y :: ys, hx, hy, h, zs => by
    rw [List.forall_mem_cons] at hx hy
    rw [equalAll, Bool.and_eq_true] at h
    cases zs with
    | nil => rfl
    | cons z zs => rw [equalAll, equalAll, equals_congr hx.1 hy.1 h.1, equalAll_congr hx.2 hy.2 h.2]

end

end Value

namespace Members

open Value

theorem Merge.keeps_union {p q : Prop} : Merge.Keeps ⟨true, true, true⟩ p q ↔ p ∨ q := by
  unfold Merge.Keeps
  tauto

theorem Merge.keeps_intersect {p q : Prop} : Merge.Keeps ⟨false, false, true⟩ p q ↔ p ∧ q := by
  simp [Merge.Keeps]

theorem Merge.keeps_difference {p q : Prop} : Merge.Keeps ⟨true, false, false⟩ p q ↔ p ∧ ¬ q := by
  simp [Merge.Keeps]

theorem has_iff {l : Members} {v : Value} : l.has v = true ↔ ∃ w ∈ l, w.equals v = true :=
  List.any_eq_true

section

variable {a b l : Members} {v w : Value} (ha : ∀ v ∈ a, Discrete v) (hb : ∀ v ∈ b, Discrete v)
  (hl : ∀ v ∈ l, Discrete v)

include hl

/-- Whatever equals a value that a list covers is in the list. -/
theorem has_iff_covers : l.has v = true ↔ ∃ w, Discrete w ∧ w.equals v = true ∧ Covers l w := by
  rw [has_iff]
  constructor
  · rintro ⟨w, hw, hwv⟩
    exact ⟨w, hl w hw, hwv, w, hw, ordered_discrete.refl (hl w hw)⟩
  · rintro ⟨w, hwf, hwv, w', hw', hc⟩
    have heq := (equals_iff_compare (hl w' hw') hwf).mpr hc
    exact ⟨w', hw', (equals_congr (hl w' hw').floatFree hwf.floatFree heq v).trans hwv⟩

omit hl

theorem run_sortedSet_subset (m : Merge) (a b : Members) : m.run a.sortedSet b.sortedSet ⊆ a ++ b := fun v hv =>
  List.mem_append.mpr ((List.mem_append.mp (run_subset m hv)).imp (@sortedSet_subset a v) (@sortedSet_subset b v))

include ha

theorem has_sortedSet : a.sortedSet.has v = a.has v := by
  have hcovers := (rising_sortedSet ordered_discrete ha).2
  rw [Bool.eq_iff_iff, has_iff_covers ha, has_iff_covers fun w hw => ha w (sortedSet_subset a hw)]
  exact exists_congr fun w => and_congr_right fun hw => and_congr_right fun _ => hcovers w hw

include hb

theorem discrete_run (m : Merge) : ∀ v ∈ m.run a.sortedSet b.sortedSet, Discrete v := fun v hv =>
  (List.mem_append.mp (run_sortedSet_subset m a b hv)).elim (ha v) (hb v)

theorem has_merge (m : Merge) : (m.run a.sortedSet b.sortedSet).has v = true ↔
    ∃ w, Discrete w ∧ w.equals v = true ∧ m.Keeps (Covers a w) (Covers b w) := by
  have hcovers := (rising_merge ordered_discrete m ha hb).2
  rw [has_iff_covers (discrete_run ha hb m)]
  exact exists_congr fun w => and_congr_right fun hw => and_congr_right fun _ => hcovers w hw

theorem has_union :
    (Merge.run ⟨true, true, true⟩ a.sortedSet b.sortedSet).has v = true ↔ a.has v = true ∨ b.has v = true := by
  simp only [has_merge ha hb, has_iff_covers ha, has_iff_covers hb, Merge.keeps_union, and_or_left, exists_or]

/-- The value does not equal two different members, one of either list. -/
def Sharp (a b : Members) (v : Value) : Prop :=
  ∀ w ∈ a, ∀ w' ∈ b, w.equals v = true → w'.equals v = true → w.equals w' = true

theorem sharp_of_isFloatFree (hv : v.isFloatFree = true) : Sharp a b v := by
  intro w hw w' hw' hwv hwv'
  have hself : w'.equals w' = true :=
    (equals_iff_compare (hb w' hw') (hb w' hw')).mpr (ordered_discrete.refl (hb w' hw'))
  calc w.equals w' = v.equals w' := equals_congr (ha w hw).floatFree hv hwv w'
    _ = w'.equals w' := (equals_congr (hb w' hw').floatFree hv hwv' w').symm
    _ = true := hself

theorem has_intersect (hv : Sharp a b v) :
    (Merge.run ⟨false, false, true⟩ a.sortedSet b.sortedSet).has v = true ↔ a.has v = true ∧ b.has v = true := by
  simp only [has_merge ha hb, Merge.keeps_intersect]
  constructor
  · rintro ⟨w, hwf, hwv, hca, hcb⟩
    exact ⟨(has_iff_covers ha).mpr ⟨w, hwf, hwv, hca⟩, (has_iff_covers hb).mpr ⟨w, hwf, hwv, hcb⟩⟩
  · rintro ⟨hav, hbv⟩
    obtain ⟨w, hw, hwv⟩ := has_iff.mp hav
    obtain ⟨w', hw', hwv'⟩ := has_iff.mp hbv
    have hc := (equals_iff_compare (ha w hw) (hb w' hw')).mp (hv w hw w' hw' hwv hwv')
    exact ⟨w, ha w hw, hwv, ⟨w, hw, ordered_discrete.refl (ha w hw)⟩,
      w', hw', ordered_discrete.symm (ha w hw) (hb w' hw') hc⟩

theorem has_difference (hv : Sharp a b v) :
    (Merge.run ⟨true, false, false⟩ a.sortedSet b.sortedSet).has v = true ↔ a.has v = true ∧ ¬ b.has v = true := by
  simp only [has_merge ha hb, Merge.keeps_difference]
  constructor
  · rintro ⟨w, hwf, hwv, hca, hcb⟩
    refine ⟨(has_iff_covers ha).mpr ⟨w, hwf, hwv, hca⟩, fun hbv => hcb ?_⟩
    obtain ⟨w₁, hw₁, hc₁⟩ := hca
    obtain ⟨w₂, hw₂, hwv₂⟩ := has_iff.mp hbv
    have hwv₁ : w₁.equals v = true :=
      (equals_congr (ha w₁ hw₁).floatFree hwf.floatFree ((equals_iff_compare (ha w₁ hw₁) hwf).mpr hc₁) v).trans hwv
    have hc := (equals_iff_compare (ha w₁ hw₁) (hb w₂ hw₂)).mp (hv w₁ hw₁ w₂ hw₂ hwv₁ hwv₂)
    have hc' := ordered_discrete.symm (ha w₁ hw₁) (hb w₂ hw₂) hc
    refine ⟨w₂, hw₂, ?_⟩
    rw [ordered_discrete.congr_left (hb w₂ hw₂) (ha w₁ hw₁) hwf hc']
    exact hc₁
  · rintro ⟨hav, hbv⟩
    obtain ⟨w, hw, hwv⟩ := has_iff.mp hav
    refine ⟨w, ha w hw, hwv, ⟨w, hw, ordered_discrete.refl (ha w hw)⟩, fun hcb => hbv ?_⟩
    exact (has_iff_covers hb).mpr ⟨w, ha w hw, hwv, hcb⟩

/-! ## Lists of one kind -/

omit hb in
/-- A list has one kind if one covers all its members. -/
theorem ofOneKind_of_covers (hl : ∀ v ∈ l, Discrete v) (hkind : OfOneKind a) (hcovers : ∀ v ∈ l, Covers a v) :
    OfOneKind l := by
  intro v hv w hw
  obtain ⟨v', hv', hcv⟩ := hcovers v hv
  obtain ⟨w', hw', hcw⟩ := hcovers w hw
  calc v.tag = v'.tag := (tag_of_compare_eq (ha v' hv') (hl v hv) hcv).symm
    _ = w'.tag := hkind v' hv' w' hw'
    _ = w.tag := tag_of_compare_eq (ha w' hw') (hl w hw) hcw

theorem ofOneKind_run_of_keeps {m : Merge} (hkind : OfOneKind a) (hleft : ∀ p q : Prop, m.Keeps p q → p) :
    OfOneKind (m.run a.sortedSet b.sortedSet) := by
  have hrun := discrete_run ha hb m
  refine ofOneKind_of_covers ha hrun hkind fun v hv => hleft _ (Covers b v) ?_
  exact ((rising_merge ordered_discrete m ha hb).2 v (hrun v hv)).mp ⟨v, hv, ordered_discrete.refl (hrun v hv)⟩

theorem ofOneKind_union_iff :
    OfOneKind (Merge.run ⟨true, true, true⟩ a.sortedSet b.sortedSet) ↔ OfOneKind (a ++ b) := by
  have hrun := discrete_run ha hb ⟨true, true, true⟩
  have happend : ∀ v ∈ a ++ b, Discrete v := List.forall_mem_append.mpr ⟨ha, hb⟩
  refine ⟨fun h => ofOneKind_of_covers hrun happend h fun v hv => ?_, fun h => h.subset (run_sortedSet_subset _ a b)⟩
  refine ((rising_merge ordered_discrete _ ha hb).2 v (happend v hv)).mpr (Merge.keeps_union.mpr ?_)
  exact (List.mem_append.mp hv).imp (fun hv => ⟨v, hv, ordered_discrete.refl (ha v hv)⟩)
    fun hv => ⟨v, hv, ordered_discrete.refl (hb v hv)⟩

end

end Members

namespace Tagged

open Value
open Members (Merge Rising Sharp OfOneKind)

variable {a b : Tagged}

theorem discrete_members (ha : a.value.isUniform = true) (hfa : a.value.isFloatFree = true) :
    ∀ v ∈ a.members, Discrete v :=
  Discrete.of_list ⟨ha, hfa⟩

theorem merge_of_keeps {m : Merge} (ha : ∀ v ∈ a.members, Discrete v) (hb : ∀ v ∈ b.members, Discrete v)
    (hkind : OfOneKind a.members) (hleft : ∀ p q : Prop, m.Keeps p q → p) :
    ∃ l, merge m a b = .ok l ∧ l.Sound ∧ l.members = m.run a.members.sortedSet b.members.sortedSet := by
  have hrun := Members.ofOneKind_run_of_keeps ha hb hkind hleft
  exact ⟨_, merge_eq_ok_iff.mpr ⟨rfl, hrun⟩, sound_of hrun, members_of _⟩

theorem union_eq_error_iff (ha : ∀ v ∈ a.members, Discrete v) (hb : ∀ v ∈ b.members, Discrete v) (hsa : a.Sound)
    (hsb : b.Sound) : (∃ m, union a b = .error m) ↔ a.members ≠ [] ∧ b.members ≠ [] ∧ a.tag ≠ b.tag := by
  have hfails : (∃ m, union a b = .error m) ↔ ¬ OfOneKind (a.members ++ b.members) := by
    rw [← Members.ofOneKind_union_iff ha hb]
    cases hv : union a b with
    | ok l =>
      exact iff_of_false (fun ⟨m, h⟩ => by cases h) (not_not.mpr (merge_eq_ok_iff.mp hv).2)
    | error m =>
      refine iff_of_true ⟨m, rfl⟩ fun h => ?_
      rw [union, merge_eq_ok_iff.mpr ⟨rfl, h⟩] at hv
      cases hv
  rw [hfails, ofOneKind_append_iff hsa.kind hsb.kind, hsa.tag, hsb.tag, not_or, not_or]

/-- For lists without floating point numbers: the sorted set rises and has what the list has; an intersection
and a difference never fail, and a union fails for two lists with members of different kinds; each result
rises and has what is in either list, in both, or in the first alone. All of them keep the tag of their
members. -/
theorem setOperations_exact (a b : Tagged) (ha : a.value.isUniform = true) (hb : b.value.isUniform = true)
    (hfa : a.value.isFloatFree = true) (hfb : b.value.isFloatFree = true) :
    (a.sortedSet.Sound ∧ Rising a.sortedSet.members ∧ ∀ v, a.sortedSet.members.has v = a.members.has v) ∧
      ((∃ m, union a b = .error m) ↔ a.members ≠ [] ∧ b.members ≠ [] ∧ a.tag ≠ b.tag) ∧
      (∀ l, union a b = .ok l →
        l.Sound ∧ Rising l.members ∧ ∀ v, l.members.has v = true ↔ a.members.has v = true ∨ b.members.has v = true) ∧
      (∃ l, intersect a b = .ok l ∧ l.Sound ∧ Rising l.members ∧ ∀ v, Sharp a.members b.members v →
        (l.members.has v = true ↔ a.members.has v = true ∧ b.members.has v = true)) ∧
      (∃ l, difference a b = .ok l ∧ l.Sound ∧ Rising l.members ∧ ∀ v, Sharp a.members b.members v →
        (l.members.has v = true ↔ a.members.has v = true ∧ ¬ b.members.has v = true)) ∧
      ∀ v : Value, v.isFloatFree = true → Sharp a.members b.members v := by
  have hda := discrete_members ha hfa
  have hdb := discrete_members hb hfb
  have hsa := (isUniform_list.mp ha).1
  have hsb := (isUniform_list.mp hb).1
  have hrises := fun m => (Members.rising_merge ordered_discrete m hda hdb).1
  refine ⟨⟨sound_sortedSet hsa, (Members.rising_sortedSet ordered_discrete hda).1, fun v => Members.has_sortedSet hda⟩,
    union_eq_error_iff hda hdb hsa hsb, fun l hl => ?_, ?_, ?_, fun v => Members.sharp_of_isFloatFree hda hdb⟩
  · obtain ⟨rfl, hkind⟩ := merge_eq_ok_iff.mp hl
    exact ⟨sound_of hkind, hrises _, fun v => Members.has_union hda hdb⟩
  · obtain ⟨l, hl, hsound, hrun⟩ := merge_of_keeps (m := ⟨false, false, true⟩) hda hdb hsa.kind fun _ _ h =>
      (Members.Merge.keeps_intersect.mp h).1
    exact ⟨l, hl, hsound, hrun ▸ hrises _, fun v => hrun ▸ Members.has_intersect hda hdb⟩
  · obtain ⟨l, hl, hsound, hrun⟩ := merge_of_keeps (m := ⟨true, false, false⟩) hda hdb hsa.kind fun _ _ h =>
      (Members.Merge.keeps_difference.mp h).1
    exact ⟨l, hl, hsound, hrun ▸ hrises _, fun v => hrun ▸ Members.has_difference hda hdb⟩

/-- Nested lists: `[[1], [2], [1]]` and `[[2], []]` have `[2]` in common. -/
theorem setOperations_exact_nested :
    let a := of [listOf [int 1], listOf [int 2], listOf [int 1]]
    let b := of [listOf [int 2], listOf []]
    a.value.isUniform = true ∧ b.value.isUniform = true ∧ a.value.isFloatFree = true ∧ b.value.isFloatFree = true ∧
      ∃ l, intersect a b = .ok l ∧ l.Sound ∧ Rising l.members ∧ ∀ v, Sharp a.members b.members v →
        (l.members.has v = true ↔ a.members.has v = true ∧ b.members.has v = true) := by
  intro a b
  have ha : a.value.isUniform = true := by decide
  have hb : b.value.isUniform = true := by decide
  have hfa : a.value.isFloatFree = true := by decide
  have hfb : b.value.isFloatFree = true := by decide
  obtain ⟨-, -, -, hintersect, -, -⟩ := setOperations_exact a b ha hb hfa hfb
  exact ⟨ha, hb, hfa, hfb, hintersect⟩

/-- The floating point number `2 ^ 53` equals both the whole number `2 ^ 53 + 1`, to which it is the next, and
`2 ^ 53`. So it is in the lists of either; their intersection, which is empty, does not have it, and their
difference does. -/
theorem setOperations_between :
    (¬ ∀ (a b l : Tagged) (v : Value), a.value.isUniform = true → b.value.isUniform = true →
        a.value.isFloatFree = true → b.value.isFloatFree = true → intersect a b = .ok l →
        (l.members.has v = true ↔ a.members.has v = true ∧ b.members.has v = true)) ∧
      ¬ ∀ (a b l : Tagged) (v : Value), a.value.isUniform = true → b.value.isUniform = true →
        a.value.isFloatFree = true → b.value.isFloatFree = true → difference a b = .ok l →
        (l.members.has v = true ↔ a.members.has v = true ∧ ¬ b.members.has v = true) := by
  have ha : Members.has [int 9007199254740993] (float ⟨0x4340000000000000⟩) = true := by decide +kernel
  have hb : Members.has [int 9007199254740992] (float ⟨0x4340000000000000⟩) = true := by decide +kernel
  refine ⟨fun h => ?_, fun h => ?_⟩
  · have hnone := (h (of [int 9007199254740993]) (of [int 9007199254740992]) empty _ rfl rfl rfl rfl (by rfl)).mpr ⟨ha, hb⟩
    cases hnone
  · have hnotBoth := (h (of [int 9007199254740993]) (of [int 9007199254740992]) (of [int 9007199254740993])
      (float ⟨0x4340000000000000⟩) rfl rfl rfl rfl (by rfl)).mp ha
    exact hnotBoth.2 hb

end Tagged

end Provenance
