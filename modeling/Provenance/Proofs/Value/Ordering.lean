import Mathlib.Tactic.ByContra
import Provenance.Value.Order

/-!
# Orders on values

The comparisons in a row of three values belong to one order if they are
`Chained`, and that carries over to comparing one thing after the other. Values of
different places compare by place, and most places sort their values by a key
(`Keyed`).
-/

namespace Provenance

/-- What the neighbours in a row of three and the outer two compare to: where two of the
comparisons decide the third. -/
def Chained (ab bc ac : Ordering) : Prop :=
  (ab = .eq → ac = bc) ∧ (bc = .eq → ac = ab) ∧ (ab = bc → ac = ab)

instance (ab bc ac : Ordering) : Decidable (Chained ab bc ac) :=
  inferInstanceAs (Decidable (_ ∧ _ ∧ _))

namespace Chained

theorem of_ord {κ : Type} [Ord κ] [Std.TransOrd κ] (x y z : κ) : Chained (compare x y) (compare y z) (compare x z) := by
  refine ⟨fun h => ?_, fun h => ?_, fun h => ?_⟩
  · exact Std.TransCmp.congr_left h
  · exact (Std.TransCmp.congr_right h).symm
  · cases hxy : compare x y with
    | lt => exact Std.TransCmp.lt_trans hxy (h ▸ hxy)
    | eq => exact Std.TransCmp.eq_trans hxy (h ▸ hxy)
    | gt => exact Std.TransCmp.gt_trans hxy (h ▸ hxy)

theorem andThen {ab bc ac ab' bc' ac' : Ordering} (h : Chained ab bc ac)
    (h' : ab = .eq → bc = .eq → Chained ab' bc' ac') : Chained (ab.then ab') (bc.then bc') (ac.then ac') := by
  obtain ⟨hab, hbc, hsame⟩ := h
  cases ab <;> cases bc <;> cases bc' <;> simp_all [Chained]

theorem not_gt {ab bc ac : Ordering} (h : Chained ab bc ac) (hab : ab ≠ .gt) (hbc : bc ≠ .gt) : ac ≠ .gt := by
  obtain ⟨h₁, h₂, h₃⟩ := h
  cases ab <;> cases bc <;> simp_all

end Chained

/-- Where values with the tag sort: numbers of either kind at one place. -/
def Tag.place : Tag → Nat
  | float => Tag.int.rank
  | t => t.rank

namespace Value

/-- Among the values of the domain `compare` is a total order. -/
structure Ordered (D : Value → Prop) : Prop where
  swap : ∀ {v w}, D v → D w → w.compare v = (v.compare w).swap
  chained : ∀ {u v w}, D u → D v → D w → Chained (u.compare v) (v.compare w) (u.compare w)

namespace Ordered

variable {D : Value → Prop} (h : Ordered D) {u v w : Value} (hu : D u) (hv : D v) (hw : D w)
include h

theorem refl (hv : D v) : v.compare v = .eq := by
  have hswap := h.swap hv hv
  cases hc : v.compare v <;> simp_all

theorem symm (hv : D v) (hw : D w) (hc : v.compare w = .eq) : w.compare v = .eq := by
  rw [h.swap hv hw, hc]
  rfl

theorem lt_of_gt (hv : D v) (hw : D w) (hc : v.compare w = .gt) : w.compare v = .lt := by
  rw [h.swap hv hw, hc]
  rfl

theorem lt_trans (hu : D u) (hv : D v) (hw : D w) (huv : u.compare v = .lt) (hvw : v.compare w = .lt) :
    u.compare w = .lt :=
  ((h.chained hu hv hw).2.2 (huv.trans hvw.symm)).trans huv

theorem congr_left (hu : D u) (hv : D v) (hw : D w) (huv : u.compare v = .eq) : u.compare w = v.compare w :=
  (h.chained hu hv hw).1 huv

theorem congr_right (hu : D u) (hv : D v) (hw : D w) (hvw : v.compare w = .eq) : u.compare w = u.compare v :=
  (h.chained hu hv hw).2.1 hvw

end Ordered

/-! ## Values of one place -/

theorem compare_eq_then (v w : Value) : v.compare w = (Ord.compare v.tag.place w.tag.place).then (v.compare w) := by
  cases v <;> cases w <;> rfl

theorem compare_of_place_ne {v w : Value} (h : v.tag.place ≠ w.tag.place) :
    v.compare w = Ord.compare v.tag.place w.tag.place := by
  rw [compare_eq_then]
  cases hplace : Ord.compare v.tag.place w.tag.place with
  | eq => exact absurd (Std.compare_eq_iff_eq.mp hplace) h
  | _ => rfl

theorem equals_of_place_ne {v w : Value} (h : v.tag.place ≠ w.tag.place) : v.equals w = false := by
  cases v <;> cases w <;> first | exact absurd rfl h | rfl

theorem place_of_compare_eq {v w : Value} (h : v.compare w = .eq) : v.tag.place = w.tag.place := by
  by_contra hne
  rw [compare_of_place_ne hne, Std.compare_eq_iff_eq] at h
  exact hne h

/-- The values `f x` have a place of their own, where they sort by the key of `x`. -/
structure Keyed {α κ : Type} [Ord κ] (f : α → Value) (key : α → κ) : Prop where
  place : ∀ x v, (f x).tag.place = v.tag.place → ∃ y, v = f y
  compare : ∀ x y, (f x).compare (f y) = Ord.compare (key x) (key y)
  equals : ∀ x y, (f x).equals (f y) = true ↔ key x = key y

namespace Keyed

variable {α κ : Type} [Ord κ] {f : α → Value} {key : α → κ} (h : Keyed f key)

include h

theorem swap [Std.OrientedOrd κ] (x : α) (v : Value) : v.compare (f x) = ((f x).compare v).swap := by
  by_cases hplace : (f x).tag.place = v.tag.place
  · obtain ⟨y, rfl⟩ := h.place x v hplace
    rw [h.compare, h.compare]
    exact Std.OrientedOrd.eq_swap
  · rw [compare_of_place_ne hplace, compare_of_place_ne (Ne.symm hplace)]
    exact Std.OrientedOrd.eq_swap

theorem chained [Std.TransOrd κ] (x : α) (v w : Value) :
    Chained ((f x).compare v) (v.compare w) ((f x).compare w) := by
  rw [compare_eq_then (f x) v, compare_eq_then v w, compare_eq_then (f x) w]
  refine (Chained.of_ord _ _ _).andThen fun hxv hvw => ?_
  obtain ⟨y, rfl⟩ := h.place x v (Std.compare_eq_iff_eq.mp hxv)
  obtain ⟨z, rfl⟩ := h.place y w (Std.compare_eq_iff_eq.mp hvw)
  rw [h.compare, h.compare, h.compare]
  exact Chained.of_ord _ _ _

theorem equals_iff [Std.LawfulEqOrd κ] (x : α) (v : Value) : (f x).equals v = true ↔ (f x).compare v = .eq := by
  by_cases hplace : (f x).tag.place = v.tag.place
  · obtain ⟨y, rfl⟩ := h.place x v hplace
    rw [h.compare, h.equals, Std.compare_eq_iff_eq]
  · rw [equals_of_place_ne hplace]
    exact iff_of_false Bool.false_ne_true fun heq => hplace (place_of_compare_eq heq)

theorem congr {x : α} {w : Value} (heq : (f x).equals w = true) (u : Value) : (f x).equals u = w.equals u := by
  by_cases hw : (f x).tag.place = w.tag.place
  · obtain ⟨y, rfl⟩ := h.place x w hw
    by_cases hu : (f x).tag.place = u.tag.place
    · obtain ⟨z, rfl⟩ := h.place x u hu
      rw [Bool.eq_iff_iff, h.equals, h.equals, (h.equals x y).mp heq]
    · rw [equals_of_place_ne hu, equals_of_place_ne fun hy => hu (hw.trans hy)]
  · rw [equals_of_place_ne hw] at heq
    cases heq

end Keyed

theorem Keyed.ordered {α κ : Type} [Ord κ] [Std.TransOrd κ] {f : α → Value} {key : α → κ} (h : Keyed f key) :
    Ordered fun v => ∃ x, v = f x where
  swap := fun ⟨x, hx⟩ _ => by
    rw [hx]
    exact h.swap x _
  chained := fun ⟨x, hx⟩ _ _ => by
    rw [hx]
    exact h.chained x _ _

theorem keyed_str : Keyed str id where
  place _ v h := by
    cases v <;> first | exact ⟨_, rfl⟩ | cases h
  compare _ _ := by rw [compare]; rfl
  equals _ _ := by rw [equals, beq_iff_eq]; rfl

theorem keyed_object : Keyed object UInt64.toNat where
  place _ v h := by
    cases v <;> first | exact ⟨_, rfl⟩ | cases h
  compare _ _ := by rw [compare]
  equals _ _ := by rw [equals, beq_iff_eq, UInt64.toNat_inj]

theorem keyed_range :
    @Keyed (Int64 × Int64) (Int × Int) lexOrd (fun r => range r.1 r.2) fun r => (r.1.toInt, r.2.toInt) :=
  @Keyed.mk _ _ lexOrd _ _
    (fun _ v h => by
      cases v <;> first | exact ⟨(_, _), rfl⟩ | cases h)
    (fun _ _ => by rw [compare]; rfl)
    (fun _ _ => by
      rw [equals, Bool.and_eq_true, beq_iff_eq, beq_iff_eq, Prod.mk.injEq, Int64.toInt_inj, Int64.toInt_inj])

theorem keyed_all : Keyed (fun _ : Unit => all) fun _ => 0 where
  place _ v h := by
    cases v <;> first | exact ⟨(), rfl⟩ | cases h
  compare _ _ := by rw [compare]; rfl
  equals _ _ := by rw [equals]; exact iff_of_true rfl rfl

theorem keyed_index : Keyed index IndexKind.rank where
  place _ v h := by
    cases v <;> first | exact ⟨_, rfl⟩ | cases h
  compare _ _ := by rw [compare]
  equals a b := by
    cases a <;> cases b <;> decide

theorem keyed_lambda : Keyed (fun l : UInt64 × Var × Expr => lambda l.1 l.2.1 l.2.2) fun l => l.1.toNat where
  place _ v h := by
    cases v <;> first | exact ⟨(_, _, _), rfl⟩ | cases h
  compare _ _ := by rw [compare]
  equals _ _ := by rw [equals, beq_iff_eq, UInt64.toNat_inj]

theorem keyed_builtin : Keyed builtin Builtin.name where
  place _ v h := by
    cases v <;> first | exact ⟨_, rfl⟩ | cases h
  compare _ _ := by rw [compare]
  equals a b := by
    cases a <;> cases b <;> decide

end Value

end Provenance
