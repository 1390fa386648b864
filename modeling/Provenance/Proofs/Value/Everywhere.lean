import Provenance.Eval.Operate
import Provenance.Proofs.Value.Tagged

/-!
# Properties of all values inside a value

`everywhere p` asks `p` of a value and of all values inside it. Operators put
their results together from what is inside their operands, so values without
floating point numbers and closures (`isPlain`) have results of that kind.
-/

namespace Provenance

namespace Value

mutual

def everywhere (p : Value → Bool) : Value → Bool
  | tuple vs => p (tuple vs) && everywhereAll p vs
  | list t vs => p (list t vs) && everywhereAll p vs
  | v => p v

def everywhereAll (p : Value → Bool) : List Value → Bool
  | [] => true
  | v :: vs => v.everywhere p && everywhereAll p vs

end

theorem everywhereAll_iff {p : Value → Bool} : ∀ {vs : List Value},
    everywhereAll p vs = true ↔ ∀ v ∈ vs, v.everywhere p = true
  | [] => by simp [everywhereAll]
  | v :: vs => by simp [everywhereAll, everywhereAll_iff]

theorem everywhere_tuple {p : Value → Bool} {vs : List Value} (h : p (tuple vs) = true) :
    (tuple vs).everywhere p = true ↔ ∀ v ∈ vs, v.everywhere p = true := by
  rw [everywhere, Bool.and_eq_true, everywhereAll_iff]
  exact and_iff_right h

theorem everywhere_list {p : Value → Bool} {t : Option Tag} {vs : List Value} (h : p (list t vs) = true) :
    (list t vs).everywhere p = true ↔ ∀ v ∈ vs, v.everywhere p = true := by
  rw [everywhere, Bool.and_eq_true, everywhereAll_iff]
  exact and_iff_right h

mutual

theorem everywhere_mono {p q : Value → Bool} (hpq : ∀ v, p v = true → q v = true) : ∀ v : Value,
    v.everywhere p = true → v.everywhere q = true
  | tuple vs, h => by
    rw [everywhere, Bool.and_eq_true] at h ⊢
    exact ⟨hpq _ h.1, everywhereAll_mono hpq vs h.2⟩
  | list _ vs, h => by
    rw [everywhere, Bool.and_eq_true] at h ⊢
    exact ⟨hpq _ h.1, everywhereAll_mono hpq vs h.2⟩
  | int _, h => hpq _ h
  | float _, h => hpq _ h
  | str _, h => hpq _ h
  | object _, h => hpq _ h
  | range _ _, h => hpq _ h
  | all, h => hpq _ h
  | index _, h => hpq _ h
  | lambda _ _ _, h => hpq _ h
  | builtin _, h => hpq _ h

theorem everywhereAll_mono {p q : Value → Bool} (hpq : ∀ v, p v = true → q v = true) : ∀ vs : List Value,
    everywhereAll p vs = true → everywhereAll q vs = true
  | [], _ => by rw [everywhereAll]
  | v :: vs, h => by
    rw [everywhereAll, Bool.and_eq_true] at h ⊢
    exact ⟨everywhere_mono hpq v h.1, everywhereAll_mono hpq vs h.2⟩

end

/-- Neither a floating point number nor a closure, nor is there one inside. -/
def isPlain (v : Value) : Bool :=
  v.everywhere fun w => w.tag != .float && w.tag != .lambda

theorem isPlain_list {t : Option Tag} {vs : List Value} : (list t vs).isPlain = true ↔ ∀ v ∈ vs, v.isPlain = true :=
  everywhere_list rfl

theorem isPlain_tuple {vs : List Value} : (tuple vs).isPlain = true ↔ ∀ v ∈ vs, v.isPlain = true :=
  everywhere_tuple rfl

theorem isPlain_ofBool (b : Bool) : (ofBool b).isPlain = true := rfl

mutual

theorem equals_self : ∀ {v : Value}, v.isPlain = true → v.equals v = true
  | int _, _ => by simp [equals]
  | float _, h => by simp [isPlain, everywhere, tag] at h
  | str _, _ => by simp [equals]
  | object _, _ => by simp [equals]
  | range _ _, _ => by simp [equals]
  | tuple vs, h => by
    rw [equals]
    exact equalAll_self (isPlain_tuple.mp h)
  | list t vs, h => by
    rw [equals, equalAll_self (isPlain_list.mp h), Bool.and_true]
    exact beq_self_eq_true t
  | all, _ => by simp [equals]
  | index _, _ => by simp [equals]
  | lambda _ _ _, h => by simp [isPlain, everywhere, tag] at h
  | builtin _, _ => by simp [equals]

theorem equalAll_self : ∀ {vs : List Value}, (∀ v ∈ vs, v.isPlain = true) → equalAll vs vs = true
  | [], _ => by rw [equalAll]
  | v :: vs, h => by
    rw [equalAll, equals_self (h v List.mem_cons_self), equalAll_self fun w hw => h w (List.mem_cons_of_mem _ hw)]
    rfl

end

end Value

/-! ## Operators on plain values -/

namespace Operate

variable {engine : Glob.Engine} {o : Operator} {u v w : Value}

theorem isPlain_of_orMixed {s t : Option Tag} {a b : Members} {r : Except TagMismatch Tagged} (h : orMixed r = .ok w)
    (hsub : ∀ l, r = .ok l → l.members ⊆ a ++ b) (ha : (Value.list s a).isPlain = true)
    (hb : (Value.list t b).isPlain = true) : w.isPlain = true := by
  cases r with
  | error m => cases h
  | ok l =>
    cases h
    refine Value.isPlain_list.mpr fun x hx => ?_
    rcases List.mem_append.mp (hsub l rfl hx) with hx | hx
    · exact Value.isPlain_list.mp ha x hx
    · exact Value.isPlain_list.mp hb x hx

theorem not_isPlain_float {x : Binary64} : ¬ (Value.float x).isPlain = true := by
  simp [Value.isPlain, Value.everywhere, Value.tag]

theorem arithmetic_eq_ok (hu : u.isPlain = true) (hv : v.isPlain = true) (h : arithmetic o u v = .ok w) :
    (∃ i j k, u = .int i ∧ v = .int j ∧ w = .int k ∧ onInts o i j = .ok k) ∨
      o = .sub ∧ ∃ s a t b l, u = .list s a ∧ v = .list t b ∧ w = l.value ∧ Tagged.difference ⟨s, a⟩ ⟨t, b⟩ = .ok l := by
  unfold arithmetic at h
  split at h
  · rename_i i j
    cases hk : onInts o i j with
    | error f => rw [hk] at h; cases h
    | ok k =>
      rw [hk] at h
      cases h
      exact Or.inl ⟨i, j, k, rfl, rfl, rfl, hk⟩
  · exact absurd hv not_isPlain_float
  · exact absurd hu not_isPlain_float
  · exact absurd hu not_isPlain_float
  · rename_i s a t b
    split at h
    · cases hl : Tagged.difference ⟨s, a⟩ ⟨t, b⟩ with
      | error m => rw [hl] at h; cases h
      | ok l =>
        rw [hl] at h
        cases h
        exact Or.inr ⟨‹_›, s, a, t, b, l, rfl, rfl, rfl, hl⟩
    · cases h
  · cases h

theorem isPlain_of_arithmetic (hu : u.isPlain = true) (hv : v.isPlain = true) (h : arithmetic o u v = .ok w) :
    w.isPlain = true := by
  rcases arithmetic_eq_ok hu hv h with ⟨i, j, k, rfl, rfl, rfl, -⟩ | ⟨-, s, a, t, b, l, rfl, rfl, rfl, hl⟩
  · rfl
  · exact isPlain_of_orMixed (r := .ok l) rfl (fun l' h => by cases h; exact Tagged.merge_subset hl) hu hv

theorem isPlain_of_binary (hu : u.isPlain = true) (hv : v.isPlain = true) (h : binary engine o u v = .ok w) :
    w.isPlain = true := by
  unfold binary at h
  split at h
  case h_1 | h_2 | h_3 | h_4 | h_5 => exact isPlain_of_arithmetic hu hv h
  case h_6 | h_7 =>
    cases h
    exact Value.isPlain_ofBool _
  case h_8 | h_9 | h_10 | h_11 | h_12 | h_13 | h_14 =>
    obtain ⟨b, -, rfl⟩ := exists_of_map_eq_ok h
    exact Value.isPlain_ofBool _
  case h_15 =>
    unfold concat at h
    split at h
    · cases h
      rfl
    · exact isPlain_of_orMixed h (fun l hl => by rw [Tagged.members_concat hl]; exact List.Subset.refl _) hu hv
    · cases h
  case h_16 | h_17 =>
    split at h
    · exact isPlain_of_orMixed h (fun l hl => Tagged.merge_subset hl) hu hv
    · cases h
  case h_18 => cases h

theorem isPlain_of_unary (hv : v.isPlain = true) (h : unary o v = .ok w) : w.isPlain = true := by
  unfold unary at h
  split at h
  · cases h
    exact Value.isPlain_ofBool _
  · cases h
    rfl
  · exact absurd hv not_isPlain_float
  · cases h

end Operate

end Provenance
