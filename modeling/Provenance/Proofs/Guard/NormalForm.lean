import Mathlib.Data.List.Nodup
import Provenance.Expr.Build
import Provenance.Guard.Formula

/-!
# What the normal form of a guard says

The evaluator lets `&&` and `||` take a leaf without a value for false, whereas
`!` passes it on. The rules of `step?` move negations below the connectives as
if a missing value were passed on everywhere: they keep the `strong` value of a
formula and not its `value`. `clauses_hold_iff`: the clauses of the normal form
hold exactly when the guard is true in the strong reading, and they follow from
the guard under every assignment exactly when it is `nilSafe`.
-/

namespace Provenance.Guard

/-- Which leaves are false, which are true, and which have no value. -/
abbrev Assignment := Nat → Option Bool

/-! ## Connectives that need to know enough about their sides -/

def both : Option Bool → Option Bool → Option Bool
  | some false, _ => some false
  | _, some false => some false
  | some true, some true => some true
  | _, _ => none

def either : Option Bool → Option Bool → Option Bool
  | some true, _ => some true
  | _, some true => some true
  | some false, some false => some false
  | _, _ => none

section
variable (a b c : Option Bool)

theorem both_eq_true : both a b = some true ↔ a = some true ∧ b = some true := by
  rcases a with _ | _ | _ <;> rcases b with _ | _ | _ <;> simp [both]

theorem both_eq_false : both a b = some false ↔ a = some false ∨ b = some false := by
  rcases a with _ | _ | _ <;> rcases b with _ | _ | _ <;> simp [both]

theorem either_eq_true : either a b = some true ↔ a = some true ∨ b = some true := by
  rcases a with _ | _ | _ <;> rcases b with _ | _ | _ <;> simp [either]

theorem either_eq_false : either a b = some false ↔ a = some false ∧ b = some false := by
  rcases a with _ | _ | _ <;> rcases b with _ | _ | _ <;> simp [either]

theorem map_not_eq (w : Bool) : a.map (!·) = some w ↔ a = some (!w) := by
  rcases a with _ | _ | _ <;> cases w <;> simp

theorem map_not_both : (both a b).map (!·) = either (a.map (!·)) (b.map (!·)) := by
  rcases a with _ | _ | _ <;> rcases b with _ | _ | _ <;> rfl

theorem map_not_either : (either a b).map (!·) = both (a.map (!·)) (b.map (!·)) := by
  rcases a with _ | _ | _ <;> rcases b with _ | _ | _ <;> rfl

theorem map_not_map_not : (a.map (!·)).map (!·) = a := by
  rcases a with _ | _ | _ <;> rfl

theorem either_both_left : either (both a b) c = both (either a c) (either b c) := by
  rcases a with _ | _ | _ <;> rcases b with _ | _ | _ <;> rcases c with _ | _ | _ <;> rfl

theorem either_both_right : either a (both b c) = both (either a b) (either a c) := by
  rcases a with _ | _ | _ <;> rcases b with _ | _ | _ <;> rcases c with _ | _ | _ <;> rfl

end

namespace Formula

/-- What the evaluator finds. -/
def value (ν : Assignment) : Formula → Option Bool
  | and a b => some (a.value ν == some true && b.value ν == some true)
  | or a b => some (a.value ν == some true || b.value ν == some true)
  | not a => (a.value ν).map (!·)
  | leaf i => ν i

/-- What it would find if a missing value were passed on wherever it matters. -/
def strong (ν : Assignment) : Formula → Option Bool
  | and a b => both (a.strong ν) (b.strong ν)
  | or a b => either (a.strong ν) (b.strong ν)
  | not a => (a.strong ν).map (!·)
  | leaf i => ν i

end Formula

def Literal.value (ν : Assignment) (l : Literal) : Option Bool :=
  if l.negated then (ν l.leaf).map (!·) else ν l.leaf

namespace Formula

def ClausesHold (ν : Assignment) (f : Formula) : Prop :=
  ∀ c ∈ f.clauses, ∃ l ∈ c, l.value ν = some true

/-! ## The rules keep the strong value -/

theorem strong_step (ν : Assignment) {f g : Formula} (h : step? f = some g) : g.strong ν = f.strong ν := by
  fun_induction step? f generalizing g with
  | case1 a b => cases h; simp only [strong, map_not_either]
  | case2 a b => cases h; simp only [strong, map_not_both]
  | case3 a => cases h; simp only [strong, map_not_map_not]
  | case4 i => cases h
  | case5 a b c => cases h; simp only [strong, either_both_left]
  | case6 a b c => cases h; simp only [strong, either_both_right]
  | case7 a b _ _ a' ha ih => cases h; simp only [strong, ih ha]
  | case8 a b _ _ _ _ ih =>
    obtain ⟨b', hb, rfl⟩ := Option.map_eq_some_iff.mp h
    simp only [strong, ih hb]
  | case9 a b a' ha ih => cases h; simp only [strong, ih ha]
  | case10 a b _ _ ih =>
    obtain ⟨b', hb, rfl⟩ := Option.map_eq_some_iff.mp h
    simp only [strong, ih hb]
  | case11 i => cases h

theorem strong_normalizeIn (ν : Assignment) : ∀ (n : Nat) {f g : Formula}, normalizeIn? n f = some g →
    g.strong ν = f.strong ν ∧ step? g = none
  | 0, _, _, h => by cases h
  | n + 1, f, g, h => by
    unfold normalizeIn? at h
    cases hs : step? f with
    | none => rw [hs] at h; cases h; exact ⟨rfl, hs⟩
    | some f' =>
      rw [hs] at h
      obtain ⟨hg, hn⟩ := strong_normalizeIn ν n h
      exact ⟨hg.trans (strong_step ν hs), hn⟩

/-! ## Where no rule applies -/

def IsClause : Formula → Prop
  | or a b => a.IsClause ∧ b.IsClause
  | leaf _ => True
  | not (leaf _) => True
  | _ => False

def IsNormal : Formula → Prop
  | and a b => a.IsNormal ∧ b.IsNormal
  | f => f.IsClause

theorem isNormal_of_step_none {f : Formula} (h : step? f = none) : f.IsNormal := by
  fun_induction step? f with
  | case8 a b ha hb _ iha ihb =>
    -- Neither side is a conjunction, so being normal says that both are clauses.
    have hna := iha ‹_›
    have hnb := ihb (Option.map_eq_none_iff.mp h)
    refine ⟨?_, ?_⟩
    · cases a with
      | and c d => exact absurd rfl (ha c d)
      | _ => exact hna
    · cases b with
      | and c d => exact absurd rfl (hb c d)
      | _ => exact hnb
  | case10 a b _ iha ihb => exact ⟨iha ‹_›, ihb (Option.map_eq_none_iff.mp h)⟩
  | case4 i => trivial
  | case11 i => trivial
  | _ => cases h

theorem exists_literal_iff (ν : Assignment) : ∀ {f : Formula}, f.IsClause →
    ((∃ l ∈ f.literals, l.value ν = some true) ↔ f.strong ν = some true)
  | or a b, h => by
    rw [strong, either_eq_true, ← exists_literal_iff ν h.1, ← exists_literal_iff ν h.2]
    simp only [literals, List.mem_append, or_and_right, exists_or]
  | leaf i, _ => by simp [literals, Literal.value, strong]
  | not (leaf i), _ => by simp [literals, Literal.value, strong]

theorem clausesHold_of_isClause (ν : Assignment) {f : Formula} (hc : f.clauses = [f.literals])
    (h : f.IsClause) : f.ClausesHold ν ↔ f.strong ν = some true := by
  rw [← exists_literal_iff ν h, ClausesHold, hc]
  simp

theorem clausesHold_iff (ν : Assignment) : ∀ {f : Formula}, f.IsNormal →
    (f.ClausesHold ν ↔ f.strong ν = some true)
  | and a b, h => by
    rw [strong, both_eq_true, ← clausesHold_iff ν h.1, ← clausesHold_iff ν h.2]
    simp only [ClausesHold, clauses, List.mem_append, or_imp, forall_and]
  | or a b, h => clausesHold_of_isClause ν rfl h
  | not a, h => clausesHold_of_isClause ν rfl h
  | leaf i, h => clausesHold_of_isClause ν rfl h

theorem isNormal_of_normalize {f g : Formula} (h : f.normalize? = some g) : g.IsNormal :=
  isNormal_of_step_none (strong_normalizeIn (fun _ => none) 1000 h).2

theorem clausesHold_normalize (ν : Assignment) {f g : Formula} (h : f.normalize? = some g) :
    g.ClausesHold ν ↔ f.strong ν = some true := by
  rw [clausesHold_iff ν (isNormal_of_normalize h), (strong_normalizeIn ν 1000 h).1]

/-! ## Guards that a missing value cannot make true -/

/-- Whether the strong value is sure to be `w` once the value is `w` or, when `absorbed`, once it
is merely not the opposite, which is all that a connective asks of its sides. -/
def nilSafe : (w absorbed : Bool) → Formula → Bool
  | w, _, and a b => nilSafe w (!w) a && nilSafe w (!w) b
  | w, _, or a b => nilSafe w (!w) a && nilSafe w (!w) b
  | w, absorbed, not a => nilSafe (!w) absorbed a
  | _, absorbed, leaf _ => !absorbed

def isPositive : Formula → Bool
  | and a b => a.isPositive && b.isPositive
  | or a b => a.isPositive && b.isPositive
  | not _ => false
  | leaf _ => true

theorem nilSafe_of_isPositive : ∀ {f : Formula}, f.isPositive = true → nilSafe true false f = true
  | and a b, h => by
    simp only [isPositive, Bool.and_eq_true] at h
    simp only [nilSafe, Bool.not_true, nilSafe_of_isPositive h.1, nilSafe_of_isPositive h.2, Bool.and_self]
  | or a b, h => by
    simp only [isPositive, Bool.and_eq_true] at h
    simp only [nilSafe, Bool.not_true, nilSafe_of_isPositive h.1, nilSafe_of_isPositive h.2, Bool.and_self]
  | leaf i, _ => rfl

def Seems (ν : Assignment) (w : Bool) : (absorbed : Bool) → Formula → Prop
  | true, f => f.value ν ≠ some (!w)
  | false, f => f.value ν = some w

theorem seems_and_true (ν : Assignment) (absorbed : Bool) (a b : Formula) :
    Seems ν true absorbed (and a b) ↔ Seems ν true false a ∧ Seems ν true false b := by
  cases absorbed <;> simp [Seems, value]

theorem seems_and_false (ν : Assignment) (absorbed : Bool) (a b : Formula) :
    Seems ν false absorbed (and a b) ↔ Seems ν false true a ∨ Seems ν false true b := by
  cases absorbed <;> simp [Seems, value, imp_iff_not_or]

theorem seems_or_true (ν : Assignment) (absorbed : Bool) (a b : Formula) :
    Seems ν true absorbed (or a b) ↔ Seems ν true false a ∨ Seems ν true false b := by
  cases absorbed <;> simp [Seems, value, imp_iff_not_or]

theorem seems_or_false (ν : Assignment) (absorbed : Bool) (a b : Formula) :
    Seems ν false absorbed (or a b) ↔ Seems ν false true a ∧ Seems ν false true b := by
  cases absorbed <;> simp [Seems, value]

theorem seems_not (ν : Assignment) (w absorbed : Bool) (a : Formula) :
    Seems ν w absorbed (not a) ↔ Seems ν (!w) absorbed a := by
  cases absorbed <;> simp [Seems, value]

theorem strong_of_nilSafe (ν : Assignment) : ∀ {f : Formula} {w absorbed : Bool},
    nilSafe w absorbed f = true → Seems ν w absorbed f → f.strong ν = some w
  | and a b, w, absorbed, h, hv => by
    simp only [nilSafe, Bool.and_eq_true] at h
    cases w with
    | true =>
      rw [seems_and_true] at hv
      exact (both_eq_true _ _).mpr ⟨strong_of_nilSafe ν h.1 hv.1, strong_of_nilSafe ν h.2 hv.2⟩
    | false =>
      rw [seems_and_false] at hv
      exact (both_eq_false _ _).mpr (hv.imp (strong_of_nilSafe ν h.1) (strong_of_nilSafe ν h.2))
  | or a b, w, absorbed, h, hv => by
    simp only [nilSafe, Bool.and_eq_true] at h
    cases w with
    | true =>
      rw [seems_or_true] at hv
      exact (either_eq_true _ _).mpr (hv.imp (strong_of_nilSafe ν h.1) (strong_of_nilSafe ν h.2))
    | false =>
      rw [seems_or_false] at hv
      exact (either_eq_false _ _).mpr ⟨strong_of_nilSafe ν h.1 hv.1, strong_of_nilSafe ν h.2 hv.2⟩
  | not a, w, absorbed, h, hv =>
    (map_not_eq _ _).mpr (strong_of_nilSafe ν h ((seems_not ν w absorbed a).mp hv))
  | leaf i, w, absorbed, h, hv => by
    cases absorbed with
    | true => cases h
    | false => exact hv

/-! ## Leaves that occur once -/

def leafIds : Formula → List Nat
  | and a b => a.leafIds ++ b.leafIds
  | or a b => a.leafIds ++ b.leafIds
  | not a => a.leafIds
  | leaf i => [i]

theorem value_congr {ν ν' : Assignment} : ∀ {f : Formula}, (∀ i ∈ f.leafIds, ν i = ν' i) →
    f.value ν = f.value ν' ∧ f.strong ν = f.strong ν'
  | and a b, h => by
    obtain ⟨ha, ha'⟩ := value_congr fun i hi => h i (List.mem_append_left _ hi)
    obtain ⟨hb, hb'⟩ := value_congr fun i hi => h i (List.mem_append_right _ hi)
    simp only [value, strong, ha, ha', hb, hb', and_self]
  | or a b, h => by
    obtain ⟨ha, ha'⟩ := value_congr fun i hi => h i (List.mem_append_left _ hi)
    obtain ⟨hb, hb'⟩ := value_congr fun i hi => h i (List.mem_append_right _ hi)
    simp only [value, strong, ha, ha', hb, hb', and_self]
  | not a, h => by
    obtain ⟨ha, ha'⟩ := value_congr (f := a) h
    simp only [value, strong, ha, ha', and_self]
  | leaf i, h => by
    have hi := h i (List.mem_singleton.mpr rfl)
    simp only [value, strong, hi, and_self]

/-- Two assignments in one, for formulas that share no leaf. -/
def splice (a : Formula) (ν ν' : Assignment) : Assignment :=
  fun i => if i ∈ a.leafIds then ν i else ν' i

theorem value_splice_left (a : Formula) (ν ν' : Assignment) :
    a.value (splice a ν ν') = a.value ν ∧ a.strong (splice a ν ν') = a.strong ν :=
  value_congr fun _ hi => if_pos hi

theorem value_splice_right {a b : Formula} (h : a.leafIds.Disjoint b.leafIds) (ν ν' : Assignment) :
    b.value (splice a ν ν') = b.value ν' ∧ b.strong (splice a ν ν') = b.strong ν' :=
  value_congr fun _ hi => if_neg fun ha => h ha hi

theorem exists_value : ∀ {f : Formula}, f.leafIds.Nodup → ∀ w, ∃ ν, f.value ν = some w ∧ f.strong ν = some w
  | and a b, h, w => by
    obtain ⟨ha, hb, hd⟩ := List.nodup_append'.mp h
    obtain ⟨ν, hν⟩ := exists_value ha w
    obtain ⟨ν', hν'⟩ := exists_value hb w
    refine ⟨splice a ν ν', ?_⟩
    simp only [value, strong, value_splice_left, value_splice_right hd, hν, hν']
    cases w <;> exact ⟨rfl, rfl⟩
  | or a b, h, w => by
    obtain ⟨ha, hb, hd⟩ := List.nodup_append'.mp h
    obtain ⟨ν, hν⟩ := exists_value ha w
    obtain ⟨ν', hν'⟩ := exists_value hb w
    refine ⟨splice a ν ν', ?_⟩
    simp only [value, strong, value_splice_left, value_splice_right hd, hν, hν']
    cases w <;> exact ⟨rfl, rfl⟩
  | not a, h, w => by
    obtain ⟨ν, hν, hs⟩ := exists_value (f := a) h (!w)
    exact ⟨ν, (map_not_eq _ _).mpr hν, (map_not_eq _ _).mpr hs⟩
  | leaf i, _, w => ⟨fun _ => some w, rfl, rfl⟩

/-! ## Guards that it can make true -/

section
variable {ν : Assignment} {a b : Formula}

theorem and_true_right (hb : b.value ν = some true ∧ b.strong ν = some true) (w absorbed : Bool) :
    (Seems ν w absorbed (and a b) ↔ Seems ν w (!w) a) ∧ (and a b).strong ν = a.strong ν := by
  refine ⟨by cases w <;> cases absorbed <;> simp [Seems, value, hb], ?_⟩
  rw [strong, hb.2]
  rcases a.strong ν with _ | _ | _ <;> rfl

theorem and_true_left (ha : a.value ν = some true ∧ a.strong ν = some true) (w absorbed : Bool) :
    (Seems ν w absorbed (and a b) ↔ Seems ν w (!w) b) ∧ (and a b).strong ν = b.strong ν := by
  refine ⟨by cases w <;> cases absorbed <;> simp [Seems, value, ha], ?_⟩
  rw [strong, ha.2]
  rcases b.strong ν with _ | _ | _ <;> rfl

theorem or_false_right (hb : b.value ν = some false ∧ b.strong ν = some false) (w absorbed : Bool) :
    (Seems ν w absorbed (or a b) ↔ Seems ν w (!w) a) ∧ (or a b).strong ν = a.strong ν := by
  refine ⟨by cases w <;> cases absorbed <;> simp [Seems, value, hb], ?_⟩
  rw [strong, hb.2]
  rcases a.strong ν with _ | _ | _ <;> rfl

theorem or_false_left (ha : a.value ν = some false ∧ a.strong ν = some false) (w absorbed : Bool) :
    (Seems ν w absorbed (or a b) ↔ Seems ν w (!w) b) ∧ (or a b).strong ν = b.strong ν := by
  refine ⟨by cases w <;> cases absorbed <;> simp [Seems, value, ha], ?_⟩
  rw [strong, ha.2]
  rcases b.strong ν with _ | _ | _ <;> rfl

end

theorem seems_congr {ν ν' : Assignment} {f : Formula} (h : f.value ν = f.value ν') (w absorbed : Bool) :
    Seems ν w absorbed f ↔ Seems ν' w absorbed f := by
  cases absorbed <;> simp only [Seems, h]

/-- Where `nilSafe` fails, some assignment makes the formula seem what it is not in the strong
reading: on the way to the leaf in question the other sides are made neutral. -/
theorem exists_seems : ∀ {f : Formula} {w absorbed : Bool}, f.leafIds.Nodup → nilSafe w absorbed f = false →
    ∃ ν, Seems ν w absorbed f ∧ f.strong ν ≠ some w
  | and a b, w, absorbed, hf, h => by
    obtain ⟨ha, hb, hd⟩ := List.nodup_append'.mp hf
    rcases Bool.and_eq_false_iff.mp h with h | h
    · obtain ⟨ν, hν, hs⟩ := exists_seems ha h
      obtain ⟨ν', hν'⟩ := exists_value hb true
      have hl := value_splice_left a ν ν'
      have hr := value_splice_right hd ν ν'
      obtain ⟨h₁, h₂⟩ := and_true_right (a := a) (by rwa [hr.1, hr.2]) w absorbed
      exact ⟨_, h₁.mpr ((seems_congr hl.1 _ _).mpr hν), by rwa [h₂, hl.2]⟩
    · obtain ⟨ν, hν⟩ := exists_value ha true
      obtain ⟨ν', hν', hs⟩ := exists_seems hb h
      have hl := value_splice_left a ν ν'
      have hr := value_splice_right hd ν ν'
      obtain ⟨h₁, h₂⟩ := and_true_left (b := b) (by rwa [hl.1, hl.2]) w absorbed
      exact ⟨_, h₁.mpr ((seems_congr hr.1 _ _).mpr hν'), by rwa [h₂, hr.2]⟩
  | or a b, w, absorbed, hf, h => by
    obtain ⟨ha, hb, hd⟩ := List.nodup_append'.mp hf
    rcases Bool.and_eq_false_iff.mp h with h | h
    · obtain ⟨ν, hν, hs⟩ := exists_seems ha h
      obtain ⟨ν', hν'⟩ := exists_value hb false
      have hl := value_splice_left a ν ν'
      have hr := value_splice_right hd ν ν'
      obtain ⟨h₁, h₂⟩ := or_false_right (a := a) (by rwa [hr.1, hr.2]) w absorbed
      exact ⟨_, h₁.mpr ((seems_congr hl.1 _ _).mpr hν), by rwa [h₂, hl.2]⟩
    · obtain ⟨ν, hν⟩ := exists_value ha false
      obtain ⟨ν', hν', hs⟩ := exists_seems hb h
      have hl := value_splice_left a ν ν'
      have hr := value_splice_right hd ν ν'
      obtain ⟨h₁, h₂⟩ := or_false_left (b := b) (by rwa [hl.1, hl.2]) w absorbed
      exact ⟨_, h₁.mpr ((seems_congr hr.1 _ _).mpr hν'), by rwa [h₂, hr.2]⟩
  | not a, w, absorbed, hf, h => by
    obtain ⟨ν, hν, hs⟩ := exists_seems (f := a) hf h
    exact ⟨ν, (seems_not ν w absorbed a).mpr hν, fun hw => hs ((map_not_eq _ _).mp hw)⟩
  | leaf i, w, absorbed, _, h => by
    cases absorbed with
    | true => exact ⟨fun _ => none, by simp [Seems, value], by simp [strong]⟩
    | false => cases h

/-! ## The formula of a guard -/

/-- The leaves of a guard are numbered as they are met, so none occurs twice in its formula. -/
theorem build_leafIds (leaves : Array Expr) (e : Expr) :
    ∃ k, (build leaves e).2.size = leaves.size + k ∧ (build leaves e).1.leafIds = List.range' leaves.size k := by
  fun_induction build leaves e with
  | case1 leaves left right _ l r ihl ihr =>
    obtain ⟨k, hk, hl⟩ := ihl
    obtain ⟨k', hk', hr⟩ := ihr
    refine ⟨k + k', by rw [hk', hk, Nat.add_assoc], ?_⟩
    rw [leafIds, hl, hr, hk, List.range'_append_1]
  | case2 leaves left right _ l r ihl ihr =>
    obtain ⟨k, hk, hl⟩ := ihl
    obtain ⟨k', hk', hr⟩ := ihr
    refine ⟨k + k', by rw [hk', hk, Nat.add_assoc], ?_⟩
    rw [leafIds, hl, hr, hk, List.range'_append_1]
  | case3 leaves left _ l ih => exact ih
  | case4 leaves e => exact ⟨1, by rw [Array.size_push], rfl⟩

theorem nodup_build (e : Expr) : (build #[] e).1.leafIds.Nodup := by
  obtain ⟨k, _, h⟩ := build_leafIds #[] e
  rw [h]
  exact List.nodup_range'

/-- The clauses of a guard's normal form hold exactly when the guard is true in the strong
reading, and follow from it under every assignment exactly when it is safe. -/
theorem clauses_hold_iff (e : Expr) {g : Formula} (h : (build #[] e).1.normalize? = some g) :
    (∀ ν, g.ClausesHold ν ↔ (build #[] e).1.strong ν = some true) ∧
      ((∀ ν, (build #[] e).1.value ν = some true → g.ClausesHold ν) ↔
        nilSafe true false (build #[] e).1 = true) := by
  refine ⟨fun ν => clausesHold_normalize ν h, fun hv => ?_, fun hs ν hν => ?_⟩
  · refine Classical.byContradiction fun hs => ?_
    obtain ⟨ν, hν, hne⟩ := exists_seems (nodup_build e) (Bool.eq_false_iff.mpr hs)
    exact hne ((clausesHold_normalize ν h).mp (hv ν hν))
  · exact (clausesHold_normalize ν h).mpr (strong_of_nilSafe ν hs hν)

/-- The guard `x.INODE == 5 || !(x.NAME == "a" || x.NAME == "b")`. -/
def inodeOrUnnamed : Expr :=
  .binary .logOr (.binary .eq (.field (.ref 0) "INODE") (.int 5))
    (.unary .logNot (.binary .logOr (.binary .eq (.field (.ref 0) "NAME") (.str "a"))
      (.binary .eq (.field (.ref 0) "NAME") (.str "b"))))

theorem clauses_hold_iff_inodeOrUnnamed :
    (build #[] inodeOrUnnamed).1.normalize? =
        some (and (or (leaf 0) (not (leaf 1))) (or (leaf 0) (not (leaf 2)))) ∧
      (∀ ν, ClausesHold ν (and (or (leaf 0) (not (leaf 1))) (or (leaf 0) (not (leaf 2)))) ↔
        (build #[] inodeOrUnnamed).1.strong ν = some true) ∧
      ((∀ ν, (build #[] inodeOrUnnamed).1.value ν = some true →
          ClausesHold ν (and (or (leaf 0) (not (leaf 1))) (or (leaf 0) (not (leaf 2))))) ↔
        nilSafe true false (build #[] inodeOrUnnamed).1 = true) :=
  ⟨rfl, clauses_hold_iff inodeOrUnnamed rfl⟩

/-- The guard `!(x.INODE != 5 && x.INODE != 7)`. -/
def inodeAmong : Expr :=
  .unary .logNot (.binary .logAnd (.binary .ne (.field (.ref 0) "INODE") (.int 5))
    (.binary .ne (.field (.ref 0) "INODE") (.int 7)))

/-- An object without an inode number satisfies the guard and no literal of its only clause. -/
theorem clauses_fail_inodeAmong :
    (build #[] inodeAmong).1.normalize? = some (or (not (leaf 0)) (not (leaf 1))) ∧
      (build #[] inodeAmong).1.value (fun _ => none) = some true ∧
      ¬ ClausesHold (fun _ => none) (or (not (leaf 0)) (not (leaf 1))) := by
  refine ⟨rfl, rfl, fun h => ?_⟩
  obtain ⟨l, hl, hv⟩ := h _ (List.mem_singleton.mpr rfl)
  simp only [literals, List.cons_append, List.nil_append, List.mem_cons, List.not_mem_nil, or_false] at hl
  rcases hl with rfl | rfl <;> cases hv

end Formula

end Provenance.Guard
