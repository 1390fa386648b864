import Provenance.Proofs.Value.Domain

/-!
# Values whose lists are of one kind

A value is uniform if every list inside it keeps a tag exactly when it has
members, and the members all have that tag. The literals in the body of a
closure count as inside it. Uniform values and expressions make a closed domain,
and the decoder makes uniform lists of uniform values.
-/

namespace Provenance

/-- The list keeps a tag if it has members, and they all have that tag. -/
def Tagged.isUniform (l : Tagged) : Bool :=
  l.tag.isSome == !l.members.isEmpty && l.members.all fun v => l.tag == some v.tag

mutual

def Value.isUniform : Value → Bool
  | .tuple vs => Value.areUniform vs
  | .list t vs => Tagged.isUniform ⟨t, vs⟩ && Value.areUniform vs
  | .lambda _ _ body => body.isUniform
  | _ => true

def Value.areUniform : List Value → Bool
  | [] => true
  | v :: vs => v.isUniform && Value.areUniform vs

/-- Whether the literals of the expression are uniform. -/
def Expr.isUniform : Expr → Bool
  | .val v => v.isUniform
  | .ref _ => true
  | .op _ left right _ => left.isUniform && Expr.isUniformOpt right
  | .tuple fields => Expr.areUniform fields
  | .cond test yes no => test.isUniform && (Expr.isUniformOpt yes && Expr.isUniformOpt no)
  | .forIn _ source guard body => source.isUniform && (guard.isUniform && body.isUniform)
  | .letIn _ bound guard body => bound.isUniform && (guard.isUniform && body.isUniform)
  | .lambda _ body => body.isUniform

def Expr.isUniformOpt : Option Expr → Bool
  | none => true
  | some e => e.isUniform

def Expr.areUniform : List (Option Expr) → Bool
  | [] => true
  | e :: rest => Expr.isUniformOpt e && Expr.areUniform rest

end

theorem Tagged.isUniform_iff {l : Tagged} : l.isUniform = true ↔ l.Sound := by
  rw [isUniform, Bool.and_eq_true, beq_iff_eq]
  simp only [List.all_eq_true, beq_iff_eq]
  constructor
  · rintro ⟨hsome, htags⟩
    refine ⟨?_, fun v hv w hw => Option.some.inj ((htags v hv).symm.trans (htags w hw))⟩
    cases hmembers : l.members with
    | nil =>
      rw [hmembers] at hsome
      simpa using hsome
    | cons v vs => exact htags v (hmembers ▸ List.mem_cons_self)
  · exact fun h => ⟨h.isSome_tag, fun v hv => h.tag.trans (h.kind.tag?_eq hv)⟩

namespace Value

theorem areUniform_iff {vs : List Value} : areUniform vs = true ↔ ∀ v ∈ vs, v.isUniform = true := by
  induction vs with
  | nil => simp [areUniform]
  | cons v vs ih => simp [areUniform, ih]

theorem isUniform_tuple {vs : List Value} : (tuple vs).isUniform = true ↔ ∀ v ∈ vs, v.isUniform = true := by
  rw [isUniform, areUniform_iff]

theorem isUniform_list {t : Option Tag} {vs : List Value} :
    (list t vs).isUniform = true ↔ Tagged.Sound ⟨t, vs⟩ ∧ ∀ v ∈ vs, v.isUniform = true := by
  rw [isUniform, Bool.and_eq_true, Tagged.isUniform_iff, areUniform_iff]

/-- Tags that were left behind do not pass. -/
example : (list (some .int) []).isUniform = false ∧ (list none [.int 1]).isUniform = false ∧
    (list (some .int) [.str "a"]).isUniform = false ∧ (list (some .int) [.int 1]).isUniform = true := by decide

theorem isUniform_listOf {vs : List Value} :
    (listOf vs).isUniform = true ↔ Members.OfOneKind vs ∧ ∀ v ∈ vs, v.isUniform = true :=
  isUniform_list.trans (and_congr_left fun _ => ⟨Tagged.Sound.kind, Tagged.sound_of⟩)

end Value

namespace Expr

theorem isUniformOpt_iff {e : Option Expr} : isUniformOpt e = true ↔ ∀ a ∈ e, a.isUniform = true := by
  cases e <;> simp [isUniformOpt]

theorem areUniform_iff {fields : List (Option Expr)} :
    areUniform fields = true ↔ ∀ a, some a ∈ fields → a.isUniform = true := by
  induction fields with
  | nil => simp [areUniform]
  | cons f rest ih =>
    rw [areUniform, Bool.and_eq_true, isUniformOpt_iff, ih]
    simp only [List.mem_cons, or_imp, forall_and, Option.mem_def, eq_comm]

theorem isUniform_part {e a : Expr} {x : Option VarId} (h : e.isUniform = true) (ha : (x, a) ∈ e.parts) :
    a.isUniform = true := by
  cases e with
  | val v => cases ha
  | ref y => cases ha
  | op o left right span =>
    rw [isUniform, Bool.and_eq_true] at h
    obtain ⟨-, rfl | rfl⟩ := mem_parts_op.mp ha
    · exact h.1
    · exact h.2
  | tuple fields => exact areUniform_iff.mp h a (mem_parts_tuple.mp ha).2
  | cond test yes no =>
    rw [isUniform, Bool.and_eq_true, Bool.and_eq_true] at h
    obtain ⟨-, rfl | rfl | rfl⟩ := mem_parts_cond.mp ha
    · exact h.1
    · exact h.2.1
    · exact h.2.2
  | forIn y source guard body =>
    rw [isUniform, Bool.and_eq_true, Bool.and_eq_true] at h
    obtain ⟨-, rfl⟩ | ⟨-, rfl⟩ | ⟨-, rfl⟩ := mem_parts_forIn.mp ha
    · exact h.1
    · exact h.2.1
    · exact h.2.2
  | letIn y bound guard body =>
    rw [isUniform, Bool.and_eq_true, Bool.and_eq_true] at h
    obtain ⟨-, rfl⟩ | ⟨-, rfl⟩ | ⟨-, rfl⟩ := mem_parts_letIn.mp ha
    · exact h.1
    · exact h.2.1
    · exact h.2.2
  | lambda y body =>
    obtain ⟨-, rfl⟩ := mem_parts_lambda.mp ha
    exact h

theorem isUniform_of_parts {e : Expr} (hval : ∀ v, e = .val v → v.isUniform = true)
    (hparts : ∀ x a, (x, a) ∈ e.parts → a.isUniform = true) : e.isUniform = true := by
  cases e with
  | val v => exact hval v rfl
  | ref y => rfl
  | op o left right span =>
    rw [isUniform, Bool.and_eq_true, isUniformOpt_iff]
    exact ⟨hparts none left left_mem_parts, fun a ha => hparts none a (mem_parts_op.mpr ⟨rfl, Or.inr ha⟩)⟩
  | tuple fields =>
    rw [isUniform, areUniform_iff]
    exact fun a ha => hparts none a (mem_parts_tuple.mpr ⟨rfl, ha⟩)
  | cond test yes no =>
    rw [isUniform, Bool.and_eq_true, Bool.and_eq_true, isUniformOpt_iff, isUniformOpt_iff]
    exact ⟨hparts none test (mem_parts_cond.mpr ⟨rfl, Or.inl rfl⟩),
      fun a ha => hparts none a (mem_parts_cond.mpr ⟨rfl, Or.inr (Or.inl ha)⟩),
      fun a ha => hparts none a (mem_parts_cond.mpr ⟨rfl, Or.inr (Or.inr ha)⟩)⟩
  | forIn y source guard body =>
    rw [isUniform, Bool.and_eq_true, Bool.and_eq_true]
    exact ⟨hparts none source (by simp [parts]), hparts (some y.id) guard (by simp [parts]),
      hparts (some y.id) body (by simp [parts])⟩
  | letIn y bound guard body =>
    rw [isUniform, Bool.and_eq_true, Bool.and_eq_true]
    exact ⟨hparts none bound (by simp [parts]), hparts (some y.id) guard (by simp [parts]),
      hparts (some y.id) body (by simp [parts])⟩
  | lambda y body => exact hparts (some y.id) body (mem_parts_lambda.mpr ⟨rfl, rfl⟩)

end Expr

def Domain.uniform : Domain where
  value v := v.isUniform = true
  expr e := e.isUniform = true

theorem Domain.closed_uniform : Domain.uniform.Closed where
  literal h := h
  part := Expr.isUniform_part
  body h := h
  int _ := rfl
  float _ := rfl
  str _ := rfl
  object _ := rfl
  tuple := Value.isUniform_tuple
  member h := (Value.isUniform_list.mp h).2
  list h hkind := Value.isUniform_listOf.mpr ⟨hkind, h⟩
  concat ha hb h := by
    obtain ⟨hsa, ha⟩ := Value.isUniform_list.mp ha
    obtain ⟨hsb, hb⟩ := Value.isUniform_list.mp hb
    exact Value.isUniform_list.mpr ⟨Tagged.sound_concat hsa hsb h, Tagged.forall_concat h ha hb⟩

/-- The decoder makes uniform lists of uniform values. -/
theorem Tagged.isUniform_of_ofDeclared {declared : Option Tag} {vs : Members} {l : Tagged}
    (h : ofDeclared declared vs = .ok l) (hvs : ∀ v ∈ vs, v.isUniform = true) : l.value.isUniform = true := by
  obtain ⟨rfl, t, htag, -⟩ := ofDeclared_eq_ok_iff.mp h
  exact Value.isUniform_listOf.mpr ⟨Members.ofOneKind_of_forall htag, hvs⟩

end Provenance
