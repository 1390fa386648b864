import Provenance.Value.Members

/-!
# Lists and the tags that they keep

A list keeps the tag of its members beside them, and every operation has to keep
the two in step. Where it does, the list is `Sound`: it is the list `Tagged.of`
of its members. Values are gathered with `push`, which trusts the tag that is
kept, so of sound lists it makes sound ones, and so does all that is put
together from it.
-/

namespace Provenance

namespace Members

/-- The tag of the first member, if there is one. -/
def tag? (vs : Members) : Option Tag :=
  vs.head?.map Value.tag

@[simp] theorem tag?_nil : tag? [] = none := rfl

@[simp] theorem tag?_cons (v : Value) (vs : Members) : tag? (v :: vs) = some v.tag := rfl

/-! ## Lists of one kind -/

def OfOneKind (vs : Members) : Prop :=
  ∀ v ∈ vs, ∀ w ∈ vs, v.tag = w.tag

variable {v : Value} {vs ws : Members} {t : Tag}

theorem ofOneKind_nil : OfOneKind [] :=
  fun _ hv => absurd hv List.not_mem_nil

theorem ofOneKind_of_forall (h : ∀ v ∈ vs, v.tag = t) : OfOneKind vs :=
  fun v hv w hw => (h v hv).trans (h w hw).symm

theorem OfOneKind.subset (h : OfOneKind ws) (hsub : vs ⊆ ws) : OfOneKind vs :=
  fun v hv w hw => h v (hsub hv) w (hsub hw)

theorem OfOneKind.tag?_eq (h : OfOneKind vs) (hv : v ∈ vs) : vs.tag? = some v.tag := by
  cases vs with
  | nil => cases hv
  | cons w vs => exact congrArg some (h w List.mem_cons_self v hv)

theorem tag?_reverse (h : OfOneKind vs) : tag? vs.reverse = vs.tag? := by
  cases hvs : vs.reverse with
  | nil => rw [List.reverse_eq_nil_iff.mp hvs]
  | cons w ws => exact (h.tag?_eq (List.mem_reverse.mp (hvs ▸ List.mem_cons_self))).symm

theorem ofOneKind_cons_iff : OfOneKind (v :: vs) ↔ OfOneKind vs ∧ ∀ t ∈ vs.tag?, t = v.tag := by
  cases vs with
  | nil => simp [OfOneKind]
  | cons w vs =>
    have htag : (∀ t ∈ tag? (w :: vs), t = v.tag) ↔ w.tag = v.tag := by simp
    rw [htag]
    refine ⟨fun h => ⟨h.subset (List.subset_cons_self v _), h w (by simp) v (by simp)⟩, fun ⟨h, hw⟩ => ?_⟩
    refine ofOneKind_of_forall (t := w.tag) (List.forall_mem_cons.mpr ⟨hw.symm, fun u hu => ?_⟩)
    exact h u hu w List.mem_cons_self

theorem ofOneKind_ofObjects (ps : List ObjectId) : OfOneKind (ofObjects ps) :=
  ofOneKind_of_forall (t := .object) fun v hv => by
    obtain ⟨p, -, rfl⟩ := List.mem_map.mp hv
    rfl

/-! ## Where the members of a list come from -/

theorem mem_insertFalling {v w : Value} : ∀ {l : Members}, w ∈ insertFalling v l ↔ w = v ∨ w ∈ l
  | [] => by simp [insertFalling]
  | u :: rest => by
    unfold insertFalling
    split
    · rw [List.mem_cons, mem_insertFalling, List.mem_cons]
      exact or_left_comm
    · rw [List.mem_cons]

theorem mem_foldl_insertFalling {w : Value} : ∀ {l falling : Members},
    w ∈ l.foldl (fun falling v => insertFalling v falling) falling ↔ w ∈ l ∨ w ∈ falling
  | [], _ => by simp
  | v :: l, falling => by
    rw [List.foldl_cons, mem_foldl_insertFalling, mem_insertFalling, List.mem_cons, or_left_comm, or_assoc]

theorem mem_sort {w : Value} {l : Members} : w ∈ l.sort ↔ w ∈ l := by
  rw [sort, List.mem_reverse, mem_foldl_insertFalling]
  simp

theorem dedupAfter_subset : ∀ {l : Members} {kept : Value}, dedupAfter kept l ⊆ l
  | [], _ => List.Subset.refl _
  | v :: rest, kept => by
    unfold dedupAfter
    split
    · exact List.subset_cons_of_subset _ dedupAfter_subset
    · exact List.cons_subset_cons _ dedupAfter_subset

theorem sortedSet_subset (l : Members) : l.sortedSet ⊆ l := by
  intro w hw
  rw [sortedSet] at hw
  rw [← mem_sort]
  cases h : l.sort with
  | nil => rw [h] at hw; cases hw
  | cons v rest =>
    rw [h] at hw
    exact List.cons_subset_cons _ dedupAfter_subset hw

theorem sortedSet_eq_nil_iff {l : Members} : l.sortedSet = [] ↔ l = [] := by
  refine ⟨fun h => ?_, fun h => by rw [h]; rfl⟩
  have hsort : l.sort = [] := by
    cases hs : l.sort with
    | nil => rfl
    | cons v rest =>
      rw [sortedSet, hs] at h
      cases h
  refine List.eq_nil_iff_forall_not_mem.mpr fun v hv => ?_
  have := mem_sort.mpr hv
  rw [hsort] at this
  cases this

theorem head_subset {m : Merge} {v : Value} {vs : Members} {rest : Members → Members}
    (hrest : ∀ ws, rest ws ⊆ vs ++ ws) : ∀ {ws : Members}, m.head v rest ws ⊆ v :: vs ++ ws
  | [] => by
    unfold Merge.head
    have h := hrest []
    split <;> grind
  | w :: ws => by
    unfold Merge.head
    have h := hrest ws
    have h' := hrest (w :: ws)
    have ih : m.head v rest ws ⊆ v :: vs ++ ws := head_subset hrest
    split <;> split <;> grind

theorem run_subset (m : Merge) : ∀ {vs ws : Members}, m.run vs ws ⊆ vs ++ ws
  | [], ws => by
    unfold Merge.run
    split
    · exact List.Subset.refl _
    · exact List.nil_subset _
  | v :: vs, ws => by
    rw [Merge.run]
    exact head_subset fun ws => run_subset m

end Members

namespace Value

/-- The list of the values, with the tag of the first of them. -/
def listOf (vs : Members) : Value :=
  .list vs.tag? vs

end Value

/-! ## Sound lists -/

namespace Tagged

open Members (OfOneKind ofOneKind_cons_iff)

def of (vs : Members) : Tagged :=
  ⟨vs.tag?, vs⟩

@[simp] theorem members_of (vs : Members) : (of vs).members = vs := rfl

@[simp] theorem value_of (vs : Members) : (of vs).value = .listOf vs := rfl

/-- The tag that is kept is that of the members, and they all have it. -/
structure Sound (l : Tagged) : Prop where
  tag : l.tag = l.members.tag?
  kind : OfOneKind l.members

variable {l l' a b : Tagged} {v : Value} {vs : Members}

theorem sound_of (h : OfOneKind vs) : (of vs).Sound :=
  ⟨rfl, h⟩

theorem Sound.eq_of (h : l.Sound) : l = of l.members := by
  obtain ⟨tag, members⟩ := l
  exact congrArg (Tagged.mk · members) h.tag

theorem empty_eq : empty = of [] := rfl

theorem ofObjects_eq (ps : List ObjectId) : ofObjects ps = of (.ofObjects ps) := by
  cases ps <;> rfl

theorem sound_empty : empty.Sound :=
  sound_of Members.ofOneKind_nil

theorem singleton_eq (v : Value) : singleton v = of [v] := rfl

theorem sound_singleton (v : Value) : (singleton v).Sound := by
  rw [singleton_eq]
  exact sound_of (Members.ofOneKind_of_forall (t := v.tag) fun w hw => by rw [List.mem_singleton.mp hw])

theorem sound_ofObjects (ps : List ObjectId) : (ofObjects ps).Sound := by
  rw [ofObjects_eq]
  exact sound_of (Members.ofOneKind_ofObjects ps)

theorem Sound.isSome_tag (h : l.Sound) : l.tag.isSome = !l.members.isEmpty := by
  rw [h.tag]
  cases l.members <;> rfl

theorem Sound.reverse (h : l.Sound) : l.reverse.Sound where
  tag := h.tag.trans (Members.tag?_reverse h.kind).symm
  kind := h.kind.subset fun _ => List.mem_reverse.mp

theorem Sound.value_reverse (h : l.Sound) : l.reverse.value = .listOf l.members.reverse :=
  congrArg value h.reverse.eq_of

@[simp] theorem reverse_reverse (l : Tagged) : l.reverse.reverse = l := by
  obtain ⟨t, vs⟩ := l
  exact congrArg (mk t) vs.reverse_reverse

theorem reverse_of (h : OfOneKind vs) : (of vs).reverse = of vs.reverse :=
  (sound_of h).reverse.eq_of

theorem reverse_ofObjects (ps : List ObjectId) : (of (.ofObjects ps)).reverse = of (.ofObjects ps.reverse) := by
  rw [reverse_of (Members.ofOneKind_ofObjects ps), Members.ofObjects, Members.ofObjects, List.map_reverse]

/-! ## Gathering -/

theorem push_eq_ok_iff (h : l.Sound) : l.push v = .ok l' ↔ l' = of (v :: l.members) ∧ OfOneKind (v :: l.members) := by
  rw [ofOneKind_cons_iff, and_iff_right h.kind, ← h.tag]
  unfold push
  cases l.tag with
  | none => simp [of, eq_comm]
  | some t => by_cases ht : t = v.tag <;> simp [of, ht, eq_comm]

theorem sound_push (h : l.Sound) (hpush : l.push v = .ok l') : l'.Sound := by
  obtain ⟨rfl, hkind⟩ := (push_eq_ok_iff h).mp hpush
  exact sound_of hkind

theorem push_of (h : OfOneKind (v :: vs)) : (of vs).push v = .ok (of (v :: vs)) :=
  (push_eq_ok_iff (sound_of (h.subset (List.subset_cons_self v vs)))).mpr ⟨rfl, h⟩

theorem pushAll_eq_ok_iff (h : l.Sound) : l.pushAll vs = .ok l' ↔
    l' = of (vs.reverse ++ l.members) ∧ OfOneKind (vs.reverse ++ l.members) := by
  induction vs generalizing l with
  | nil =>
    rw [pushAll, Except.ok.injEq, List.reverse_nil, List.nil_append, and_iff_left h.kind, ← h.eq_of, eq_comm]
  | cons v vs ih =>
    rw [pushAll, List.reverse_cons, List.append_assoc, List.singleton_append]
    cases hpush : l.push v with
    | ok l₁ =>
      obtain ⟨rfl, hkind⟩ := (push_eq_ok_iff h).mp hpush
      exact ih (sound_of hkind)
    | error m =>
      -- The value that is refused stays refused whatever comes after it.
      refine ⟨fun hl => (by cases hl), fun ⟨_, hkind⟩ => ?_⟩
      rw [(push_eq_ok_iff h).mpr ⟨rfl, hkind.subset (List.subset_append_right _ _)⟩] at hpush
      cases hpush

theorem map_reverse_eq_ok_iff {r : Except TagMismatch Tagged} : r.map reverse = .ok l ↔ r = .ok l.reverse := by
  cases r with
  | error m => simp [Except.map]
  | ok l' =>
    simp only [Except.map, Except.ok.injEq]
    exact ⟨fun h => by rw [← h, reverse_reverse], fun h => by rw [h, reverse_reverse]⟩

theorem reverse_eq_of_iff (h : OfOneKind vs) : l.reverse = of vs.reverse ↔ l = of vs := by
  rw [← reverse_of h]
  exact ⟨fun hl => by rw [← reverse_reverse l, hl, reverse_reverse], congrArg reverse⟩

theorem ofOneKind_reverse_iff : OfOneKind vs.reverse ↔ OfOneKind vs :=
  ⟨fun h => h.subset fun _ => List.mem_reverse.mpr, fun h => h.subset fun _ => List.mem_reverse.mp⟩

/-- The values make a list if they are all of one kind. -/
theorem ofValues_eq_ok_iff : ofValues vs = .ok l ↔ l = of vs ∧ OfOneKind vs := by
  rw [ofValues, map_reverse_eq_ok_iff, pushAll_eq_ok_iff sound_empty]
  simp only [empty, List.append_nil, ofOneKind_reverse_iff]
  exact and_congr_left reverse_eq_of_iff

/-- What was declared counts as if it had been the kind of a member before the first. -/
theorem ofDeclared_cons {declared : Option Tag} (v : Value) (vs : Members) :
    ofDeclared declared (v :: vs) = if ∀ t ∈ declared, t = v.tag then ofValues (v :: vs) else
      .error ⟨declared.getD v.tag, v.tag⟩ := by
  cases declared with
  | none => simp [ofDeclared, ofValues, empty]
  | some t =>
    by_cases ht : t = v.tag <;> simp [ofDeclared, ofValues, pushAll, push, empty, ht, Except.map]

theorem ofDeclared_eq_ok_iff {declared : Option Tag} : ofDeclared declared vs = .ok l ↔
    l = of vs ∧ ∃ t, (∀ v ∈ vs, v.tag = t) ∧ ∀ t' ∈ declared, t' = t := by
  cases vs with
  | nil =>
    have hnil : ofDeclared declared [] = .ok (of []) := rfl
    rw [hnil, Except.ok.injEq, eq_comm]
    refine (and_iff_left ⟨declared.getD .int, fun v hv => absurd hv List.not_mem_nil, fun t ht => ?_⟩).symm
    rw [Option.mem_def.mp ht, Option.getD_some]
  | cons v vs =>
    have hshare : (∃ t, (∀ w ∈ v :: vs, w.tag = t) ∧ ∀ t' ∈ declared, t' = t) ↔
        OfOneKind (v :: vs) ∧ ∀ t' ∈ declared, t' = v.tag := by
      refine ⟨fun ⟨t, htag, hdecl⟩ => ?_, fun ⟨h, hdecl⟩ => ⟨v.tag, fun w hw => h w hw v List.mem_cons_self, hdecl⟩⟩
      obtain rfl : v.tag = t := htag v List.mem_cons_self
      exact ⟨Members.ofOneKind_of_forall htag, hdecl⟩
    rw [hshare, ofDeclared_cons]
    split
    · rename_i hdecl
      rw [ofValues_eq_ok_iff, and_iff_left hdecl]
    · rename_i hdecl
      exact ⟨fun h => (by cases h), fun h => absurd h.2.2 hdecl⟩

/-! ## Lists out of lists -/

theorem sound_sortedSet (h : l.Sound) : l.sortedSet.Sound := by
  refine ⟨?_, h.kind.subset (Members.sortedSet_subset _)⟩
  show l.tag = Members.tag? l.members.sortedSet
  cases hs : l.members.sortedSet with
  | nil => rw [h.tag, Members.sortedSet_eq_nil_iff.mp hs, Members.tag?_nil]
  | cons v rest =>
    rw [h.tag, Members.tag?_cons]
    exact h.kind.tag?_eq (Members.sortedSet_subset _ (hs ▸ List.mem_cons_self))

/-- Whatever tags the sides keep, a merge makes a sound list. -/
theorem merge_eq_ok_iff {m : Members.Merge} : merge m a b = .ok l ↔
    l = of (m.run a.members.sortedSet b.members.sortedSet) ∧
      OfOneKind (m.run a.members.sortedSet b.members.sortedSet) :=
  ofValues_eq_ok_iff

theorem merge_subset {m : Members.Merge} (h : merge m a b = .ok l) : l.members ⊆ a.members ++ b.members := by
  obtain ⟨rfl, -⟩ := merge_eq_ok_iff.mp h
  intro w hw
  rcases List.mem_append.mp (Members.run_subset m hw) with hw | hw
  · exact List.mem_append_left _ (Members.sortedSet_subset _ hw)
  · exact List.mem_append_right _ (Members.sortedSet_subset _ hw)

theorem members_concat (h : concat a b = .ok l) : l.members = a.members ++ b.members := by
  unfold concat at h
  split at h
  · rename_i ha
    cases h
    rw [List.isEmpty_iff.mp ha, List.nil_append]
  split at h
  · rename_i hb
    cases h
    rw [List.isEmpty_iff.mp hb, List.append_nil]
  split at h
  · split at h <;> cases h
    rfl
  · cases h
    rfl

theorem forall_concat {P : Value → Prop} (h : concat a b = .ok l) (ha : ∀ v ∈ a.members, P v)
    (hb : ∀ v ∈ b.members, P v) : ∀ v ∈ l.members, P v := by
  rw [members_concat h]
  exact List.forall_mem_append.mpr ⟨ha, hb⟩

theorem ofOneKind_append_iff {vs ws : Members} (hvs : OfOneKind vs) (hws : OfOneKind ws) :
    OfOneKind (vs ++ ws) ↔ vs = [] ∨ ws = [] ∨ vs.tag? = ws.tag? := by
  cases vs with
  | nil => simp [hws]
  | cons v vs =>
    cases ws with
    | nil => simp [hvs]
    | cons w ws =>
      simp only [reduceCtorEq, false_or, Members.tag?_cons, Option.some.injEq]
      refine ⟨fun h => h v (by simp) w (by simp), fun htag => Members.ofOneKind_of_forall (t := v.tag) ?_⟩
      refine List.forall_mem_append.mpr ⟨fun u hu => hvs u hu v List.mem_cons_self, fun u hu => ?_⟩
      exact (hws u hu w List.mem_cons_self).trans htag.symm

/-- Sound lists go together if one is empty or they are of the same kind. -/
theorem concat_eq_ok_iff (ha : a.Sound) (hb : b.Sound) : concat a b = .ok l ↔
    l = of (a.members ++ b.members) ∧ OfOneKind (a.members ++ b.members) := by
  rw [ha.eq_of, hb.eq_of, members_of, members_of, ofOneKind_append_iff ha.kind hb.kind]
  cases a.members with
  | nil => simp [concat, of, eq_comm]
  | cons v vs =>
    cases b.members with
    | nil => simp [concat, of, eq_comm]
    | cons w ws => by_cases ht : v.tag = w.tag <;> simp [concat, of, ht, eq_comm]

theorem sound_concat (ha : a.Sound) (hb : b.Sound) (h : concat a b = .ok l) : l.Sound := by
  obtain ⟨rfl, hkind⟩ := (concat_eq_ok_iff ha hb).mp h
  exact sound_of hkind

end Tagged

end Provenance
