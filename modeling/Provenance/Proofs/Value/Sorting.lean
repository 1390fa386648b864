import Mathlib.Data.List.Forall2
import Mathlib.Tactic.Tauto
import Provenance.Proofs.Value.Everywhere
import Provenance.Proofs.Value.Ordering

/-!
# Sorting and merging

Where the values of a list are in a total order, sorting and dropping duplicates
leaves a rising list that covers what the list covered, and a merge of two rising
lists is a rising list that covers what it is meant to keep (`rising_merge`):
each step of the merge decides about one member, which neither rest covers.
-/

namespace Provenance.Members

open Value (Ordered)

/-- Each member is less than those behind it. -/
def Rising (l : Members) : Prop :=
  l.Pairwise fun v w => v.compare w = .lt

/-- Some member compares equal to `u`. -/
def Covers (l : Members) (u : Value) : Prop :=
  ∃ v ∈ l, v.compare u = .eq

theorem covers_nil {u : Value} : ¬ Covers [] u := by
  rintro ⟨v, hv, -⟩
  exact List.not_mem_nil hv

theorem covers_cons {v u : Value} {l : Members} : Covers (v :: l) u ↔ v.compare u = .eq ∨ l.Covers u := by
  simp [Covers]

section

variable {D : Value → Prop} (h : Ordered D)
include h

/-! ## Sorting -/

theorem falling_insertFalling {v : Value} (hv : D v) : ∀ {l : Members}, (∀ w ∈ l, D w) →
    l.Pairwise (fun v w => w.compare v ≠ .gt) → (insertFalling v l).Pairwise fun v w => w.compare v ≠ .gt
  | [], _, _ => by
    simp [insertFalling]
  | w :: rest, hl, hfall => by
    obtain ⟨hw, hrest⟩ := List.forall_mem_cons.mp hl
    obtain ⟨hlow, hfall'⟩ := List.pairwise_cons.mp hfall
    unfold insertFalling
    split
    · rename_i hlt
      refine List.pairwise_cons.mpr ⟨fun x hx => ?_, falling_insertFalling hv hrest hfall'⟩
      rcases mem_insertFalling.mp hx with rfl | hx
      · simp [hlt]
      · exact hlow x hx
    · rename_i hge
      have hwv : w.compare v ≠ .gt := fun hgt => hge (h.lt_of_gt hw hv hgt)
      refine List.pairwise_cons.mpr ⟨fun x hx => ?_, hfall⟩
      rcases List.mem_cons.mp hx with rfl | hx
      · exact hwv
      · exact (h.chained (hrest x hx) hw hv).not_gt (hlow x hx) hwv

theorem falling_foldl : ∀ {l falling : Members}, (∀ v ∈ l, D v) → (∀ v ∈ falling, D v) →
    falling.Pairwise (fun v w => w.compare v ≠ .gt) →
    (l.foldl (fun falling v => insertFalling v falling) falling).Pairwise fun v w => w.compare v ≠ .gt
  | [], _, _, _, hfall => hfall
  | v :: l, falling, hl, hf, hfall => by
    obtain ⟨hv, hl⟩ := List.forall_mem_cons.mp hl
    rw [List.foldl_cons]
    refine falling_foldl hl (fun w hw => ?_) (falling_insertFalling h hv hf hfall)
    rcases mem_insertFalling.mp hw with rfl | hw
    · exact hv
    · exact hf w hw

theorem pairwise_sort {l : Members} (hl : ∀ v ∈ l, D v) : l.sort.Pairwise fun v w => v.compare w ≠ .gt :=
  List.pairwise_reverse.mpr (falling_foldl h hl (fun _ hv => absurd hv List.not_mem_nil) List.Pairwise.nil)

theorem rising_dedupAfter {k : Value} : ∀ {l : Members}, (∀ v ∈ k :: l, D v) →
    (k :: l).Pairwise (fun v w => v.compare w ≠ .gt) →
    Rising (k :: dedupAfter k l) ∧ ∀ u, D u → (Covers (k :: dedupAfter k l) u ↔ Covers (k :: l) u)
  | [], _, _ => ⟨List.pairwise_singleton _ _, fun _ _ => Iff.rfl⟩
  | v :: l, hl, hsort => by
    obtain ⟨hk, hl'⟩ := List.forall_mem_cons.mp hl
    obtain ⟨hv, hrest⟩ := List.forall_mem_cons.mp hl'
    obtain ⟨hlow, hsort'⟩ := List.pairwise_cons.mp hsort
    by_cases hvk : v.compare k = .eq
    · obtain ⟨hrise, hcovers⟩ := rising_dedupAfter (List.forall_mem_cons.mpr ⟨hk, hrest⟩)
        (List.pairwise_cons.mpr ⟨fun w hw => hlow w (List.mem_cons_of_mem _ hw), (List.pairwise_cons.mp hsort').2⟩)
      rw [dedupAfter, hvk]
      refine ⟨hrise, fun u hu => ?_⟩
      rw [hcovers u hu, covers_cons, covers_cons, covers_cons, h.congr_left hv hk hu hvk]
      exact or_self_left.symm
    · have hkv : k.compare v = .lt := by
        have hle := hlow v List.mem_cons_self
        cases hc : k.compare v with
        | lt => rfl
        | eq => exact absurd (h.symm hk hv hc) hvk
        | gt => exact absurd hc hle
      obtain ⟨hrise, hcovers⟩ := rising_dedupAfter hl' hsort'
      have hdedup : dedupAfter k (v :: l) = v :: dedupAfter v l := by
        rw [dedupAfter]
        split
        · exact absurd ‹_› hvk
        · rfl
      rw [hdedup]
      refine ⟨List.pairwise_cons.mpr ⟨fun w hw => ?_, hrise⟩, fun u hu => ?_⟩
      · rcases List.mem_cons.mp hw with rfl | hw
        · exact hkv
        · exact h.lt_trans hk hv (hrest w (dedupAfter_subset hw)) hkv ((List.pairwise_cons.mp hrise).1 w hw)
      · rw [covers_cons, hcovers u hu, covers_cons (v := k)]

theorem rising_sortedSet {l : Members} (hl : ∀ v ∈ l, D v) :
    Rising l.sortedSet ∧ ∀ u, D u → (Covers l.sortedSet u ↔ Covers l u) := by
  have hmem : ∀ v ∈ l.sort, D v := fun v hv => hl v (mem_sort.mp hv)
  have hsort := pairwise_sort h hl
  have hcovers : ∀ u, Covers l.sort u ↔ Covers l u := fun u => by
    simp only [Covers, mem_sort]
  rw [sortedSet]
  cases hs : l.sort with
  | nil =>
    refine ⟨List.Pairwise.nil, fun u _ => ?_⟩
    rw [← hcovers, hs]
    rfl
  | cons k rest =>
    rw [hs] at hmem hsort
    obtain ⟨hrise, hkept⟩ := rising_dedupAfter h hmem hsort
    refine ⟨hrise, fun u hu => ?_⟩
    rw [← hcovers, hs]
    exact hkept u hu

/-- Two rising lists of which each covers the other agree place by place: their first members do, since neither
can be less than all members of the other list. -/
theorem forall₂_of_rising : ∀ {l l' : Members}, (∀ v ∈ l, D v) → (∀ v ∈ l', D v) → Rising l → Rising l' →
    (∀ v ∈ l, Covers l' v) → (∀ v ∈ l', Covers l v) → List.Forall₂ (fun v w => v.compare w = .eq) l l'
  | [], [], _, _, _, _, _, _ => .nil
  | [], w :: _, _, _, _, _, _, hback => absurd (hback w List.mem_cons_self) covers_nil
  | v :: _, [], _, _, _, _, hforth, _ => absurd (hforth v List.mem_cons_self) covers_nil
  | v :: l, w :: l', hl, hl', hrise, hrise', hforth, hback => by
    obtain ⟨hv, hl⟩ := List.forall_mem_cons.mp hl
    obtain ⟨hw, hl'⟩ := List.forall_mem_cons.mp hl'
    obtain ⟨hlow, hrise⟩ := List.pairwise_cons.mp hrise
    obtain ⟨hlow', hrise'⟩ := List.pairwise_cons.mp hrise'
    have hvw : v.compare w = .eq := by
      rcases covers_cons.mp (hforth v List.mem_cons_self) with hwv | ⟨w', hw', hwv⟩
      · exact h.symm hw hv hwv
      · rcases covers_cons.mp (hback w List.mem_cons_self) with hvw | ⟨v', hv', hvw⟩
        · exact hvw
        · have hlt := h.lt_trans hw (hl' w' hw') hw (hlow' w' hw')
          have hgt : w'.compare w = .lt := by
            rw [h.congr_left (hl' w' hw') hv hw hwv]
            exact (h.congr_right hv hw (hl v' hv') (h.symm (hl v' hv') hw hvw)).symm.trans (hlow v' hv')
          rw [h.refl hw] at hlt
          exact absurd (hlt hgt) Ordering.noConfusion
    refine .cons hvw (forall₂_of_rising hl hl' hrise hrise' (fun u hu => ?_) fun u hu => ?_)
    · rcases covers_cons.mp (hforth u (List.mem_cons_of_mem _ hu)) with hwu | hcovers
      · have hlt := hlow u hu
        rw [h.congr_left hv hw (hl u hu) hvw, hwu] at hlt
        cases hlt
      · exact hcovers
    · rcases covers_cons.mp (hback u (List.mem_cons_of_mem _ hu)) with hvu | hcovers
      · have hlt := hlow' u hu
        rw [← h.congr_left hv hw (hl' u hu) hvw, hvu] at hlt
        cases hlt
      · exact hcovers

end

/-! ## Merging -/

/-- What a merge keeps of what is on the left or on the right. -/
def Merge.Keeps (m : Merge) (left right : Prop) : Prop :=
  m.left = true ∧ left ∧ ¬ right ∨ m.right = true ∧ ¬ left ∧ right ∨ m.both = true ∧ left ∧ right

section

variable {m : Merge} {p q x : Prop}

theorem Merge.keeps_left (hp : x → ¬ p) (hq : x → ¬ q) : m.Keeps (x ∨ p) q ↔ m.left = true ∧ x ∨ m.Keeps p q := by
  unfold Merge.Keeps
  tauto

theorem Merge.keeps_right (hp : x → ¬ p) (hq : x → ¬ q) : m.Keeps p (x ∨ q) ↔ m.right = true ∧ x ∨ m.Keeps p q := by
  unfold Merge.Keeps
  tauto

theorem Merge.keeps_both (hp : x → ¬ p) (hq : x → ¬ q) : m.Keeps (x ∨ p) (x ∨ q) ↔ m.both = true ∧ x ∨ m.Keeps p q := by
  unfold Merge.Keeps
  tauto

end

theorem rising_ite {b : Bool} {v : Value} {l : Members} (hlow : ∀ w ∈ l, v.compare w = .lt) (hl : Rising l) :
    Rising (if b then v :: l else l) := by
  split
  · exact List.pairwise_cons.mpr ⟨hlow, hl⟩
  · exact hl

theorem covers_ite {b : Bool} {v u : Value} {l : Members} :
    Covers (if b then v :: l else l) u ↔ b = true ∧ v.compare u = .eq ∨ Covers l u := by
  cases b <;> simp [covers_cons]

section

variable {D : Value → Prop} (h : Ordered D)
include h

theorem not_covers {v u : Value} {l : Members} (hv : D v) (hl : ∀ w ∈ l, D w) (hlow : ∀ w ∈ l, v.compare w = .lt)
    (hu : D u) (hvu : v.compare u = .eq) : ¬ Covers l u := by
  rintro ⟨w, hw, hwu⟩
  have hvw := hlow w hw
  rw [← h.congr_right hv (hl w hw) hu hwu, hvu] at hvw
  cases hvw

/-- The merge with a list whose first member is `v`, given what `rest` makes of its other members `vs`. -/
theorem rising_head {m : Merge} {v : Value} {vs : Members} {rest : Members → Members} (hv : D v) (hvs : ∀ w ∈ vs, D w)
    (hlow : ∀ w ∈ vs, v.compare w = .lt) (hsub : ∀ ws, rest ws ⊆ vs ++ ws)
    (hrest : ∀ ws, (∀ w ∈ ws, D w) → Rising ws →
      Rising (rest ws) ∧ ∀ u, D u → (Covers (rest ws) u ↔ m.Keeps (Covers vs u) (Covers ws u))) :
    ∀ ws : Members, (∀ w ∈ ws, D w) → Rising ws →
      Rising (m.head v rest ws) ∧ ∀ u, D u → (Covers (m.head v rest ws) u ↔ m.Keeps (Covers (v :: vs) u) (Covers ws u))
  | [], _, _ => by
    obtain ⟨hrise, hcovers⟩ := hrest [] (fun _ hw => absurd hw List.not_mem_nil) List.Pairwise.nil
    rw [Merge.head]
    refine ⟨rising_ite (fun w hw => hlow w (by simpa using hsub [] hw)) hrise, fun u hu => ?_⟩
    rw [covers_ite, hcovers u hu, covers_cons,
      Merge.keeps_left (not_covers h hv hvs hlow hu) fun _ => covers_nil]
  | w :: ws, hws, hrise => by
    obtain ⟨hw, hws'⟩ := List.forall_mem_cons.mp hws
    obtain ⟨hloww, hrise'⟩ := List.pairwise_cons.mp hrise
    unfold Merge.head
    cases hc : v.compare w with
    | lt =>
      have hlow' : ∀ y ∈ w :: ws, v.compare y = .lt := fun y hy => by
        rcases List.mem_cons.mp hy with rfl | hy
        · exact hc
        · exact h.lt_trans hv hw (hws' y hy) hc (hloww y hy)
      obtain ⟨hr, hcovers⟩ := hrest (w :: ws) hws hrise
      refine ⟨rising_ite (fun y hy => ?_) hr, fun u hu => ?_⟩
      · rcases List.mem_append.mp (hsub _ hy) with hy | hy
        · exact hlow y hy
        · exact hlow' y hy
      · rw [covers_ite, hcovers u hu, covers_cons (v := v),
          Merge.keeps_left (not_covers h hv hvs hlow hu) (not_covers h hv hws hlow' hu)]
    | eq =>
      have hlow' : ∀ y ∈ ws, v.compare y = .lt := fun y hy =>
        (h.congr_left hv hw (hws' y hy) hc).trans (hloww y hy)
      obtain ⟨hr, hcovers⟩ := hrest ws hws' hrise'
      refine ⟨rising_ite (fun y hy => ?_) hr, fun u hu => ?_⟩
      · rcases List.mem_append.mp (hsub _ hy) with hy | hy
        · exact hlow y hy
        · exact hlow' y hy
      · rw [covers_ite, hcovers u hu, covers_cons, covers_cons, ← h.congr_left hv hw hu hc,
          Merge.keeps_both (not_covers h hv hvs hlow hu) (not_covers h hv hws' hlow' hu)]
    | gt =>
      have hwv := h.lt_of_gt hv hw hc
      have hlow' : ∀ y ∈ v :: vs, w.compare y = .lt := fun y hy => by
        rcases List.mem_cons.mp hy with rfl | hy
        · exact hwv
        · exact h.lt_trans hw hv (hvs y hy) hwv (hlow y hy)
      obtain ⟨hr, hcovers⟩ := rising_head hv hvs hlow hsub hrest ws hws' hrise'
      refine ⟨rising_ite (fun y hy => ?_) hr, fun u hu => ?_⟩
      · rcases List.mem_append.mp (head_subset hsub hy) with hy | hy
        · exact hlow' y hy
        · exact hloww y hy
      · rw [covers_ite, hcovers u hu, covers_cons (v := w),
          Merge.keeps_right (not_covers h hw (List.forall_mem_cons.mpr ⟨hv, hvs⟩) hlow' hu)
            (not_covers h hw hws' hloww hu)]

theorem rising_run (m : Merge) : ∀ vs : Members, (∀ v ∈ vs, D v) → Rising vs →
    ∀ ws : Members, (∀ w ∈ ws, D w) → Rising ws →
      Rising (m.run vs ws) ∧ ∀ u, D u → (Covers (m.run vs ws) u ↔ m.Keeps (Covers vs u) (Covers ws u))
  | [], _, _, ws, _, hrise => by
    unfold Merge.run
    split
    · refine ⟨hrise, fun u _ => ?_⟩
      simp [Merge.Keeps, covers_nil, *]
    · refine ⟨List.Pairwise.nil, fun u _ => ?_⟩
      simp [Merge.Keeps, covers_nil, *]
  | v :: vs, hvs, hrise, ws, hws, hrise' => by
    obtain ⟨hv, hvs⟩ := List.forall_mem_cons.mp hvs
    obtain ⟨hlow, hrise⟩ := List.pairwise_cons.mp hrise
    rw [Merge.run]
    exact rising_head h hv hvs hlow (fun _ => run_subset m) (rising_run m vs hvs hrise) ws hws hrise'

/-- The set operations, with members in any order and any number of times. -/
theorem rising_merge (m : Merge) {a b : Members} (ha : ∀ v ∈ a, D v) (hb : ∀ v ∈ b, D v) :
    Rising (m.run a.sortedSet b.sortedSet) ∧
      ∀ u, D u → (Covers (m.run a.sortedSet b.sortedSet) u ↔ m.Keeps (Covers a u) (Covers b u)) := by
  obtain ⟨hra, hca⟩ := rising_sortedSet h ha
  obtain ⟨hrb, hcb⟩ := rising_sortedSet h hb
  obtain ⟨hr, hc⟩ := rising_run h m a.sortedSet (fun v hv => ha v (sortedSet_subset a hv)) hra b.sortedSet
    (fun v hv => hb v (sortedSet_subset b hv)) hrb
  refine ⟨hr, fun u hu => ?_⟩
  rw [hc u hu, hca u hu, hcb u hu]

end

end Provenance.Members
