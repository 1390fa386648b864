import Mathlib.Data.List.Forall2
import Provenance.Proofs.Report.Links

/-!
# The tuples a tuple tree holds

The cells on the way from a leaf to the first column, by the links to the left,
hold the fields of the leaf's tuple. A new tuple changes nothing of that for
the tuples before it, and its own way starts with those cells of the last
tuple's way whose values equal its fields one after the other (`latest_place`);
from there on all its cells are new.
-/

namespace Provenance.TupleTree

/-- The cells on the way from the first column to a leaf, found from the leaf by the links to the left. -/
def path (t : TupleTree) (leaf : Nat) : List (Option Nat) :=
  (ascend t.columns.reverse (some leaf)).reverse

/-- The values in the cells on the way to a leaf. -/
def row (t : TupleTree) (leaf : Nat) : List (Option Value) :=
  List.zipWith (fun col cell => cell.bind fun i => col[i]?.map Cell.value) t.columns (t.path leaf)

/-- There is a value, which is the field or equals it. -/
def StandsFor (stored : Option Value) (field : Value) : Prop :=
  ∃ v, stored = some v ∧ (v = field ∨ v.equals field = true)

/-! ## Ways through the columns -/

/-- The cells `is`, one in each column, hold the values `vs`, and each is the parent of the next. -/
inductive Spells : Option Nat → List Column → List Nat → List Value → Prop
  | nil {parent : Option Nat} : Spells parent [] [] []
  | cons {parent : Option Nat} {col : Column} {cols : List Column} {i : Nat} {is : List Nat} {c : Cell} {vs : List Value}
      (cell : col[i]? = some c) (left : c.left = parent) (rest : Spells (some i) cols is vs) :
      Spells parent (col :: cols) (i :: is) (c.value :: vs)

/-- A way on which each cell is the last child of the one before, as the way of the last tuple is. -/
inductive Latest : Option Nat → Option Nat → List Column → List Nat → List Value → Prop
  | nil {parent candidate : Option Nat} : Latest parent candidate [] [] []
  | cons {parent : Option Nat} {col : Column} {cols : List Column} {i : Nat} {is : List Nat} {c : Cell} {vs : List Value}
      (cell : col[i]? = some c) (left : c.left = parent) (rest : Latest (some i) c.right.getLast? cols is vs) :
      Latest parent (some i) (col :: cols) (i :: is) (c.value :: vs)

section
variable {parent candidate : Option Nat} {cols : List Column} {is : List Nat} {vs us : List Value}

theorem Latest.spells (h : Latest parent candidate cols is vs) : Spells parent cols is vs := by
  induction h with
  | nil => exact .nil
  | cons cell left _ ih => exact .cons cell left ih

theorem Spells.length_eq (h : Spells parent cols is vs) : is.length = cols.length ∧ vs.length = cols.length := by
  induction h with
  | nil => exact ⟨rfl, rfl⟩
  | cons _ _ _ ih => exact ⟨congrArg (· + 1) ih.1, congrArg (· + 1) ih.2⟩

theorem Spells.lt_length (h : Spells parent cols is vs) : ∀ {j i : Nat} {col : Column}, is[j]? = some i →
    cols[j]? = some col → i < col.length := by
  induction h with
  | nil => intro j _ _ hi; cases hi
  | cons cell _ _ ih =>
    intro j i col hi hcol
    cases j with
    | zero =>
      cases hi
      cases hcol
      exact (List.getElem?_eq_some_iff.mp cell).1
    | succ j => exact ih hi hcol

/-- Going up from the last cell, whatever columns there are in front. -/
theorem Spells.ascend_append (h : Spells parent cols is vs) : ∀ front : List Column,
    ascend (cols.reverse ++ front) (is.getLast?.or parent) = is.reverse.map some ++ ascend front parent := by
  induction h with
  | nil => exact fun _ => rfl
  | @cons parent col cols i is c vs cell left _ ih =>
    intro front
    have hlast : (i :: is).getLast?.or parent = is.getLast?.or (some i) := by
      rw [List.getLast?_cons]
      cases is.getLast? <;> rfl
    rw [hlast, List.reverse_cons, List.append_assoc, List.singleton_append, ih, ascend, List.reverse_cons, List.map_append,
      List.append_assoc, cell, ← left]
    rfl

theorem Spells.path {t : TupleTree} {leaf : Nat} (h : Spells none t.columns is vs) (hlast : is.getLast? = some leaf) :
    t.path leaf = is.map some := by
  have hascend := h.ascend_append []
  rw [hlast, List.append_nil, ascend, List.append_nil] at hascend
  rw [TupleTree.path, ← List.reverse_reverse (is.map some), ← List.map_reverse, ← hascend]
  rfl

theorem Spells.zipWith (h : Spells parent cols is vs) :
    List.zipWith (fun (col : Column) cell => cell.bind fun i => col[i]?.map Cell.value) cols (is.map some) =
      vs.map some := by
  induction h with
  | nil => rfl
  | cons cell _ _ ih =>
    rw [List.map_cons, List.zipWith_cons_cons, ih, Option.bind_some, cell]
    rfl

theorem Spells.row {t : TupleTree} {leaf : Nat} (h : Spells none t.columns is vs) (hlast : is.getLast? = some leaf) :
    t.row leaf = vs.map some := by
  rw [TupleTree.row, h.path hlast, h.zipWith]

/-! ## A new tuple -/

/-- A way that is there stays. -/
theorem Spells.place (h : Spells parent cols is vs) : ∀ {us : List Value} (p candidate : Option Nat),
    cols.length = us.length → Spells parent (place p candidate cols us).1 is vs := by
  induction h with
  | nil =>
    intro us p candidate _
    simpa [TupleTree.place] using Spells.nil
  | @cons parent col cols i is c vs cell left _ ih =>
    intro us p candidate hlen
    cases us with
    | nil => cases hlen
    | cons u us =>
      obtain ⟨col', p', next, hgrown, hplace⟩ := exists_grown_place p candidate col cols u us
      obtain ⟨d, hd, hvalue, hleft⟩ := hgrown.keeps i c cell
      rw [hplace, ← hvalue]
      exact .cons hd (hleft.trans left) (ih (some p') next (Nat.succ.inj hlen))

/-- How many cells of the last tuple, whose stored values are `vs`, the tuple `us` shares. -/
def sharedWidth : List Value → List Value → Nat
  | v :: vs, u :: us => if !us.isEmpty && v.equals u then sharedWidth vs us + 1 else 0
  | _, _ => 0

theorem lt_sharedWidth_iff : ∀ {vs us : List Value} {c : Nat}, vs.length = us.length →
    (c < sharedWidth vs us ↔
      c + 1 < us.length ∧ ∀ j, j ≤ c → ∃ v u, vs[j]? = some v ∧ us[j]? = some u ∧ v.equals u = true)
  | [], [], c, _ => by simp [sharedWidth]
  | v :: vs, u :: us, c, hlen => by
    have ih := fun c => lt_sharedWidth_iff (c := c) (Nat.succ.inj hlen)
    rw [sharedWidth]
    split
    · rename_i hshared
      rw [Bool.and_eq_true, Bool.not_eq_true', List.isEmpty_eq_false_iff] at hshared
      have hpos := List.length_pos_of_ne_nil hshared.1
      cases c with
      | zero =>
        refine iff_of_true (Nat.succ_pos _) ⟨Nat.succ_lt_succ hpos, fun j hj => ?_⟩
        obtain rfl := Nat.le_zero.mp hj
        exact ⟨v, u, rfl, rfl, hshared.2⟩
      | succ c =>
        rw [Nat.succ_lt_succ_iff, ih c, List.length_cons, Nat.succ_lt_succ_iff]
        refine and_congr_right fun _ => ⟨fun h j hj => ?_, fun h j hj => h (j + 1) (Nat.succ_le_succ hj)⟩
        cases j with
        | zero => exact ⟨v, u, rfl, rfl, hshared.2⟩
        | succ j => exact h j (Nat.le_of_succ_le_succ hj)
    · rename_i hshared
      refine iff_of_false (Nat.not_lt_zero c) fun ⟨hc, h⟩ => hshared ?_
      obtain ⟨v', u', hv, hu, hequals⟩ := h 0 (Nat.zero_le c)
      cases hv
      cases hu
      rw [Bool.and_eq_true, Bool.not_eq_true', List.isEmpty_eq_false_iff]
      refine ⟨?_, hequals⟩
      rintro rfl
      exact absurd hc (by simp)

theorem sharedWidth_lt : ∀ {vs us : List Value}, us ≠ [] → sharedWidth vs us < us.length
  | [], _, h => by simpa [sharedWidth] using List.length_pos_of_ne_nil h
  | v :: vs, u :: us, _ => by
    rw [sharedWidth]
    split
    · rename_i hshared
      rw [Bool.and_eq_true, Bool.not_eq_true', List.isEmpty_eq_false_iff] at hshared
      exact Nat.succ_lt_succ (sharedWidth_lt hshared.1)
    · exact Nat.succ_pos _

/-- The value that is stored for each field of a new tuple. -/
def storedValues (vs us : List Value) : List Value :=
  vs.take (sharedWidth vs us) ++ us.drop (sharedWidth vs us)

/-- The cells of a new tuple: those it shares, then one behind the last of each column. -/
def newCells (cols : List Column) (is : List Nat) (k : Nat) : List Nat :=
  is.take k ++ (cols.drop k).map List.length

theorem standsFor_storedValues : ∀ {vs us : List Value}, vs.length = us.length →
    List.Forall₂ (fun v u => v = u ∨ v.equals u = true) (storedValues vs us) us
  | [], [], _ => .nil
  | v :: vs, u :: us, hlen => by
    have ih := standsFor_storedValues (Nat.succ.inj hlen)
    rw [storedValues, sharedWidth]
    split
    · rename_i hshared
      rw [Bool.and_eq_true] at hshared
      exact .cons (.inr hshared.2) ih
    · exact List.forall₂_same.mpr fun _ _ => .inl rfl

theorem Latest.pushCell {col : Column} {r : List Column × Option Nat} (h : Latest (some col.length) r.2 r.1 is vs) (u : Value) :
    Latest parent (some col.length) (pushCell col u parent r.2.toList :: r.1) (col.length :: is) (u :: vs) := by
  have hlast : r.2.toList.getLast? = r.2 := by cases r.2 <;> rfl
  exact .cons getElem?_pushCell_self rfl (hlast.symm ▸ h)

/-- The way of a tuple of which no cell is shared. -/
theorem latest_place_none : ∀ {cols : List Column} {us : List Value} (parent : Option Nat), cols.length = us.length →
    Latest parent (place parent none cols us).2 (place parent none cols us).1 (cols.map List.length) us
  | [], [], _, _ => by simpa [place] using Latest.nil
  | col :: cols, u :: us, parent, hlen => by
    rcases place_cons parent none col cols u us with ⟨_, _, h, _⟩ | ⟨-, h⟩
    · cases h
    · rw [h]
      exact (latest_place_none (some col.length) (Nat.succ.inj hlen)).pushCell u

theorem getLast?_append_toList (right : List Nat) (child : Option Nat) :
    (right ++ child.toList).getLast? = child.or right.getLast? := by
  cases child <;> simp

/-- The way of a new tuple, given that of the last one. -/
theorem latest_place : ∀ {cols : List Column} {is : List Nat} {vs us : List Value} {parent candidate : Option Nat},
    Latest parent candidate cols is vs → cols.length = us.length →
    Latest parent ((place parent candidate cols us).2.or candidate) (place parent candidate cols us).1
      (newCells cols is (sharedWidth vs us)) (storedValues vs us)
  | [], _, _, [], _, _, .nil, _ => by simpa [place, newCells, storedValues, sharedWidth] using Latest.nil
  | col :: cols, _, _, u :: us, parent, _, @Latest.cons _ _ _ i is c vs hc hleft hrest, hlen => by
    rcases place_cons parent (some i) col cols u us with ⟨j, c', hj, hne, hc', hequals, h⟩ | ⟨hnone, h⟩
    · obtain rfl := Option.some.inj hj
      rw [hc] at hc'
      cases hc'
      have hwidth : sharedWidth (c.value :: vs) (u :: us) = sharedWidth vs us + 1 := by
        rw [sharedWidth, if_pos (by simp [hne, hequals])]
      have ih := latest_place hrest (Nat.succ.inj hlen)
      have hcell : (addChild i (place (some i) c.right.getLast? cols us).2 col)[i]? =
          some { c with right := c.right ++ (place (some i) c.right.getLast? cols us).2.toList } := by
        rw [getElem?_addChild, hc, Option.map_some, if_pos rfl]
      rw [h, storedValues, newCells, hwidth]
      refine Latest.cons (c := { c with right := c.right ++ (place (some i) c.right.getLast? cols us).2.toList }) hcell hleft ?_
      rw [getLast?_append_toList]
      exact ih
    · have hwidth : sharedWidth (c.value :: vs) (u :: us) = 0 := by
        rw [sharedWidth, if_neg fun hshared => ?_]
        rw [Bool.and_eq_true, Bool.not_eq_true'] at hshared
        rw [shared?_eq_some.mpr ⟨rfl, hshared.1, c, hc, hshared.2⟩] at hnone
        cases hnone
      rw [h, storedValues, newCells, hwidth]
      exact (latest_place_none (some col.length) (Nat.succ.inj hlen)).pushCell u

/-- The ways of the last tuple and of the next one part where the next one does not share any more. -/
theorem Spells.newCells_eq_iff (h : Spells parent cols is vs) {k c : Nat} (hk : k ≤ cols.length) (hc : c < cols.length) :
    is[c]? = (newCells cols is k)[c]? ↔ c < k := by
  have htake : (is.take k).length = k := by rw [List.length_take, h.length_eq.1, Nat.min_eq_left hk]
  rw [newCells]
  rcases Nat.lt_or_ge c k with hck | hck
  · rw [List.getElem?_append_left (by rw [htake]; exact hck), List.getElem?_take_of_lt hck]
    exact iff_of_true rfl hck
  · refine iff_of_false (fun heq => ?_) (Nat.not_lt.mpr hck)
    rw [List.getElem?_append_right (by rw [htake]; exact hck), htake, List.getElem?_map, List.getElem?_drop,
      Nat.add_sub_cancel' hck, List.getElem?_eq_getElem hc] at heq
    exact Nat.lt_irrefl _ (h.lt_length heq (List.getElem?_eq_getElem hc))

end

/-! ## The tree of a list of tuples -/

theorem size_eq (cols : List Column) : size ⟨cols⟩ = (cols.getLast?.map List.length).getD 0 := by
  rw [size]
  cases cols.getLast? <;> rfl

/-- The last column has a new cell for every tuple. -/
theorem size_place : ∀ {cols : List Column} {us : List Value} (parent candidate : Option Nat), cols.length = us.length →
    cols ≠ [] → size ⟨(place parent candidate cols us).1⟩ = size ⟨cols⟩ + 1
  | [col], [u], parent, candidate, _, _ => by
    rcases place_cons parent candidate col [] u [] with ⟨_, _, _, hne, _⟩ | ⟨-, h⟩
    · exact absurd rfl hne
    · rw [h, size_eq, size_eq]
      exact length_pushCell
  | upper :: lower :: rest, u :: w :: us, parent, candidate, hlen, _ => by
    obtain ⟨upper', p, next, -, h⟩ := exists_grown_place parent candidate upper (lower :: rest) u (w :: us)
    obtain ⟨lower', p', next', -, h'⟩ := exists_grown_place (some p) next lower rest w us
    have ih := size_place (some p) next (Nat.succ.inj hlen) (List.cons_ne_nil lower rest)
    rw [size_eq, size_eq, h'] at ih
    rw [size_eq, size_eq, h, h']
    exact ih

theorem latest_place_eq {cols : List Column} {us : List Value} (hlen : cols.length = us.length) (parent candidate : Option Nat) :
    latest (place parent candidate cols us).1 = (place parent candidate cols us).2.or (latest cols) := by
  match cols, us, hlen with
  | [], [], _ => simp [place]
  | col :: cols, u :: us, _ =>
    obtain ⟨col', p, next, hgrown, h⟩ := exists_grown_place parent candidate col cols u us
    have hlength := hgrown.length_eq
    rw [h, latest, latest]
    cases hchild : (place parent candidate (col :: cols) (u :: us)).2 with
    | none =>
      rw [hchild] at hlength
      rw [hlength]
      rfl
    | some k =>
      obtain ⟨rfl, -⟩ := hgrown.added k hchild
      rw [hchild] at hlength
      rw [hlength]
      rfl

theorem getLast?_newCells {cols : List Column} {is : List Nat} {k : Nat} (hk : k < cols.length) :
    (newCells cols is k).getLast? = some (size ⟨cols⟩) := by
  have hdrop : cols.drop k ≠ [] := fun h => Nat.not_le.mpr hk (List.drop_eq_nil_iff.mp h)
  have hcols : cols ≠ [] := fun h => by simp [h] at hk
  rw [newCells, List.getLast?_append_of_ne_nil _ (by simpa using hk), List.getLast?_map, List.getLast?_drop,
    if_neg (Nat.not_le.mpr hk), size_eq, List.getLast?_eq_some_getLast hcols]
  rfl

/-- The columns hold the tuples: each leaf's way tells its tuple, and two ways that follow one another share what the
second tuple shares. -/
structure Holds (cols : List Column) (tuples : List (List Value)) : Prop where
  wired : Wired cols
  rooted : ∀ col, cols.head? = some col → ∀ c ∈ col, c.left = none
  size_eq : size ⟨cols⟩ = tuples.length
  spells : ∀ (i : Nat) (us : List Value), tuples[i]? = some us → ∃ is vs, Spells none cols is vs ∧ is.getLast? = some i ∧
    List.Forall₂ (fun v u => v = u ∨ v.equals u = true) vs us
  parts : ∀ (i : Nat) (us : List Value), tuples[i + 1]? = some us → ∃ is vs js ws, Spells none cols is vs ∧
    is.getLast? = some i ∧ Spells none cols js ws ∧ js.getLast? = some (i + 1) ∧
    ∀ c, c < cols.length → (is[c]? = js[c]? ↔ c < sharedWidth vs us)
  empty : tuples = [] → latest cols = none
  last : ∀ i, tuples.length = i + 1 → ∃ is vs, Latest none (latest cols) cols is vs ∧ is.getLast? = some i

theorem wired_replicate : ∀ w : Nat, Wired (List.replicate w [])
  | 0 => .nil
  | 1 => .leaves (by simp [Chained]) (by simp)
  | w + 2 => .cons (by simp [Chained]) ⟨by simp, by simp, by simp⟩ (wired_replicate (w + 1))

theorem holds_replicate (w : Nat) : Holds (List.replicate w []) [] where
  wired := wired_replicate w
  rooted col h := by
    cases w with
    | zero => cases h
    | succ w =>
      cases h
      exact fun _ h => by cases h
  size_eq := by
    rw [TupleTree.size_eq, List.getLast?_replicate]
    split <;> rfl
  spells _ _ h := by cases h
  parts _ _ h := by cases h
  empty _ := by cases w <;> rfl
  last _ h := by cases h

section
variable {cols : List Column} {tuples : List (List Value)} {us : List Value} (h : Holds cols tuples)
  (hlen : cols.length = us.length) (hne : us ≠ [])
include h hlen hne

/-- The way of the new tuple, and how far it goes with that of the one before. -/
theorem Holds.exists_latest : ∃ js ws, Latest none (latest (insert cols us)) (insert cols us) js ws ∧
    js.getLast? = some tuples.length ∧ List.Forall₂ (fun v u => v = u ∨ v.equals u = true) ws us ∧
    ∀ i, tuples.length = i + 1 → ∃ is vs, Spells none cols is vs ∧ is.getLast? = some i ∧
      ∀ c, c < cols.length → (is[c]? = js[c]? ↔ c < sharedWidth vs us) := by
  have hlatest := latest_place_eq hlen none (latest cols)
  cases htuples : tuples with
  | nil =>
    have hnone := h.empty htuples
    have hpos : 0 < cols.length := hlen ▸ List.length_pos_of_ne_nil hne
    have hlast : (cols.map List.length).getLast? = some tuples.length := by
      have hcells : (newCells cols [] 0).getLast? = some (size ⟨cols⟩) := getLast?_newCells hpos
      rw [← h.size_eq, ← hcells]
      rfl
    refine ⟨cols.map List.length, us, ?_, htuples ▸ hlast, List.forall₂_same.mpr fun _ _ => .inl rfl, fun i hi => by cases hi⟩
    rw [insert, hlatest, hnone, Option.or_none]
    exact latest_place_none none hlen
  | cons t ts =>
    obtain ⟨is, vs, hway, hlast⟩ := h.last ts.length (by rw [htuples]; rfl)
    have hspells := hway.spells
    have hwidth : sharedWidth vs us < cols.length := hlen ▸ sharedWidth_lt hne
    refine ⟨newCells cols is (sharedWidth vs us), storedValues vs us, ?_, ?_,
      standsFor_storedValues (hspells.length_eq.2.trans hlen), fun i hi => ⟨is, vs, hspells, ?_, ?_⟩⟩
    · rw [insert, hlatest]
      exact latest_place hway hlen
    · rw [getLast?_newCells hwidth, h.size_eq, htuples]
    · rw [hlast, Nat.succ.inj hi]
    · exact fun c hc => hspells.newCells_eq_iff (Nat.le_of_lt hwidth) hc

theorem Holds.rooted_insert : ∀ col, (TupleTree.insert cols us).head? = some col → ∀ c ∈ col, c.left = none := by
  obtain ⟨u, us, rfl⟩ := List.exists_cons_of_ne_nil hne
  obtain ⟨col, cols, rfl⟩ := List.exists_cons_of_length_eq_add_one hlen
  obtain ⟨col', p, next, hgrown, hplace⟩ := exists_grown_place none (latest (col :: cols)) col cols u us
  intro col'' hcol'' c hc
  rw [TupleTree.insert, hplace] at hcol''
  cases hcol''
  obtain ⟨k, hk⟩ := List.getElem?_of_mem hc
  rcases hgrown.cases hk with ⟨c', hc', hleft⟩ | ⟨-, hleft⟩
  · exact hleft.trans (h.rooted col rfl c' (List.mem_of_getElem? hc'))
  · exact hleft

omit h hlen hne in
theorem eq_of_getElem?_append {i : Nat} {u : List Value} (hge : tuples.length ≤ i) (hi : (tuples ++ [us])[i]? = some u) :
    tuples.length = i ∧ us = u := by
  rw [List.getElem?_append_right hge, List.getElem?_singleton] at hi
  split at hi
  · exact ⟨by omega, Option.some.inj hi⟩
  · cases hi

theorem Holds.insert : Holds (insert cols us) (tuples ++ [us]) := by
  obtain ⟨js, ws, hway, hlast, hstands, hparts⟩ := h.exists_latest hlen hne
  have hkeeps : ∀ {is vs}, Spells none cols is vs → Spells none (TupleTree.insert cols us) is vs := fun hs =>
    hs.place none (latest cols) hlen
  have hlength : (TupleTree.insert cols us).length = cols.length := length_place _ _ _ _
  have hcols : cols ≠ [] := fun hnil => hne (List.eq_nil_of_length_eq_zero (hlen.symm.trans (congrArg List.length hnil)))
  refine ⟨wired_place none (latest cols) hlen h.wired, h.rooted_insert hlen hne, ?_, fun i u hi => ?_, fun i u hi => ?_,
    fun hnil => absurd hnil (by simp), fun i hi => ⟨js, ws, hway, ?_⟩⟩
  · rw [TupleTree.insert, size_place none (latest cols) hlen hcols, h.size_eq, List.length_append]
    rfl
  · rcases Nat.lt_or_ge i tuples.length with hlt | hge
    · rw [List.getElem?_append_left hlt] at hi
      obtain ⟨is, vs, hs, hrest⟩ := h.spells i u hi
      exact ⟨is, vs, hkeeps hs, hrest⟩
    · obtain ⟨rfl, rfl⟩ := eq_of_getElem?_append hge hi
      exact ⟨js, ws, hway.spells, hlast, hstands⟩
  · rw [hlength]
    rcases Nat.lt_or_ge (i + 1) tuples.length with hlt | hge
    · rw [List.getElem?_append_left hlt] at hi
      obtain ⟨is, vs, js', ws', hs, hi', hs', hrest⟩ := h.parts i u hi
      exact ⟨is, vs, js', ws', hkeeps hs, hi', hkeeps hs', hrest⟩
    · obtain ⟨hlength', rfl⟩ := eq_of_getElem?_append hge hi
      obtain ⟨is, vs, hs, hi', hshares⟩ := hparts i hlength'
      exact ⟨is, vs, js, ws, hkeeps hs, hi', hway.spells, hlength' ▸ hlast, hshares⟩
  · rw [hlast]
    rw [List.length_append] at hi
    exact congrArg some (Nat.succ.inj hi)

end

theorem Holds.foldl : ∀ {later : List (List Value)} {cols : List Column} {tuples : List (List Value)}, Holds cols tuples →
    cols ≠ [] → (∀ us ∈ later, us.length = cols.length) →
    Holds (later.foldl TupleTree.insert cols) (tuples ++ later) ∧ (later.foldl TupleTree.insert cols).length = cols.length
  | [], _, tuples, h, _, _ => ⟨(List.append_nil tuples).symm ▸ h, rfl⟩
  | us :: later, cols, tuples, h, hcols, hlater => by
    obtain ⟨hus, hlater⟩ := List.forall_mem_cons.mp hlater
    have hlength : (TupleTree.insert cols us).length = cols.length := length_place _ _ _ _
    have hne : us ≠ [] := List.ne_nil_of_length_pos (hus ▸ List.length_pos_of_ne_nil hcols)
    have hlater : ∀ vs ∈ later, vs.length = (TupleTree.insert cols us).length := hlength ▸ hlater
    have ih := Holds.foldl (h.insert hus.symm hne)
      (List.ne_nil_of_length_pos (hlength ▸ List.length_pos_of_ne_nil hcols)) hlater
    rw [List.append_assoc, hlength] at ih
    exact ih

theorem holds_of_ofTuples? {tuples : List (List Value)} {tree : TupleTree} (h : ofTuples? tuples = some tree) :
    Holds tree.columns tuples ∧ ∀ us ∈ tuples, us.length = tree.columns.length := by
  cases tuples with
  | nil =>
    cases h
    exact ⟨holds_replicate 0, fun us hus => absurd hus List.not_mem_nil⟩
  | cons first rest =>
    rw [ofTuples?] at h
    split at h
    · cases h
    · rename_i hwidth
      obtain ⟨hne, hrest⟩ : first ≠ [] ∧ ∀ us ∈ rest, us.length = first.length := by simpa using hwidth
      have hcols : List.replicate first.length ([] : Column) ≠ [] :=
        List.ne_nil_of_length_pos (by simpa using List.length_pos_of_ne_nil hne)
      have hall : ∀ us ∈ first :: rest, us.length = first.length := List.forall_mem_cons.mpr ⟨rfl, hrest⟩
      have hfits : ∀ us ∈ first :: rest, us.length = (List.replicate first.length ([] : Column)).length := by simpa using hall
      obtain ⟨hholds, hlength⟩ := (holds_replicate first.length).foldl hcols hfits
      cases h
      exact ⟨hholds, fun us hus => (hall us hus).trans (hlength.trans List.length_replicate).symm⟩

/-- There is a tree exactly for tuples of the width of the first, if that has a field at all. -/
theorem ofTuples?_eq_none_iff {tuples : List (List Value)} : ofTuples? tuples = none ↔
    ∃ us ∈ tuples, us = [] ∨ ∃ first, tuples.head? = some first ∧ us.length ≠ first.length := by
  cases tuples with
  | nil => exact iff_of_false (Option.some_ne_none _) fun ⟨us, hus, _⟩ => List.not_mem_nil hus
  | cons first rest =>
    rw [ofTuples?]
    split
    · rename_i hwidth
      refine iff_of_true rfl ?_
      rcases Bool.or_eq_true_iff.mp hwidth with hempty | hother
      · exact ⟨first, List.mem_cons_self, .inl (List.isEmpty_iff.mp hempty)⟩
      · obtain ⟨us, hus, hne⟩ := List.any_eq_true.mp hother
        exact ⟨us, List.mem_cons_of_mem _ hus, .inr ⟨first, rfl, bne_iff_ne.mp hne⟩⟩
    · rename_i hwidth
      obtain ⟨hne, hrest⟩ : first ≠ [] ∧ ∀ us ∈ rest, us.length = first.length := by simpa using hwidth
      refine iff_of_false (Option.some_ne_none _) ?_
      rintro ⟨us, hus, hbad⟩
      have hlength : us.length = first.length := by
        rcases List.mem_cons.mp hus with rfl | hus
        · rfl
        · exact hrest us hus
      rcases hbad with rfl | ⟨first', hfirst, hne'⟩
      · exact hne (List.eq_nil_of_length_eq_zero hlength.symm)
      · cases hfirst
        exact hne' hlength

theorem columns_ne_nil {tuples : List (List Value)} {tree : TupleTree} (h : ofTuples? tuples = some tree) (hne : tuples ≠ []) :
    tree.columns ≠ [] := by
  obtain ⟨first, rest, rfl⟩ := List.exists_cons_of_ne_nil hne
  intro hnil
  have hwidth := (holds_of_ofTuples? h).2 first List.mem_cons_self
  rw [hnil] at hwidth
  have hnone : ofTuples? (first :: rest) = none :=
    ofTuples?_eq_none_iff.mpr ⟨first, List.mem_cons_self, .inl (List.eq_nil_of_length_eq_zero hwidth)⟩
  rw [h] at hnone
  cases hnone

/-- A list of tuples has a tree unless one of them is empty or of another width than the first. The tree has a leaf for
every tuple. On the way to a leaf there stand the fields of its tuple, or what equals them. Neighbours, parents and
children are linked as they should be. Two tuples that follow one another have the same cell in a column exactly if
the column is not the last and the fields of the second up to there equal what the first has in its cells. -/
theorem ofTuples?_lossless (tuples : List (List Value)) :
    (ofTuples? tuples = none ↔
        ∃ us ∈ tuples, us = [] ∨ ∃ first, tuples.head? = some first ∧ us.length ≠ first.length) ∧
      ∀ tree, ofTuples? tuples = some tree →
        tree.size = tuples.length ∧
        (∀ (i : Nat) (us : List Value), tuples[i]? = some us → List.Forall₂ StandsFor (tree.row i) us) ∧
        Wired tree.columns ∧ (∀ col, tree.columns.head? = some col → ∀ c ∈ col, c.left = none) ∧
        ∀ (i c : Nat) (us : List Value), tuples[i + 1]? = some us → c < tree.columns.length →
          ((tree.path i)[c]? = (tree.path (i + 1))[c]? ↔ c + 1 < tree.columns.length ∧
            ∀ j, j ≤ c → ∃ v u, (tree.row i)[j]? = some (some v) ∧ us[j]? = some u ∧ v.equals u = true) := by
  refine ⟨ofTuples?_eq_none_iff, fun tree htree => ?_⟩
  obtain ⟨h, hwidth⟩ := holds_of_ofTuples? htree
  refine ⟨h.size_eq, fun i us hi => ?_, h.wired, h.rooted, fun i c us hi hc => ?_⟩
  · obtain ⟨is, vs, hs, hlast, hstands⟩ := h.spells i us hi
    rw [hs.row hlast, List.forall₂_map_left_iff]
    exact hstands.imp fun v u hvu => ⟨v, rfl, hvu⟩
  · obtain ⟨is, vs, js, ws, hs, hlast, hs', hlast', hshares⟩ := h.parts i us hi
    have hlength := hwidth us (List.mem_of_getElem? hi)
    have hsame : (is.map some)[c]? = (js.map some)[c]? ↔ is[c]? = js[c]? := by
      rw [List.getElem?_map, List.getElem?_map]
      exact (Option.map_injective fun _ _ => Option.some.inj).eq_iff
    rw [hs.path hlast, hs'.path hlast', hs.row hlast, hsame, hshares c hc,
      lt_sharedWidth_iff (hs.length_eq.2.trans hlength.symm), hlength]
    simp

/-- The second tuple shares two cells with the first, and the third has the same fields as the second from its second
field on, but shares none. -/
theorem ofTuples?_lossless_apart :
    let tuples : List (List Value) := [[.int 1, .int 2, .int 3], [.int 1, .int 2, .int 4], [.int 10, .int 2, .int 4]]
    ∃ tree, ofTuples? tuples = some tree ∧ tree.size = 3 ∧ tree.path 1 = [some 0, some 0, some 1] ∧
      tree.path 2 = [some 1, some 1, some 2] ∧ List.Forall₂ StandsFor (tree.row 2) [.int 10, .int 2, .int 4] ∧
      Wired tree.columns := by
  intro tuples
  obtain ⟨hsize, hrow, hwired, -, -⟩ := (ofTuples?_lossless tuples).2 _ rfl
  exact ⟨_, rfl, hsize, rfl, rfl, hrow 2 _ rfl, hwired⟩

end Provenance.TupleTree
