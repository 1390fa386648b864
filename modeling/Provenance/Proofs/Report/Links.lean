import Mathlib.Data.List.Basic
import Provenance.Report.TupleTree

/-!
# The links of a tuple tree

A new tuple leaves the cells that are there in their places, with their values
and parents, and adds at most one cell to a column (`Grown`). So the links stay
right (`Wired`): the neighbours of a cell are the ones before and behind it in
its column, and its children are the cells of the next column that name it as
their parent, which each of them does with one.
-/

namespace Provenance.TupleTree

/-! ## One column -/

/-- Every cell knows its place and its neighbours. -/
def Chained (col : Column) : Prop :=
  ∀ (i : Nat) (c : Cell), col[i]? = some c → c.index = i ∧ c.down = (if i = 0 then none else some (i - 1)) ∧
    c.up = (if i + 1 < col.length then some (i + 1) else none)

/-- The column after the one that `upper` is: each of its cells has one parent in `upper`, and each
cell of `upper` lists those it is the parent of, once each. -/
structure Branches (upper lower : Column) : Prop where
  parent : ∀ (k : Nat) (d : Cell), lower[k]? = some d → ∃ p, d.left = some p ∧ p < upper.length
  mem_right_iff : ∀ (p : Nat) (c : Cell), upper[p]? = some c →
    ∀ k, k ∈ c.right ↔ ∃ d : Cell, lower[k]? = some d ∧ d.left = some p
  rising : ∀ (p : Nat) (c : Cell), upper[p]? = some c → c.right.Pairwise (· < ·)

/-- What becomes of a column when cells are put under `parent`: the cells that are there keep their
values and parents, and if there is a new one, it comes last. -/
structure Grown (parent child : Option Nat) (col col' : Column) : Prop where
  keeps : ∀ (i : Nat) (c : Cell), col[i]? = some c → ∃ d : Cell, col'[i]? = some d ∧ d.value = c.value ∧ d.left = c.left
  length_eq : col'.length = col.length + child.toList.length
  added : ∀ k, child = some k → k = col.length ∧ ∃ d : Cell, col'[k]? = some d ∧ d.left = parent

section
variable {col : Column} {v : Value} {left child : Option Nat} {right : List Nat} {i : Nat}

theorem length_linkUp : ∀ col : Column, (linkUp col).length = col.length
  | [] => rfl
  | [_] => rfl
  | _ :: c :: rest => congrArg (· + 1) (length_linkUp (c :: rest))

theorem getElem?_linkUp : ∀ (col : Column) (i : Nat),
    (linkUp col)[i]? = col[i]?.map fun c => if i + 1 = col.length then { c with up := some (c.index + 1) } else c
  | [], _ => rfl
  | [_], 0 => rfl
  | [_], _ + 1 => rfl
  | _ :: _ :: _, 0 => by simp [linkUp]
  | _ :: c :: rest, i + 1 => by
    refine (getElem?_linkUp (c :: rest) i).trans ?_
    simp only [List.getElem?_cons_succ, List.length_cons, Nat.succ_inj]

@[simp] theorem length_pushCell : (pushCell col v left right).length = col.length + 1 := by
  simp [pushCell, length_linkUp]

theorem getElem?_pushCell_self : (pushCell col v left right)[col.length]? =
    some ⟨v, if col.length = 0 then none else some (col.length - 1), none, left, right, col.length⟩ := by
  rw [pushCell, List.getElem?_append_right (Nat.le_of_eq (length_linkUp col)), length_linkUp, Nat.sub_self]
  rfl

theorem getElem?_pushCell (h : i < col.length) : (pushCell col v left right)[i]? =
    col[i]?.map fun c => if i + 1 = col.length then { c with up := some (c.index + 1) } else c := by
  rw [pushCell, List.getElem?_append_left (by rw [length_linkUp]; exact h), getElem?_linkUp]

@[simp] theorem length_addChild : (addChild i child col).length = col.length := by
  cases child with
  | none => rfl
  | some k => exact List.length_modify _ _ _

theorem getElem?_addChild (j : Nat) : (addChild i child col)[j]? =
    col[j]?.map fun c => if i = j then { c with right := c.right ++ child.toList } else c := by
  cases child with
  | none =>
    cases hc : col[j]? <;> simp [addChild, hc]
  | some k =>
    rw [addChild, List.getElem?_modify]
    rfl

theorem grown_pushCell : Grown left (some col.length) col (pushCell col v left right) where
  keeps i c h := by
    obtain ⟨hi, -⟩ := List.getElem?_eq_some_iff.mp h
    rw [getElem?_pushCell hi, h]
    refine ⟨_, rfl, ?_⟩
    dsimp only
    split <;> exact ⟨rfl, rfl⟩
  length_eq := length_pushCell
  added k h := by
    obtain rfl := Option.some.inj h
    exact ⟨rfl, _, getElem?_pushCell_self, rfl⟩

theorem grown_addChild (parent : Option Nat) : Grown parent none col (addChild i child col) where
  keeps j c h := by
    rw [getElem?_addChild, h]
    refine ⟨_, rfl, ?_⟩
    dsimp only
    split <;> exact ⟨rfl, rfl⟩
  length_eq := length_addChild
  added k h := by cases h

theorem chained_pushCell (h : Chained col) : Chained (pushCell col v left right) := by
  intro i c hc
  have hlen := (List.getElem?_eq_some_iff.mp hc).1
  rw [length_pushCell] at hlen ⊢
  rcases Nat.lt_or_eq_of_le (Nat.le_of_lt_succ hlen) with hi | rfl
  · obtain ⟨c', hc', rfl⟩ := Option.map_eq_some_iff.mp ((getElem?_pushCell hi).symm.trans hc)
    obtain ⟨hindex, hdown, hup⟩ := h i c' hc'
    split
    · exact ⟨hindex, hdown, by rw [if_pos (by omega), hindex]⟩
    · exact ⟨hindex, hdown, by rw [hup, if_pos (by omega), if_pos (by omega)]⟩
  · rw [getElem?_pushCell_self] at hc
    cases hc
    exact ⟨rfl, rfl, (if_neg (Nat.lt_irrefl _)).symm⟩

theorem chained_addChild (h : Chained col) : Chained (addChild i child col) := by
  intro j c hc
  obtain ⟨c', hc', rfl⟩ := Option.map_eq_some_iff.mp ((getElem?_addChild j).symm.trans hc)
  obtain ⟨hindex, hdown, hup⟩ := h j c' hc'
  rw [length_addChild]
  split <;> exact ⟨hindex, hdown, hup⟩

end

/-! ## Two columns -/

section
variable {upper lower lower' : Column} {v : Value} {left child : Option Nat} {i : Nat}

/-- A cell of the grown column was there before or is the new one. -/
theorem Grown.cases {parent : Option Nat} (h : Grown parent child lower lower') {k : Nat} {d : Cell}
    (hd : lower'[k]? = some d) :
    (∃ c : Cell, lower[k]? = some c ∧ d.left = c.left) ∨ child = some k ∧ d.left = parent := by
  rcases Nat.lt_or_ge k lower.length with hk | hk
  · obtain ⟨d', hd', -, hleft⟩ := h.keeps k _ (List.getElem?_eq_getElem hk)
    rw [hd] at hd'
    cases hd'
    exact .inl ⟨_, List.getElem?_eq_getElem hk, hleft⟩
  · have hlt := (List.getElem?_eq_some_iff.mp hd).1
    rw [h.length_eq] at hlt
    cases child with
    | none => exact absurd hlt (Nat.not_lt.mpr hk)
    | some j =>
      obtain ⟨rfl, d', hd', hleft⟩ := h.added j rfl
      obtain rfl : k = lower.length := Nat.le_antisymm (Nat.le_of_lt_succ hlt) hk
      rw [hd] at hd'
      cases hd'
      exact .inr ⟨rfl, hleft⟩

theorem Grown.exists_left_iff {parent : Option Nat} (h : Grown parent child lower lower') (k p : Nat) :
    (∃ d : Cell, lower'[k]? = some d ∧ d.left = some p) ↔
      (∃ d : Cell, lower[k]? = some d ∧ d.left = some p) ∨ child = some k ∧ parent = some p := by
  constructor
  · rintro ⟨d, hd, hleft⟩
    rcases h.cases hd with ⟨c, hc, hkept⟩ | ⟨hchild, hparent⟩
    · exact .inl ⟨c, hc, hkept.symm.trans hleft⟩
    · exact .inr ⟨hchild, hparent.symm.trans hleft⟩
  · rintro (⟨c, hc, hleft⟩ | ⟨rfl, rfl⟩)
    · obtain ⟨d, hd, -, hkept⟩ := h.keeps k c hc
      exact ⟨d, hd, hkept.trans hleft⟩
    · exact (h.added k rfl).2

theorem Branches.lt_of_mem_right (h : Branches upper lower) {p k : Nat} {c : Cell} (hc : upper[p]? = some c)
    (hk : k ∈ c.right) : k < lower.length := by
  obtain ⟨d, hd, -⟩ := (h.mem_right_iff p c hc k).mp hk
  exact (List.getElem?_eq_some_iff.mp hd).1

theorem Branches.parent_grown (h : Branches upper lower) (hgrown : Grown (some i) child lower lower') {n : Nat}
    (hn : upper.length ≤ n) (hi : i < n) {k : Nat} {d : Cell} (hd : lower'[k]? = some d) :
    ∃ p, d.left = some p ∧ p < n := by
  rcases hgrown.cases hd with ⟨c, hc, hleft⟩ | ⟨-, hleft⟩
  · obtain ⟨p, hp, hlt⟩ := h.parent k c hc
    exact ⟨p, hleft.trans hp, Nat.lt_of_lt_of_le hlt hn⟩
  · exact ⟨i, hleft, hi⟩

theorem branches_addChild (h : Branches upper lower) (hgrown : Grown (some i) child lower lower')
    (hi : i < upper.length) : Branches (addChild i child upper) lower' where
  parent k d hd := by
    rw [length_addChild]
    exact h.parent_grown hgrown (Nat.le_refl _) hi hd
  mem_right_iff p c hc k := by
    obtain ⟨c', hc', rfl⟩ := Option.map_eq_some_iff.mp ((getElem?_addChild p).symm.trans hc)
    rw [hgrown.exists_left_iff, ← h.mem_right_iff p c' hc' k]
    split
    · simp_all
    · simp_all
  rising p c hc := by
    obtain ⟨c', hc', rfl⟩ := Option.map_eq_some_iff.mp ((getElem?_addChild p).symm.trans hc)
    have hrising := h.rising p c' hc'
    split
    · refine List.pairwise_append.mpr ⟨hrising, ?_, fun j hj k hk => ?_⟩
      · cases child <;> simp
      · obtain ⟨rfl, -⟩ := hgrown.added k (Option.mem_toList.mp hk)
        exact h.lt_of_mem_right hc' hj
    · exact hrising

theorem branches_pushCell (h : Branches upper lower) (hgrown : Grown (some upper.length) child lower lower') :
    Branches (pushCell upper v left child.toList) lower' where
  parent k d hd := by
    rw [length_pushCell]
    exact h.parent_grown hgrown (Nat.le_succ _) (Nat.lt_succ_self _) hd
  mem_right_iff p c hc k := by
    have hlen := (List.getElem?_eq_some_iff.mp hc).1
    rw [length_pushCell] at hlen
    rw [hgrown.exists_left_iff]
    rcases Nat.lt_or_eq_of_le (Nat.le_of_lt_succ hlen) with hp | rfl
    · obtain ⟨c', hc', rfl⟩ := Option.map_eq_some_iff.mp ((getElem?_pushCell hp).symm.trans hc)
      rw [← h.mem_right_iff p c' hc' k]
      have hne : upper.length ≠ p := Nat.ne_of_gt hp
      split <;> simp [hne]
    · rw [getElem?_pushCell_self] at hc
      cases hc
      refine ⟨fun hk => .inr ⟨Option.mem_toList.mp hk, rfl⟩, ?_⟩
      rintro (⟨d, hd, hleft⟩ | ⟨rfl, -⟩)
      · obtain ⟨p, hp, hlt⟩ := h.parent k d hd
        rw [hleft] at hp
        cases hp
        exact absurd hlt (Nat.lt_irrefl _)
      · exact List.mem_singleton_self k
  rising p c hc := by
    have hlen := (List.getElem?_eq_some_iff.mp hc).1
    rw [length_pushCell] at hlen
    rcases Nat.lt_or_eq_of_le (Nat.le_of_lt_succ hlen) with hp | rfl
    · obtain ⟨c', hc', rfl⟩ := Option.map_eq_some_iff.mp ((getElem?_pushCell hp).symm.trans hc)
      split <;> exact h.rising p c' hc'
    · rw [getElem?_pushCell_self] at hc
      cases hc
      cases child <;> simp

end

/-! ## All columns -/

/-- The links of the columns from some column on. -/
inductive Wired : List Column → Prop
  | nil : Wired []
  | leaves {col : Column} (chained : Chained col) (childless : ∀ c ∈ col, c.right = []) : Wired [col]
  | cons {upper lower : Column} {rest : List Column} (chained : Chained upper) (branches : Branches upper lower)
      (wired : Wired (lower :: rest)) : Wired (upper :: lower :: rest)

theorem shared?_eq_some {col : Column} {candidate : Option Nat} {v : Value} {last : Bool} {i : Nat} :
    shared? col candidate v last = some i ↔
      candidate = some i ∧ last = false ∧ ∃ c : Cell, col[i]? = some c ∧ c.value.equals v = true := by
  cases candidate with
  | none => simp [shared?]
  | some j =>
    cases hc : col[j]? <;> simp [shared?] <;> grind

section
variable {parent candidate : Option Nat} {col : Column} {cols : List Column} {v : Value} {vs : List Value}

/-- What is done in one column: either a cell is shared, which only a tuple that goes on behind it can, or there
is a new one. -/
theorem place_cons (parent candidate : Option Nat) (col : Column) (cols : List Column) (v : Value) (vs : List Value) :
    (∃ i, ∃ c : Cell, candidate = some i ∧ vs ≠ [] ∧ col[i]? = some c ∧ c.value.equals v = true ∧
        place parent candidate (col :: cols) (v :: vs) =
          (addChild i (place (some i) c.right.getLast? cols vs).2 col :: (place (some i) c.right.getLast? cols vs).1, none)) ∨
      shared? col candidate v vs.isEmpty = none ∧
        place parent candidate (col :: cols) (v :: vs) =
          (pushCell col v parent (place (some col.length) none cols vs).2.toList :: (place (some col.length) none cols vs).1,
            some col.length) := by
  cases hs : shared? col candidate v vs.isEmpty with
  | none => exact .inr ⟨rfl, by rw [place, hs]⟩
  | some i =>
    obtain ⟨hcandidate, hlast, c, hc, hequals⟩ := shared?_eq_some.mp hs
    exact .inl ⟨i, c, hcandidate, List.isEmpty_eq_false_iff.mp hlast, hc, hequals, by rw [place, hs]; simp only [hc]⟩

/-- The columns behind the first do not depend on it, but on the cell that is their parent. -/
theorem exists_grown_place (parent candidate : Option Nat) (col : Column) (cols : List Column) (v : Value)
    (vs : List Value) : ∃ col' p next, Grown parent (place parent candidate (col :: cols) (v :: vs)).2 col col' ∧
      (place parent candidate (col :: cols) (v :: vs)).1 = col' :: (place (some p) next cols vs).1 := by
  rcases place_cons parent candidate col cols v vs with ⟨i, c, -, -, -, -, h⟩ | ⟨-, h⟩
  · rw [h]
    exact ⟨_, _, _, grown_addChild parent, rfl⟩
  · rw [h]
    exact ⟨_, _, _, grown_pushCell, rfl⟩

theorem length_place : ∀ (parent candidate : Option Nat) (cols : List Column) (vs : List Value),
    (place parent candidate cols vs).1.length = cols.length
  | _, _, [], _ => by simp [place]
  | _, _, _ :: _, [] => by simp [place]
  | parent, candidate, col :: cols, v :: vs => by
    obtain ⟨col', p, next, -, h⟩ := exists_grown_place parent candidate col cols v vs
    rw [h, List.length_cons, List.length_cons, length_place]

theorem wired_place : ∀ {cols : List Column} {vs : List Value} (parent candidate : Option Nat),
    cols.length = vs.length → Wired cols → Wired (place parent candidate cols vs).1
  | [], _, _, _, _, h => by simpa [place] using h
  | [col], [v], parent, candidate, _, .leaves hchained hchildless => by
    rcases place_cons parent candidate col [] v [] with ⟨_, _, _, hne, _⟩ | ⟨-, h⟩
    · exact absurd rfl hne
    · rw [h]
      refine .leaves (chained_pushCell hchained) fun c hc => ?_
      obtain ⟨i, hi⟩ := List.getElem?_of_mem hc
      have hlen := (List.getElem?_eq_some_iff.mp hi).1
      rw [length_pushCell] at hlen
      rcases Nat.lt_or_eq_of_le (Nat.le_of_lt_succ hlen) with hlt | rfl
      · obtain ⟨c', hc', rfl⟩ := Option.map_eq_some_iff.mp ((getElem?_pushCell hlt).symm.trans hi)
        have := hchildless c' (List.mem_of_getElem? hc')
        split <;> exact this
      · rw [getElem?_pushCell_self] at hi
        cases hi
        rfl
  | upper :: lower :: rest, v :: w :: vs, parent, candidate, hlen, .cons hchained hbranches hwired => by
    rcases place_cons parent candidate upper (lower :: rest) v (w :: vs) with ⟨i, c, -, -, hc, -, h⟩ | ⟨-, h⟩
    · obtain ⟨lower', p, next, hgrown, hplace⟩ := exists_grown_place (some i) c.right.getLast? lower rest w vs
      have ih := wired_place (some i) c.right.getLast? (Nat.succ.inj hlen) hwired
      rw [h]
      rw [hplace] at ih ⊢
      exact .cons (chained_addChild hchained)
        (branches_addChild hbranches hgrown (List.getElem?_eq_some_iff.mp hc).1) ih
    · obtain ⟨lower', p, next, hgrown, hplace⟩ := exists_grown_place (some upper.length) none lower rest w vs
      have ih := wired_place (some upper.length) none (Nat.succ.inj hlen) hwired
      rw [h]
      rw [hplace] at ih ⊢
      exact .cons (chained_pushCell hchained) (branches_pushCell hbranches hgrown) ih

end

end Provenance.TupleTree
