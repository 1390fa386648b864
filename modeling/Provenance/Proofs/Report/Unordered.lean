import Provenance.Proofs.Value.SetOperations
import Provenance.Report.Answer

/-!
# Written lists do not tell the order of their members

Values without floating point numbers that are equal have the same text, since a
closure is written by its identity alone. A tuple tree depends on its tuples
through the texts and the equality of their fields. So an answer that is a list is
written in one way, after its first line, in whatever order and however often its
members are in it (`render_unordered`).
-/

namespace Provenance

namespace Value

/-- Two equal values that are uniform and without floating point numbers. -/
structure Twin (v w : Value) : Prop where
  left : Discrete v
  right : Discrete w
  equals : v.equals w = true

theorem Twin.compare {v w : Value} (h : Twin v w) : v.compare w = .eq :=
  (equals_iff_compare h.left h.right).mp h.equals

theorem Twin.equals_eq {v w v' w' : Value} (h : Twin v w) (h' : Twin v' w') : v.equals v' = w.equals w' := by
  rw [Bool.eq_iff_iff, equals_iff_compare h.left h'.left, equals_iff_compare h.right h'.right,
    ordered_discrete.congr_left h.left h.right h'.left h.compare,
    ordered_discrete.congr_right h.right h'.left h'.right h'.compare]

theorem Twin.of_equalAll : ∀ {xs ys : List Value}, (∀ x ∈ xs, Discrete x) → (∀ y ∈ ys, Discrete y) →
    equalAll xs ys = true → List.Forall₂ Twin xs ys
  | [], [], _, _, _ => .nil
  | [], _ :: _, _, _, h => by cases h
  | _ :: _, [], _, _, h => by cases h
  | x :: xs, y :: ys, hx, hy, h => by
    rw [List.forall_mem_cons] at hx hy
    rw [equalAll, Bool.and_eq_true] at h
    exact .cons ⟨hx.1, hy.1, h.1⟩ (of_equalAll hx.2 hy.2 h.2)

mutual

theorem text_of_equals : ∀ {v w : Value}, v.isFloatFree = true → w.isFloatFree = true → v.equals w = true → v.text = w.text
  | int i, w, _, hw, h => by
    cases w with
    | int j => rw [eq_of_beq h]
    | float x => exact absurd hw isFloatFree_float
    | _ => cases h
  | float _, _, hv, _, _ => absurd hv isFloatFree_float
  | str s, w, _, _, h => by
    cases w with
    | str t => rw [eq_of_beq h]
    | _ => cases h
  | object p, w, _, _, h => by
    cases w with
    | object q => rw [eq_of_beq h]
    | _ => cases h
  | range a b, w, _, _, h => by
    cases w with
    | range c d =>
      rw [equals, Bool.and_eq_true] at h
      rw [eq_of_beq h.1, eq_of_beq h.2]
    | _ => cases h
  | tuple xs, w, hv, hw, h => by
    cases w with
    | tuple ys =>
      rw [text, text, texts_of_equalAll (isFloatFree_tuple.mp hv) (isFloatFree_tuple.mp hw) h]
    | _ => cases h
  | list _ xs, w, hv, hw, h => by
    cases w with
    | list _ ys =>
      rw [equals, Bool.and_eq_true] at h
      rw [text, text, texts_of_equalAll (isFloatFree_list.mp hv) (isFloatFree_list.mp hw) h.2]
    | _ => cases h
  | all, w, _, _, h => by
    cases w with
    | all => rfl
    | _ => cases h
  | index a, w, _, _, h => by
    cases w with
    | index b => rw [eq_of_beq h]
    | _ => cases h
  | lambda a _ _, w, _, _, h => by
    cases w with
    | lambda b _ _ => rw [text, text, eq_of_beq h]
    | _ => cases h
  | builtin a, w, _, _, h => by
    cases w with
    | builtin b => rw [eq_of_beq h]
    | _ => cases h

theorem texts_of_equalAll : ∀ {xs ys : List Value}, (∀ x ∈ xs, x.isFloatFree = true) → (∀ y ∈ ys, y.isFloatFree = true) →
    equalAll xs ys = true → texts xs = texts ys
  | [], [], _, _, _ => rfl
  | [], _ :: _, _, _, h => by cases h
  | _ :: _, [], _, _, h => by cases h
  | x :: xs, y :: ys, hx, hy, h => by
    rw [List.forall_mem_cons] at hx hy
    rw [equalAll, Bool.and_eq_true] at h
    rw [texts, texts, text_of_equals hx.1 hy.1 h.1, texts_of_equalAll hx.2 hy.2 h.2]

end

theorem Twin.text {v w : Value} (h : Twin v w) : v.text = w.text :=
  text_of_equals h.left.floatFree h.right.floatFree h.equals

/-- What the fields of twin tuples are, and that a twin of a tuple is one. -/
theorem Twin.tupleFields? {v w : Value} (h : Twin v w) :
    Report.tupleFields? v = none ∧ Report.tupleFields? w = none ∨
      ∃ xs ys, Report.tupleFields? v = some xs ∧ Report.tupleFields? w = some ys ∧ List.Forall₂ Twin xs ys := by
  have htag := tag_of_compare_eq h.left h.right h.compare
  cases v with
  | tuple xs =>
    cases w with
    | tuple ys =>
      exact .inr ⟨xs, ys, rfl, rfl, Twin.of_equalAll h.left.of_tuple h.right.of_tuple h.equals⟩
    | _ => cases htag
  | _ => cases w <;> first | exact .inl ⟨rfl, rfl⟩ | cases htag

end Value

open Value (Twin)

/-! ## Twin trees -/

namespace TupleTree

/-- The links are the same, and the values are twins. -/
def TwinCell (c d : Cell) : Prop :=
  ∃ v, Twin c.value v ∧ d = { c with value := v }

section
variable {col col' : Column} {cols cols' : List Column} {v v' : Value} {vs vs' : List Value}

theorem getElem?_twin (h : List.Forall₂ TwinCell col col') : ∀ i : Nat, col[i]? = none ∧ col'[i]? = none ∨
    ∃ c : Cell, ∃ v, col[i]? = some c ∧ Twin c.value v ∧ col'[i]? = some { c with value := v } := by
  induction h with
  | nil => exact fun i => .inl ⟨rfl, rfl⟩
  | @cons c d _ _ hcell _ ih =>
    intro i
    cases i with
    | zero =>
      obtain ⟨v, htwin, rfl⟩ := hcell
      exact .inr ⟨c, v, rfl, htwin, rfl⟩
    | succ i => exact ih i

theorem twin_linkUp (h : List.Forall₂ TwinCell col col') : List.Forall₂ TwinCell (linkUp col) (linkUp col') := by
  induction h with
  | nil => exact .nil
  | @cons c d rest rest' hcell hrest ih =>
    cases hrest with
    | nil =>
      obtain ⟨v, htwin, rfl⟩ := hcell
      exact .cons ⟨v, htwin, rfl⟩ .nil
    | cons hcell' hrest' => exact .cons hcell ih

theorem twin_pushCell (h : List.Forall₂ TwinCell col col') (hv : Twin v v') (left : Option Nat) (right : List Nat) :
    List.Forall₂ TwinCell (pushCell col v left right) (pushCell col' v' left right) := by
  rw [pushCell, pushCell, ← h.length_eq]
  exact List.rel_append (twin_linkUp h) (.cons ⟨v', hv, rfl⟩ .nil)

theorem twin_addChild (h : List.Forall₂ TwinCell col col') (child : Option Nat) : ∀ i,
    List.Forall₂ TwinCell (addChild i child col) (addChild i child col') := by
  cases child with
  | none => exact fun _ => h
  | some k =>
    induction h with
    | nil => exact fun i => by cases i <;> exact .nil
    | @cons c d rest rest' hcell hrest ih =>
      intro i
      cases i with
      | zero =>
        obtain ⟨v, htwin, rfl⟩ := hcell
        exact .cons ⟨v, htwin, rfl⟩ hrest
      | succ i => exact .cons hcell (ih i)

theorem shared?_twin (h : List.Forall₂ TwinCell col col') (hv : Twin v v') (candidate : Option Nat) (last : Bool) :
    shared? col candidate v last = shared? col' candidate v' last := by
  cases candidate with
  | none => rfl
  | some i =>
    rcases getElem?_twin h i with ⟨hc, hd⟩ | ⟨c, w, hc, htwin, hd⟩
    · rw [shared?, shared?, hc, hd]
      rfl
    · rw [shared?, shared?, hc, hd, Option.any_some, Option.any_some, htwin.equals_eq hv]

theorem twin_place (h : List.Forall₂ (List.Forall₂ TwinCell) cols cols') : ∀ {vs vs' : List Value},
    List.Forall₂ Twin vs vs' → ∀ parent candidate,
    (place parent candidate cols vs).2 = (place parent candidate cols' vs').2 ∧
      List.Forall₂ (List.Forall₂ TwinCell) (place parent candidate cols vs).1 (place parent candidate cols' vs').1 := by
  induction h with
  | nil => exact fun _ _ _ => by simp [place]
  | @cons col col' cols cols' hcol hcols ih =>
    intro vs vs' hvs parent candidate
    cases hvs with
    | nil => exact ⟨rfl, .cons hcol hcols⟩
    | @cons v v' vs vs' hv hvs =>
      have hlast : vs'.isEmpty = vs.isEmpty := by cases hvs <;> rfl
      rw [place, place, ← shared?_twin hcol hv, hlast]
      cases shared? col candidate v vs.isEmpty with
      | none =>
        obtain ⟨hchild, hrest⟩ := ih hvs (some col.length) none
        refine ⟨congrArg some hcol.length_eq, ?_⟩
        dsimp only
        rw [← hcol.length_eq, ← hchild]
        exact .cons (twin_pushCell hcol hv parent _) hrest
      | some i =>
        rcases getElem?_twin hcol i with ⟨hc, hd⟩ | ⟨c, w, hc, -, hd⟩
        · obtain ⟨hchild, hrest⟩ := ih hvs (some i) none
          simp only [hc, hd, ← hchild, true_and]
          exact .cons (twin_addChild hcol _ i) hrest
        · obtain ⟨hchild, hrest⟩ := ih hvs (some i) c.right.getLast?
          simp only [hc, hd, ← hchild, true_and]
          exact .cons (twin_addChild hcol _ i) hrest

theorem twin_insert (h : List.Forall₂ (List.Forall₂ TwinCell) cols cols') (hvs : List.Forall₂ Twin vs vs') :
    List.Forall₂ (List.Forall₂ TwinCell) (insert cols vs) (insert cols' vs') := by
  have hlatest : latest cols = latest cols' := by
    cases h with
    | nil => rfl
    | cons hcol _ => rw [latest, latest, hcol.length_eq]
  rw [insert, insert, ← hlatest]
  exact (twin_place h hvs none _).2

theorem twin_foldl {tuples tuples' : List (List Value)} (ht : List.Forall₂ (List.Forall₂ Twin) tuples tuples') :
    ∀ {cols cols' : List Column}, List.Forall₂ (List.Forall₂ TwinCell) cols cols' →
      List.Forall₂ (List.Forall₂ TwinCell) (tuples.foldl insert cols) (tuples'.foldl insert cols') := by
  induction ht with
  | nil => exact fun h => h
  | cons hvs _ ih => exact fun h => ih (twin_insert h hvs)

/-! ## Their text -/

theorem ascend_twin (h : List.Forall₂ (List.Forall₂ TwinCell) cols cols') : ∀ cell, ascend cols cell = ascend cols' cell := by
  induction h with
  | nil => exact fun _ => rfl
  | @cons col col' _ _ hcol _ ih =>
    intro cell
    cases cell with
    | none => rw [ascend, ascend, ih]
    | some i =>
      rw [ascend, ascend]
      rcases getElem?_twin hcol i with ⟨hc, hd⟩ | ⟨c, w, hc, -, hd⟩ <;> rw [hc, hd, ih]

theorem rowsFrom_twin (h : List.Forall₂ (List.Forall₂ TwinCell) cols cols') (texts : List (List String)) :
    ∀ (leaves : List Nat) (above : List (Option Nat)), rowsFrom cols texts above leaves = rowsFrom cols' texts above leaves
  | [], _ => rfl
  | leaf :: leaves, above => by
    rw [rowsFrom, rowsFrom, ascend_twin (List.forall₂_reverse_iff.mpr h), rowsFrom_twin h texts leaves]

theorem texts_twin (h : List.Forall₂ (List.Forall₂ TwinCell) cols cols') :
    (cols.map fun col => col.map fun c => c.value.text) = cols'.map fun col => col.map fun c => c.value.text := by
  induction h with
  | nil => rfl
  | cons hcol _ ih =>
    refine congrArg₂ (· :: ·) ?_ ih
    induction hcol with
    | nil => rfl
    | cons hcell _ ih' =>
      obtain ⟨v, htwin, rfl⟩ := hcell
      exact congrArg₂ (· :: ·) htwin.text ih'

theorem size_twin (h : List.Forall₂ (List.Forall₂ TwinCell) cols cols') : size ⟨cols⟩ = size ⟨cols'⟩ := by
  have hreverse := List.forall₂_reverse_iff.mpr h
  rw [size, size, List.getLast?_eq_head?_reverse, List.getLast?_eq_head?_reverse]
  generalize cols.reverse = right, cols'.reverse = right' at hreverse
  cases hreverse with
  | nil => rfl
  | cons hcol _ => exact hcol.length_eq

theorem render_twin (h : List.Forall₂ (List.Forall₂ TwinCell) cols cols') :
    render ⟨cols⟩ Value.text = render ⟨cols'⟩ Value.text := by
  rw [render, render, size_twin h, texts_twin h]
  simp only [rowsFrom_twin h]

/-- Twin tuples have trees that are written in one way, or none. -/
theorem ofTuples?_twin {tuples tuples' : List (List Value)} (h : List.Forall₂ (List.Forall₂ Twin) tuples tuples') :
    (ofTuples? tuples).map (render · Value.text) = (ofTuples? tuples').map (render · Value.text) := by
  cases h with
  | nil => rfl
  | @cons first first' rest rest' hfirst hrest =>
    have hlength := hfirst.length_eq
    have hempty : first.isEmpty = first'.isEmpty := by cases hfirst <;> rfl
    have hothers : (rest.any fun us => us.length != first.length) = rest'.any fun us => us.length != first'.length := by
      rw [hlength]
      clear hfirst hempty
      induction hrest with
      | nil => rfl
      | cons hus _ ih => rw [List.any_cons, List.any_cons, hus.length_eq, ih]
    rw [ofTuples?, ofTuples?, hempty, hothers, hlength]
    split
    · rfl
    · have hempties : List.Forall₂ (List.Forall₂ TwinCell) (List.replicate first'.length []) (List.replicate first'.length []) :=
        List.forall₂_same.mpr fun col hcol => List.eq_of_mem_replicate hcol ▸ .nil
      exact congrArg some (render_twin (twin_foldl (.cons hfirst hrest) hempties))

end

end TupleTree

/-! ## Answers -/

namespace Report

variable {l l' : Members}

theorem allTuples?_twin (h : List.Forall₂ Twin l l') : allTuples? l = none ∧ allTuples? l' = none ∨
    ∃ tuples tuples', allTuples? l = some tuples ∧ allTuples? l' = some tuples' ∧
      List.Forall₂ (List.Forall₂ Twin) tuples tuples' := by
  induction h with
  | nil => exact .inr ⟨[], [], rfl, rfl, .nil⟩
  | cons htwin _ ih =>
    rcases htwin.tupleFields? with ⟨hv, hw⟩ | ⟨xs, ys, hv, hw, hfields⟩
    · exact .inl ⟨by rw [allTuples?, hv], by rw [allTuples?, hw]⟩
    · rcases ih with ⟨hl, hl'⟩ | ⟨tuples, tuples', hl, hl', htuples⟩
      · exact .inl ⟨by rw [allTuples?, hv, hl], by rw [allTuples?, hw, hl']⟩
      · exact .inr ⟨_, _, by rw [allTuples?, hv, hl], by rw [allTuples?, hw, hl'], .cons hfields htuples⟩

theorem memberLines_twin (h : List.Forall₂ Twin l l') : memberLines l = memberLines l' := by
  rw [memberLines, memberLines]
  generalize "" = lines
  induction h generalizing lines with
  | nil => rfl
  | cons htwin _ ih => rw [List.foldl_cons, List.foldl_cons, htwin.text, ih]

theorem sortedText_twin (h : List.Forall₂ Twin l l') : sortedText l = sortedText l' := by
  have hlines := memberLines_twin h
  have htuples := allTuples?_twin h
  cases h with
  | nil => rfl
  | @cons v w l l' _ _ =>
    simp only [sortedText]
    rcases htuples with ⟨hl, hl'⟩ | ⟨tuples, tuples', hl, hl', htwins⟩
    · rw [hl, hl']
      exact hlines
    · have hrender := TupleTree.ofTuples?_twin htwins
      rw [hl, hl', Option.bind_some, Option.bind_some]
      cases ht : TupleTree.ofTuples? tuples <;> cases ht' : TupleTree.ofTuples? tuples' <;> rw [ht, ht'] at hrender
      · exact hlines
      · cases hrender
      · cases hrender
      · exact congrArg (· ++ "\n") (Option.some.inj hrender)

theorem forall₂_twin (h : List.Forall₂ (fun v w => v.compare w = .eq) l l') (hl : ∀ v ∈ l, Value.Discrete v)
    (hl' : ∀ w ∈ l', Value.Discrete w) : List.Forall₂ Twin l l' := by
  induction h with
  | nil => exact .nil
  | cons hc _ ih =>
    obtain ⟨hv, hl⟩ := List.forall_mem_cons.mp hl
    obtain ⟨hw, hl'⟩ := List.forall_mem_cons.mp hl'
    exact .cons ⟨hv, hw, (Value.equals_iff_compare hv hw).mpr hc⟩ (ih hl hl')

/-- Sorting leaves twins of lists of which each has what equals the members of the other. -/
theorem twin_sortedSet {a b : Members} (ha : ∀ v ∈ a, Value.Discrete v) (hb : ∀ v ∈ b, Value.Discrete v)
    (hab : ∀ v ∈ a, ∃ w ∈ b, v.equals w = true) (hba : ∀ w ∈ b, ∃ v ∈ a, w.equals v = true) :
    List.Forall₂ Twin a.sortedSet b.sortedSet := by
  have hcovers : ∀ {a b : Members}, (∀ v ∈ a, Value.Discrete v) → (∀ v ∈ b, Value.Discrete v) →
      (∀ v ∈ a, ∃ w ∈ b, v.equals w = true) → ∀ v ∈ a.sortedSet, Members.Covers b.sortedSet v := by
    intro a b ha hb hab v hv
    have hva := Members.sortedSet_subset a hv
    obtain ⟨w, hw, heq⟩ := hab v hva
    refine ((Members.rising_sortedSet Value.ordered_discrete hb).2 v (ha v hva)).mpr ⟨w, hw, ?_⟩
    exact Value.ordered_discrete.symm (ha v hva) (hb w hw) ((Value.equals_iff_compare (ha v hva) (hb w hw)).mp heq)
  have hda : ∀ v ∈ a.sortedSet, Value.Discrete v := fun v hv => ha v (Members.sortedSet_subset a hv)
  have hdb : ∀ v ∈ b.sortedSet, Value.Discrete v := fun v hv => hb v (Members.sortedSet_subset b hv)
  refine forall₂_twin (Members.forall₂_of_rising Value.ordered_discrete hda hdb
    (Members.rising_sortedSet Value.ordered_discrete ha).1 (Members.rising_sortedSet Value.ordered_discrete hb).1
    (hcovers ha hb hab) (hcovers hb ha hba)) hda hdb

/-! ## The first line -/

theorem mem_foldl_join {separator : String} {c : Char} : ∀ {texts : List String} {start : String},
    c ∈ (texts.foldl (fun acc t => acc ++ separator ++ t) start).toList →
    c ∈ start.toList ∨ c ∈ separator.toList ∨ ∃ t ∈ texts, c ∈ t.toList
  | [], _, h => .inl h
  | t :: texts, start, h => by
    rw [List.foldl_cons] at h
    rcases mem_foldl_join h with h | h | ⟨u, hu, h⟩
    · simp only [String.toList_append, List.mem_append, or_assoc] at h
      rcases h with h | h | h
      · exact .inl h
      · exact .inr (.inl h)
      · exact .inr (.inr ⟨t, List.mem_cons_self, h⟩)
    · exact .inr (.inl h)
    · exact .inr (.inr ⟨u, List.mem_cons_of_mem _ hu, h⟩)

theorem mem_joinWith {separator : String} {c : Char} {texts : List String} (h : c ∈ (joinWith separator texts).toList) :
    c ∈ separator.toList ∨ ∃ t ∈ texts, c ∈ t.toList := by
  cases texts with
  | nil => cases h
  | cons t texts =>
    rcases mem_foldl_join h with h | h | ⟨u, hu, h⟩
    · exact .inr ⟨t, List.mem_cons_self, h⟩
    · exact .inl h
    · exact .inr ⟨u, List.mem_cons_of_mem _ hu, h⟩

theorem newline_not_mem_toString (n : Nat) : '\n' ∉ (toString n).toList := by
  intro h
  have hdigit := Nat.isDigit_of_mem_toDigits (by decide) (by decide) (String.toList_ofList ▸ h)
  exact absurd hdigit (by decide)

mutual

theorem newline_not_mem_describe : ∀ v : Value, '\n' ∉ v.describe.toList
  | .int _ => by rw [Value.describe]; decide
  | .float _ => by rw [Value.describe]; decide
  | .str _ => by rw [Value.describe]; decide
  | .object _ => by rw [Value.describe]; decide
  | .range _ _ => by rw [Value.describe]; decide
  | .tuple fields => by
    intro h
    rw [Value.describe] at h
    simp only [String.toList_append, List.mem_append] at h
    rcases h with (h | h) | h
    · exact absurd h (by decide)
    · rcases mem_joinWith h with h | ⟨t, ht, h⟩
      · exact absurd h (by decide)
      · exact newline_not_mem_describeAll fields t ht h
    · exact absurd h (by decide)
  | .list _ [] => by rw [Value.describe]; decide
  | .list _ (v :: vs) => by
    intro h
    rw [Value.describe] at h
    simp only [String.toList_append, List.mem_append] at h
    rcases h with ((h | h) | h) | h
    · exact absurd h (by decide)
    · exact newline_not_mem_toString _ h
    · exact absurd h (by decide)
    · exact newline_not_mem_describe v h
  | .all => by decide
  | .index _ => by rw [Value.describe]; decide
  | .lambda _ _ _ => by rw [Value.describe]; decide
  | .builtin _ => by rw [Value.describe]; decide

theorem newline_not_mem_describeAll : ∀ (vs : List Value), ∀ t ∈ Value.describeAll vs, '\n' ∉ t.toList
  | [], _, h => absurd h List.not_mem_nil
  | v :: vs, t, h => by
    rcases List.mem_cons.mp h with rfl | h
    · exact newline_not_mem_describe v
    · exact newline_not_mem_describeAll vs t h

end

/-- The text is the line followed by the rest. -/
def StartsWithLine (text line rest : String) : Prop :=
  text = line ++ "\n" ++ rest ∧ '\n' ∉ line.toList

theorem startsWithLine_render (g : Graph) (v : Value) : StartsWithLine (render g (some v)) ("RESULT: " ++ v.describe) (body g v) := by
  refine ⟨rfl, fun h => ?_⟩
  rcases List.mem_append.mp (String.toList_append ▸ h) with h | h
  · exact absurd h (by decide)
  · exact newline_not_mem_describe v h

/-- Two lists without floating point numbers, each with what equals the members of the other, are written alike after
the first line, which tells how many members there are. -/
theorem render_unordered (g : Graph) (a b : Tagged) (ha : a.value.isUniform = true) (hb : b.value.isUniform = true)
    (hfa : a.value.isFloatFree = true) (hfb : b.value.isFloatFree = true)
    (hab : ∀ v ∈ a.members, ∃ w ∈ b.members, v.equals w = true)
    (hba : ∀ w ∈ b.members, ∃ v ∈ a.members, w.equals v = true) : ∃ line line' rest,
    StartsWithLine (render g (some a.value)) line rest ∧ StartsWithLine (render g (some b.value)) line' rest := by
  have hbody : body g a.value = body g b.value :=
    sortedText_twin (twin_sortedSet (Tagged.discrete_members ha hfa) (Tagged.discrete_members hb hfb) hab hba)
  exact ⟨_, _, body g b.value, hbody ▸ startsWithLine_render g a.value, startsWithLine_render g b.value⟩

theorem render_unordered_repeated :
    let a : Tagged := .of [.tuple [.str "b", .int 1], .tuple [.str "a", .int 2], .tuple [.str "b", .int 1]]
    let b : Tagged := .of [.tuple [.str "a", .int 2], .tuple [.str "b", .int 1]]
    a.value.isUniform = true ∧ b.value.isUniform = true ∧ a.value.isFloatFree = true ∧ b.value.isFloatFree = true ∧
      (∀ v ∈ a.members, ∃ w ∈ b.members, v.equals w = true) ∧
      (∀ w ∈ b.members, ∃ v ∈ a.members, w.equals v = true) ∧ ∃ line line' rest,
      StartsWithLine (render .empty (some a.value)) line rest ∧
        StartsWithLine (render .empty (some b.value)) line' rest := by
  intro a b
  have ha : a.value.isUniform = true := by decide
  have hb : b.value.isUniform = true := by decide
  have hfa : a.value.isFloatFree = true := by decide
  have hfb : b.value.isFloatFree = true := by decide
  have hab : ∀ v ∈ a.members, ∃ w ∈ b.members, v.equals w = true := by decide
  have hba : ∀ w ∈ b.members, ∃ v ∈ a.members, w.equals v = true := by decide
  exact ⟨ha, hb, hfa, hfb, hab, hba, render_unordered .empty a b ha hb hfa hfb hab hba⟩

end Report

end Provenance
