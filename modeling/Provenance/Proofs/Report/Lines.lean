import Mathlib.Algebra.GroupWithZero.Nat
import Provenance.Proofs.Report.Rows

/-!
# Reading a written tuple tree

The line of a tuple shows, in columns of fixed widths, the texts of the cells
on its way, except for those that the way of the tuple before goes through as
well. What stands in a column last thus stands for the tuple, so the texts of
all tuples can be read off the lines (`render_readable`): a comma tells a cell
that is shown from one that is not, and the last column shows all its cells.
-/

namespace Provenance.TupleTree

/-! ## Which cells a line shows -/

/-- The cells that the line of a leaf shows. -/
def lineCells (t : TupleTree) (leaf : Nat) : List (Option Nat) :=
  if leaf = 0 then t.path leaf
  else List.zipWith (fun above cell => if above = cell then none else cell) (t.path (leaf - 1)) (t.path leaf)

theorem ascend_cons (col : Column) (cols : List Column) (cell : Option Nat) :
    ascend (col :: cols) cell = cell :: ascend cols (cell.bind fun i => col[i]?.bind Cell.left) := by
  cases cell with
  | none => rfl
  | some i =>
    rw [ascend, Option.bind_some]
    cases col[i]? <;> rfl

theorem length_ascend : ∀ (cols : List Column) (cell : Option Nat), (ascend cols cell).length = cols.length
  | [], _ => rfl
  | col :: cols, cell => by rw [ascend_cons, List.length_cons, length_ascend cols, List.length_cons]

theorem length_path (t : TupleTree) (leaf : Nat) : (t.path leaf).length = t.columns.length := by
  rw [path, List.length_reverse, length_ascend, List.length_reverse]

/-- A way ends at its leaf. -/
theorem getElem?_path_last {t : TupleTree} {leaf : Nat} (h : 0 < t.columns.length) :
    (t.path leaf)[t.columns.length - 1]? = some (some leaf) := by
  rw [← length_path t leaf, ← List.getLast?_eq_getElem?, path, List.getLast?_reverse]
  cases hcols : t.columns.reverse with
  | nil =>
    rw [List.reverse_eq_nil_iff.mp hcols] at h
    exact absurd h (Nat.lt_irrefl 0)
  | cons col cols => rfl

theorem length_lineCells (t : TupleTree) (leaf : Nat) : (t.lineCells leaf).length = t.columns.length := by
  rw [lineCells]
  split
  · exact length_path t leaf
  · rw [List.length_zipWith, length_path, length_path, Nat.min_self]

theorem getElem?_lineCells {t : TupleTree} {leaf c : Nat} {cell : Option Nat} (h : (t.path leaf)[c]? = some cell) :
    (t.lineCells leaf)[c]? = some (if 0 < leaf ∧ (t.path (leaf - 1))[c]? = some cell then none else cell) := by
  have hc : c < (t.path (leaf - 1)).length := by
    rw [length_path, ← length_path t leaf]
    exact (List.getElem?_eq_some_iff.mp h).1
  have habove := List.getElem?_eq_getElem hc
  rw [lineCells]
  split
  · rename_i hleaf
    rw [h, if_neg fun hlt => Nat.ne_of_gt hlt.1 hleaf]
  · rename_i hleaf
    rw [List.getElem?_zipWith, h, habove]
    simp [Nat.pos_of_ne_zero hleaf]

theorem visible_self : ∀ cells : List (Option Nat), visible true cells cells = cells.map fun _ => none
  | [] => rfl
  | _ :: cells => congrArg (none :: ·) (visible_self cells)

theorem visible_nil : ∀ cells : List (Option Nat), visible false [] cells = cells
  | [] => rfl
  | cell :: cells => congrArg (cell :: ·) (visible_nil cells)

/-- Ways that meet have the same cells from there on up, so what is left of a blank cell is blank as well. -/
theorem visible_ascend : ∀ (cols : List Column) (above cell : Option Nat),
    visible false (ascend cols above) (ascend cols cell) =
      List.zipWith (fun above cell => if above = cell then none else cell) (ascend cols above) (ascend cols cell)
  | [], _, _ => rfl
  | col :: cols, above, cell => by
    by_cases h : above = cell
    · subst h
      rw [ascend_cons, visible, List.zipWith_cons_cons, if_pos rfl, beq_self_eq_true, Bool.false_or, visible_self,
        List.zipWith_self]
      simp
    · rw [ascend_cons, ascend_cons, visible, List.zipWith_cons_cons, if_neg h, beq_false_of_ne h, Bool.false_or,
        visible_ascend cols]
      rfl

theorem reverse_visible (t : TupleTree) (leaf : Nat) :
    (visible false (ascend t.columns.reverse (some leaf)) (ascend t.columns.reverse (some (leaf + 1)))).reverse =
      t.lineCells (leaf + 1) := by
  rw [visible_ascend, List.reverse_zipWith (by rw [length_ascend, length_ascend]), lineCells, if_neg (Nat.succ_ne_zero leaf)]
  rfl

theorem rowsFrom_range' (t : TupleTree) (texts : List (List String)) : ∀ n leaf : Nat,
    rowsFrom t.columns texts (ascend t.columns.reverse (some leaf)) (List.range' (leaf + 1) n) =
      (List.range' (leaf + 1) n).map fun leaf => "(" ++ cellsText texts (t.lineCells leaf) ++ ")"
  | 0, _ => rfl
  | n + 1, leaf => by
    rw [List.range'_succ, rowsFrom, reverse_visible, List.map_cons, rowsFrom_range' t texts n (leaf + 1)]

theorem rowsFrom_range (t : TupleTree) (texts : List (List String)) (n : Nat) :
    rowsFrom t.columns texts [] (List.range n) =
      (List.range n).map fun leaf => "(" ++ cellsText texts (t.lineCells leaf) ++ ")" := by
  cases n with
  | zero => rfl
  | succ n =>
    rw [List.range_eq_range', List.range'_succ, rowsFrom, List.map_cons, rowsFrom_range' t texts n 0, visible_nil]
    rfl

/-! ## Writing and reading a line -/

/-- A text at the right end of its column, or nothing. -/
def aligned (width : Nat) : Option String → List Char
  | none => List.replicate width ' '
  | some s => List.replicate (width - s.length) ' ' ++ s.toList

/-- The cells of a line. A comma comes after a cell that is shown, blanks after one that is not, and nothing after the
last one. -/
def laidOut : List Nat → List (Option String) → List Char
  | width :: widths, cell :: cells =>
    aligned width cell ++ (if widths.isEmpty then [] else if cell.isSome then [',', ' '] else [' ', ' ']) ++
      laidOut widths cells
  | _, _ => []

/-- Reads the cells of a line, whose texts are found up to the blanks in front of them. -/
def readCells : List Nat → List Char → List (Option (List Char))
  | width :: widths, line =>
    (if widths.isEmpty || (line.drop width).take 2 == [',', ' '] then some ((line.take width).dropWhile (· == ' ')) else none) ::
      readCells widths (line.drop (width + 2))
  | [], _ => []

/-- The characters of a text without the blanks it begins with. -/
def unpadded (s : String) : List Char :=
  s.toList.dropWhile (· == ' ')

/-- The text of a cell has its place in the column. -/
def Fits (width : Nat) (cell : Option String) : Prop :=
  ∀ s, cell = some s → s.length ≤ width

section
variable {width : Nat} {widths : List Nat} {cell : Option String} {cells : List (Option String)}

theorem length_aligned (h : Fits width cell) : (aligned width cell).length = width := by
  cases cell with
  | none => exact List.length_replicate
  | some s =>
    rw [aligned, List.length_append, List.length_replicate, String.length_toList, Nat.sub_add_cancel (h s rfl)]

/-- All lines are of one length. -/
theorem length_laidOut (h : List.Forall₂ Fits widths cells) :
    (laidOut widths cells).length = widths.sum + 2 * (widths.length - 1) := by
  induction h with
  | nil => rfl
  | @cons width cell widths cells hfits hrest ih =>
    rw [laidOut, List.length_append, List.length_append, ih, length_aligned hfits, List.sum_cons, List.length_cons]
    cases widths with
    | nil => simp
    | cons w ws =>
      cases cell <;> simp <;> omega

theorem dropWhile_aligned (width : Nat) (s : String) : (aligned width (some s)).dropWhile (· == ' ') = unpadded s := by
  rw [aligned, unpadded]
  induction width - s.length with
  | zero => rfl
  | succ n ih => rw [List.replicate_succ, List.cons_append, List.dropWhile_cons_of_pos (by rfl), ih]

/-- The reader finds what is shown if that includes the last cell. -/
theorem readCells_laidOut (h : List.Forall₂ Fits widths cells) (hlast : cells.getLast? ≠ some none) (rest : List Char) :
    readCells widths (laidOut widths cells ++ rest) = cells.map (Option.map unpadded) := by
  induction h with
  | nil => rfl
  | @cons width cell widths cells hfits hrest ih =>
    have hlength := length_aligned hfits
    rw [laidOut, readCells, List.map_cons, List.append_assoc, List.append_assoc, List.take_left' hlength,
      List.drop_left' hlength, ← List.drop_drop, List.drop_left' hlength]
    cases hrest with
    | nil =>
      cases cell with
      | none => exact absurd rfl hlast
      | some s => exact congrArg (some · :: _) (dropWhile_aligned width s)
    | cons hfits' hrest' =>
      cases cell with
      | none => exact congrArg (none :: ·) (ih hlast)
      | some s => exact congrArg₂ (some · :: ·) (dropWhile_aligned width s) (ih hlast)

theorem toList_padLeft (width : Nat) (s : String) : (padLeft width s).toList = aligned width (some s) := by
  simp [padLeft, blanks, aligned]

theorem toList_separator (last shown : Bool) : (if last then "" else if shown then ", " else "  ").toList =
    if last then [] else if shown then [',', ' '] else [' ', ' '] := by
  cases last <;> cases shown <;> decide

end

/-- The width of a column, which is that of its longest text. -/
def width (text : Value → String) (col : Column) : Nat :=
  col.foldl (fun w c => max w (text c.value).length) 0

/-- The text of a cell, if it is to be shown. -/
def textIn (text : Value → String) (col : Column) (cell : Option Nat) : Option String :=
  cell.bind fun i => col[i]?.map fun c => text c.value

theorem le_foldl_max (text : Value → String) : ∀ (col : Column) (n : Nat),
    n ≤ col.foldl (fun w c => max w (text c.value).length) n ∧
      ∀ c ∈ col, (text c.value).length ≤ col.foldl (fun w c => max w (text c.value).length) n
  | [], n => ⟨Nat.le_refl n, fun _ hc => absurd hc List.not_mem_nil⟩
  | d :: col, n => by
    obtain ⟨hfirst, hrest⟩ := le_foldl_max text col (max n (text d.value).length)
    refine ⟨Nat.le_trans (Nat.le_max_left _ _) hfirst, fun c hc => ?_⟩
    rcases List.mem_cons.mp hc with rfl | hc
    · exact Nat.le_trans (Nat.le_max_right _ _) hfirst
    · exact hrest c hc

theorem fits_textIn (text : Value → String) (col : Column) (cell : Option Nat) : Fits (width text col) (textIn text col cell) := by
  intro s hs
  obtain ⟨i, -, hi⟩ := Option.bind_eq_some_iff.mp hs
  obtain ⟨c, hc, rfl⟩ := Option.map_eq_some_iff.mp hi
  exact (le_foldl_max text col 0).2 c (List.mem_of_getElem? hc)

/-- What a line shows is laid out in columns. -/
theorem toList_cellsText (text : Value → String) {cols : List Column} {cells : List (Option Nat)}
    (h : List.Forall₂ (fun col cell => ∀ i, cell = some i → i < List.length col) cols cells) :
    (cellsText (cols.map fun col => col.map fun c => text c.value) cells).toList =
      laidOut (cols.map (width text)) (List.zipWith (textIn text) cols cells) := by
  induction h with
  | nil => rfl
  | @cons col cell cols cells hcell hrest ih =>
    simp only [List.map_cons, cellsText, List.zipWith_cons_cons, laidOut, String.toList_append, ih]
    have hwidth : (col.map fun c => text c.value).foldl (fun w s => max w s.length) 0 = width text col := List.foldl_map
    rw [hwidth, List.isEmpty_map, List.isEmpty_map, toList_separator]
    cases cell with
    | none =>
      simp only [textIn, Option.bind_none, blanks, String.toList_ofList, aligned]
      rfl
    | some i =>
      have hi := List.getElem?_eq_getElem (hcell i rfl)
      simp only [textIn, Option.bind_some, List.getElem?_map, hi, Option.map_some, Option.getD_some, toList_padLeft,
        Option.isSome_some]

/-! ## Reading all lines -/

/-- Takes over from the line above what a line does not show. -/
def carryDown {α : Type} : List (Option α) → List (List (Option α)) → List (List (Option α))
  | _, [] => []
  | above, line :: lines =>
    let filled := List.zipWith (fun above cell => cell.or above) above line
    filled :: carryDown filled lines

theorem carryDown_map {α β : Type} (f : α → β) : ∀ (lines : List (List (Option α))) (above : List (Option α)),
    carryDown (above.map (Option.map f)) (lines.map (List.map (Option.map f))) =
      (carryDown above lines).map (List.map (Option.map f))
  | [], _ => rfl
  | line :: lines, above => by
    have hfilled : List.zipWith (fun above cell => cell.or above) (above.map (Option.map f)) (line.map (Option.map f)) =
        (List.zipWith (fun above cell => cell.or above) above line).map (Option.map f) := by
      rw [List.zipWith_map, List.map_zipWith]
      simp only [Option.map_or]
    rw [List.map_cons, carryDown, hfilled, carryDown_map f lines, carryDown, List.map_cons]

theorem zipWith_or_none {α β : Type} : ∀ {widths : List α} {line : List (Option β)}, line.length = widths.length →
    List.zipWith (fun above cell => cell.or above) (widths.map fun _ => none) line = line
  | [], [], _ => rfl
  | _ :: _, cell :: _, h => congrArg₂ (· :: ·) (Option.or_none (o := cell)) (zipWith_or_none (Nat.succ.inj h))

section
variable {parent parent' : Option Nat} {cols : List Column} {is js : List Nat} {vs ws : List Value}

theorem Spells.exists_cell (h : Spells parent cols is vs) : ∀ {c : Nat}, c < cols.length → ∃ col : Column, ∃ i, ∃ d : Cell,
    cols[c]? = some col ∧ is[c]? = some i ∧ col[i]? = some d ∧ vs[c]? = some d.value := by
  induction h with
  | nil => exact fun hc => absurd hc (Nat.not_lt_zero _)
  | cons cell _ _ ih =>
    intro c hc
    cases c with
    | zero => exact ⟨_, _, _, rfl, rfl, cell, rfl⟩
    | succ c => exact ih (Nat.lt_of_succ_lt_succ hc)

theorem Spells.textIn (h : Spells parent cols is vs) (text : Value → String) :
    List.zipWith (textIn text) cols (is.map some) = vs.map fun v => some (text v) := by
  induction h with
  | nil => rfl
  | cons cell _ _ ih =>
    rw [List.map_cons, List.zipWith_cons_cons, ih, TupleTree.textIn, Option.bind_some, cell]
    rfl

/-- With what the line above shows or has taken over, a line tells the texts of all cells. -/
theorem Spells.carry (h : Spells parent cols is vs) (h' : Spells parent' cols js ws) (text : Value → String) :
    List.zipWith (fun above cell => cell.or above) (vs.map fun v => some (text v))
      (List.zipWith (TupleTree.textIn text) cols
        (List.zipWith (fun above cell => if above = cell then none else cell) (is.map some) (js.map some))) =
      ws.map fun v => some (text v) := by
  induction h generalizing parent' js ws with
  | nil =>
    cases h'
    rfl
  | @cons parent col cols i is c vs cell left _ ih =>
    cases h' with
    | @cons _ _ _ j js d ws cell' left' rest' =>
      simp only [List.map_cons, List.zipWith_cons_cons, ih rest']
      congr 1
      by_cases hij : i = j
      · subst hij
        rw [cell] at cell'
        cases cell'
        simp [TupleTree.textIn]
      · rw [if_neg fun h => hij (Option.some.inj h), TupleTree.textIn, Option.bind_some, cell']
        rfl

end

/-- The texts that the line of a leaf shows. -/
def shown (t : TupleTree) (text : Value → String) (leaf : Nat) : List (Option String) :=
  List.zipWith (textIn text) t.columns (t.lineCells leaf)

section
variable {tree : TupleTree} {tuples : List (List Value)} (h : Holds tree.columns tuples) (text : Value → String)
include h

theorem Holds.exists_spells {leaf : Nat} (hleaf : leaf < tuples.length) : ∃ is vs, Spells none tree.columns is vs ∧
    is.getLast? = some leaf ∧ tree.path leaf = is.map some ∧ tree.row leaf = vs.map some := by
  obtain ⟨is, vs, hs, hlast, -⟩ := h.spells leaf _ (List.getElem?_eq_getElem hleaf)
  exact ⟨is, vs, hs, hlast, hs.path hlast, hs.row hlast⟩

theorem Holds.lineCells_lt {leaf : Nat} (hleaf : leaf < tuples.length) :
    List.Forall₂ (fun col cell => ∀ i, cell = some i → i < List.length col) tree.columns (tree.lineCells leaf) := by
  obtain ⟨is, vs, hs, -, hpath, -⟩ := h.exists_spells hleaf
  refine List.forall₂_iff_get.mpr ⟨(length_lineCells tree leaf).symm, fun c hc hc' i hi => ?_⟩
  obtain ⟨col, k, d, hcol, hk, hd, -⟩ := hs.exists_cell hc
  have hcell : (tree.path leaf)[c]? = some (some k) := by rw [hpath, List.getElem?_map, hk]; rfl
  have hi' := (List.getElem?_eq_getElem hc').symm.trans (getElem?_lineCells hcell)
  rw [List.get_eq_getElem] at hi
  rw [hi, Option.some_inj] at hi'
  obtain ⟨_, rfl⟩ := List.getElem?_eq_some_iff.mp hcol
  split at hi'
  · cases hi'
  · cases hi'
    exact (List.getElem?_eq_some_iff.mp hd).1

/-- A cell is not shown exactly if the way of the leaf before goes through it. -/
theorem Holds.getElem?_shown {leaf c : Nat} (hleaf : leaf < tuples.length) (hc : c < tree.columns.length) :
    ∃ v, (tree.row leaf)[c]? = some (some v) ∧ (tree.shown text leaf)[c]? =
      some (if 0 < leaf ∧ (tree.path (leaf - 1))[c]? = (tree.path leaf)[c]? then none else some (text v)) := by
  obtain ⟨is, vs, hs, -, hpath, hrow⟩ := h.exists_spells hleaf
  obtain ⟨col, k, d, hcol, hk, hd, hv⟩ := hs.exists_cell hc
  have hcell : (tree.path leaf)[c]? = some (some k) := by rw [hpath, List.getElem?_map, hk]; rfl
  refine ⟨d.value, by rw [hrow, List.getElem?_map, hv]; rfl, ?_⟩
  rw [shown, List.getElem?_zipWith, hcol, getElem?_lineCells hcell, hcell]
  by_cases hsame : 0 < leaf ∧ (tree.path (leaf - 1))[c]? = some (some k)
  · simp [hsame, textIn]
  · simp [hsame, textIn, hd]

theorem Holds.getLast?_shown {leaf : Nat} (hleaf : leaf < tuples.length) : (tree.shown text leaf).getLast? ≠ some none := by
  have hlength : (tree.shown text leaf).length = tree.columns.length := by
    rw [shown, List.length_zipWith, length_lineCells, Nat.min_self]
  rw [List.getLast?_eq_getElem?, hlength]
  rcases Nat.eq_zero_or_pos tree.columns.length with hzero | hpos
  · rw [List.getElem?_eq_none (by omega)]
    exact (Option.some_ne_none none).symm
  · obtain ⟨v, -, hshown⟩ := h.getElem?_shown text hleaf (Nat.sub_one_lt_of_lt hpos)
    rw [getElem?_path_last hpos, getElem?_path_last hpos, if_neg] at hshown
    · rw [hshown]
      exact fun heq => by cases heq
    · rintro ⟨hlt, heq⟩
      exact Nat.ne_of_lt (Nat.sub_one_lt_of_lt hlt) (Option.some.inj (Option.some.inj heq))

theorem Holds.carryDown_shown : ∀ {n leaf : Nat}, leaf + n < tuples.length →
    carryDown ((tree.row leaf).map (Option.map text)) ((List.range' (leaf + 1) n).map (tree.shown text)) =
      (List.range' (leaf + 1) n).map fun leaf => (tree.row leaf).map (Option.map text)
  | 0, _, _ => rfl
  | n + 1, leaf, hlt => by
    obtain ⟨is, vs, hs, -, hpath, hrow⟩ := h.exists_spells (show leaf < tuples.length by omega)
    obtain ⟨js, ws, hs', -, hpath', hrow'⟩ := h.exists_spells (show leaf + 1 < tuples.length by omega)
    have hfilled : List.zipWith (fun above cell => cell.or above) ((tree.row leaf).map (Option.map text))
        (tree.shown text (leaf + 1)) = (tree.row (leaf + 1)).map (Option.map text) := by
      have hcarry := hs.carry hs' text
      rw [shown, lineCells, if_neg (Nat.succ_ne_zero leaf), Nat.add_sub_cancel, hpath, hpath', hrow, hrow', List.map_map,
        List.map_map]
      exact hcarry
    rw [List.range'_succ, List.map_cons, carryDown, hfilled, Holds.carryDown_shown (by omega), List.map_cons]

end

/-- A line of the written tree. -/
def line (widths : List Nat) (cells : List (Option String)) : String :=
  "(" ++ String.ofList (laidOut widths cells) ++ ")"

theorem toList_line (widths : List Nat) (cells : List (Option String)) :
    (line widths cells).toList = '(' :: (laidOut widths cells ++ [')']) := by
  simp [line]

theorem length_line {widths : List Nat} {cells : List (Option String)} (h : List.Forall₂ Fits widths cells)
    (hpos : 0 < widths.length) : (line widths cells).length = widths.sum + 2 * widths.length := by
  have hlength : (line widths cells).length = widths.sum + 2 * (widths.length - 1) + 2 := by
    rw [← String.length_toList, toList_line, List.length_cons, List.length_append, length_laidOut h, List.length_singleton]
  omega

section
variable {tree : TupleTree} {tuples : List (List Value)} (text : Value → String)

theorem fits_shown (tree : TupleTree) (leaf : Nat) :
    List.Forall₂ Fits (tree.columns.map (width text)) (tree.shown text leaf) := by
  have hlength := length_lineCells tree leaf
  rw [shown]
  generalize tree.lineCells leaf = cells at hlength
  generalize tree.columns = cols at hlength
  induction cols generalizing cells with
  | nil => exact .nil
  | cons col cols ih =>
    obtain ⟨cell, cells, rfl⟩ := List.exists_cons_of_length_eq_add_one hlength
    exact .cons (fits_textIn text col cell) (ih cells (Nat.succ.inj hlength))

variable (h : Holds tree.columns tuples)
include h

theorem Holds.render (hne : tuples ≠ []) : tree.render text = "\x7b\n   " ++ joinWith ",\n   "
    (((List.range tuples.length).map (tree.shown text)).map (line (tree.columns.map (width text)))) ++ "\n\x7d" := by
  have hsize : tree.size = tuples.length := h.size_eq
  have hpos := List.length_pos_of_ne_nil hne
  have hlines : ∀ leaf ∈ List.range tuples.length,
      "(" ++ cellsText (tree.columns.map fun col => col.map fun c => text c.value) (tree.lineCells leaf) ++ ")" =
        line (tree.columns.map (width text)) (tree.shown text leaf) := fun leaf hleaf => by
    rw [line, shown, ← toList_cellsText text (h.lineCells_lt (List.mem_range.mp hleaf)), String.ofList_toList]
  rw [TupleTree.render, hsize, if_neg (Nat.ne_of_gt hpos), List.map_map]
  simp only [rowsFrom_range]
  rw [List.map_congr_left hlines]
  rfl

theorem Holds.carryDown_grid : carryDown ((tree.columns.map (width text)).map fun _ => none)
    ((List.range tuples.length).map (tree.shown text)) =
      (List.range tuples.length).map fun i => (tree.row i).map (Option.map text) := by
  cases hn : tuples.length with
  | zero => rfl
  | succ n =>
    obtain ⟨is, vs, hs, -, hpath, hrow⟩ := h.exists_spells (show 0 < tuples.length by omega)
    have hfirst : List.zipWith (fun above cell => cell.or above) ((tree.columns.map (width text)).map fun _ => none)
        (tree.shown text 0) = (tree.row 0).map (Option.map text) := by
      rw [zipWith_or_none (fits_shown text tree 0).length_eq.symm, shown, lineCells, if_pos rfl, hpath, hs.textIn, hrow,
        List.map_map]
      rfl
    rw [List.range_eq_range', List.range'_succ, List.map_cons, carryDown, hfirst, List.map_cons,
      h.carryDown_shown text (show 0 + n < tuples.length by omega)]

theorem Holds.readCells_line {leaf : Nat} (hleaf : leaf < tuples.length) :
    readCells (tree.columns.map (width text)) ((line (tree.columns.map (width text)) (tree.shown text leaf)).toList.drop 1) =
      (tree.shown text leaf).map (Option.map unpadded) := by
  rw [toList_line]
  exact readCells_laidOut (fits_shown text tree leaf) (h.getLast?_shown text hleaf) [')']

/-- The texts are found from the characters of the lines alone. -/
theorem Holds.carryDown_read : carryDown ((tree.columns.map (width text)).map fun _ => none)
    (((List.range tuples.length).map (tree.shown text)).map fun cells =>
      readCells (tree.columns.map (width text)) ((line (tree.columns.map (width text)) cells).toList.drop 1)) =
      (List.range tuples.length).map fun i => (tree.row i).map (Option.map fun v => unpadded (text v)) := by
  have hread : ((List.range tuples.length).map (tree.shown text)).map (fun cells =>
      readCells (tree.columns.map (width text)) ((line (tree.columns.map (width text)) cells).toList.drop 1)) =
        ((List.range tuples.length).map (tree.shown text)).map (List.map (Option.map unpadded)) := by
    refine List.map_congr_left fun cells hcells => ?_
    obtain ⟨leaf, hleaf, rfl⟩ := List.mem_map.mp hcells
    exact h.readCells_line text (List.mem_range.mp hleaf)
  have habove : ((tree.columns.map (width text)).map fun _ => (none : Option String)).map (Option.map unpadded) =
      (tree.columns.map (width text)).map fun _ => none := by
    rw [List.map_map]
    rfl
  rw [hread, ← habove, carryDown_map, h.carryDown_grid text, List.map_map]
  refine List.map_congr_left fun leaf _ => ?_
  rw [Function.comp_apply, List.map_map]
  exact List.map_congr_left fun cell _ => Option.map_map unpadded text cell

end

/-- Tuples can be read off the written tree, which has a line for each of them, in their order, and all of one length.
In a column there is, at its right end, the text of the cell on the way to the tuple, unless there is a line above whose
way goes through the same cell: then there is nothing. So the last text that was shown in a column is that of the cell.
From the characters of the lines it is read off up to the blanks that it begins with. -/
theorem render_readable {tuples : List (List Value)} {tree : TupleTree} (htree : ofTuples? tuples = some tree)
    (hne : tuples ≠ []) (text : Value → String) :
    let widths := tree.columns.map (width text)
    ∃ grid : List (List (Option String)), grid.length = tuples.length ∧
      tree.render text = "\x7b\n   " ++ joinWith ",\n   " (grid.map (line widths)) ++ "\n\x7d" ∧
      (∀ cells ∈ grid, List.Forall₂ Fits widths cells ∧ (line widths cells).length = widths.sum + 2 * widths.length) ∧
      (∀ i c, i < tuples.length → c < widths.length → ∃ cell, grid[i]?.bind (·[c]?) = some cell ∧
        (cell = none ↔ 0 < i ∧ (tree.path (i - 1))[c]? = (tree.path i)[c]?) ∧
        ∀ s, cell = some s → ∃ v, (tree.row i)[c]? = some (some v) ∧ s = text v) ∧
      carryDown (widths.map fun _ => none) grid =
        (List.range tuples.length).map (fun i => (tree.row i).map (Option.map text)) ∧
      carryDown (widths.map fun _ => none) (grid.map fun cells => readCells widths ((line widths cells).toList.drop 1)) =
        (List.range tuples.length).map fun i => (tree.row i).map (Option.map fun v => unpadded (text v)) := by
  intro widths
  obtain ⟨h, -⟩ := holds_of_ofTuples? htree
  have hpos : 0 < widths.length := by
    rw [List.length_map]
    exact List.length_pos_of_ne_nil (columns_ne_nil htree hne)
  refine ⟨(List.range tuples.length).map (tree.shown text), by simp, h.render text hne, fun cells hcells => ?_,
    fun i c hi hc => ?_, h.carryDown_grid text, h.carryDown_read text⟩
  · obtain ⟨leaf, -, rfl⟩ := List.mem_map.mp hcells
    exact ⟨fits_shown text tree leaf, length_line (fits_shown text tree leaf) hpos⟩
  · obtain ⟨v, hv, hshown⟩ := h.getElem?_shown text hi (by simpa [widths] using hc)
    rw [List.getElem?_map, List.getElem?_range hi, Option.map_some, Option.bind_some, hshown]
    refine ⟨_, rfl, by simp, fun s hs => ⟨v, hv, ?_⟩⟩
    split at hs
    · cases hs
    · exact (Option.some.inj hs).symm

/-- The numbers 1 and 2 are shown once for the first two tuples, and 2 again for the third. -/
theorem render_readable_shared :
    let tuples : List (List Value) := [[.int 1, .int 2, .int 3], [.int 1, .int 2, .int 4], [.int 10, .int 2, .int 4]]
    ∃ tree, ofTuples? tuples = some tree ∧ tuples ≠ [] ∧ ∃ grid : List (List (Option String)),
      tree.render Value.text = "\x7b\n   " ++ joinWith ",\n   " (grid.map (line [2, 1, 1])) ++ "\n\x7d" ∧
      carryDown [none, none, none] grid =
        [[some "1", some "2", some "3"], [some "1", some "2", some "4"], [some "10", some "2", some "4"]] := by
  intro tuples
  obtain ⟨grid, -, hrender, -, -, hcarry, -⟩ := render_readable (show ofTuples? tuples = some _ from rfl) (List.cons_ne_nil _ _) Value.text
  exact ⟨_, rfl, List.cons_ne_nil _ _, grid, hrender, hcarry⟩

end Provenance.TupleTree
