import Mathlib.Data.List.Forall2
import Mathlib.Data.List.Infix
import Provenance.Regex

/-!
# Texts that split along a pattern

A pattern is a sequence of tokens, and a text matches it when the text can be cut
into as many parts, each of them taken by its token (`Splits`). The answers that
are worked out from the last piece to the first are, for every end of the text,
whether that end splits along the pieces from there on (`answers_pieces`).
-/

namespace Provenance.Glob

open Regex (Piece answers fits)

/-- What one place of a pattern stands for. -/
inductive Token
  | anyText
  | anyChar
  | exact (c : Char)
  | oneOf (negated : Bool) (members : List Char)
  deriving DecidableEq, Repr

namespace Token

def Takes : Token → List Char → Prop
  | anyText, _ => True
  | anyChar, part => ∃ c, part = [c]
  | exact c, part => part = [c]
  | oneOf negated members, part => ∃ c, part = [c] ∧ (c ∈ members ↔ negated = false)

def piece : Token → Piece
  | anyText => .anyText
  | anyChar => .anyChar
  | exact c => .exact c
  | oneOf negated members => .oneOf ⟨negated, members.map fun c => ⟨c, c⟩, []⟩

end Token

def Splits (tokens : List Token) (text : List Char) : Prop :=
  ∃ parts : List (List Char), text = parts.flatten ∧ List.Forall₂ Token.Takes tokens parts

theorem splits_nil {text : List Char} : Splits [] text ↔ text = [] := by
  constructor
  · rintro ⟨parts, rfl, h⟩
    rw [List.forall₂_nil_left_iff.mp h, List.flatten_nil]
  · rintro rfl
    exact ⟨[], rfl, .nil⟩

theorem splits_cons {t : Token} {ts : List Token} {text : List Char} :
    Splits (t :: ts) text ↔ ∃ part rest, text = part ++ rest ∧ t.Takes part ∧ Splits ts rest := by
  constructor
  · rintro ⟨parts, rfl, h⟩
    obtain ⟨part, parts, ht, hts, rfl⟩ := List.forall₂_cons_left_iff.mp h
    exact ⟨part, parts.flatten, List.flatten_cons, ht, parts, rfl, hts⟩
  · rintro ⟨part, rest, rfl, ht, parts, rfl, hts⟩
    exact ⟨part :: parts, List.flatten_cons.symm, .cons ht hts⟩

/-! ## One token -/

theorem has_single (a c : Char) : CharRange.has ⟨a, a⟩ c = true ↔ c = a := by
  rw [CharRange.has, Bool.and_eq_true, decide_eq_true_iff, decide_eq_true_iff]
  exact ⟨fun h => Char.le_antisymm h.2 h.1, fun h => h ▸ ⟨Char.le_refl _, Char.le_refl _⟩⟩

theorem has_singles (negated : Bool) (members : List Char) (c : Char) :
    CharSet.has ⟨negated, members.map fun c => ⟨c, c⟩, []⟩ c = true ↔ (c ∈ members ↔ negated = false) := by
  have hany : (members.map fun c => (⟨c, c⟩ : CharRange)).any (·.has c) = true ↔ c ∈ members := by
    simp only [List.any_map, List.any_eq_true, Function.comp_apply, has_single, exists_eq_right']
  rw [CharSet.has, List.any_nil, Bool.not_false, Bool.and_true, bne_iff_ne, ← hany]
  cases negated <;> simp

/-- A token other than any text takes the single characters that its piece fits. -/
theorem takes_iff_fits {t : Token} (h : t ≠ .anyText) (part : List Char) :
    t.Takes part ↔ ∃ c, part = [c] ∧ t.piece.fits c = true := by
  cases t with
  | anyText => exact absurd rfl h
  | anyChar => simp only [Token.Takes, Token.piece, Piece.fits, and_true]
  | exact d => simp only [Token.Takes, Token.piece, Piece.fits, beq_iff_eq, exists_eq_right']
  | oneOf negated members => simp only [Token.Takes, Token.piece, Piece.fits, has_singles]

theorem splits_char_cons {t : Token} (h : t ≠ .anyText) {ts : List Token} {c : Char} {text : List Char} :
    Splits (t :: ts) (c :: text) ↔ t.piece.fits c = true ∧ Splits ts text := by
  simp only [splits_cons, takes_iff_fits h]
  constructor
  · rintro ⟨_, rest, heq, ⟨d, rfl, hfits⟩, hrest⟩
    obtain ⟨rfl, rfl⟩ := List.cons.inj heq
    exact ⟨hfits, hrest⟩
  · rintro ⟨hfits, hrest⟩
    exact ⟨[c], text, rfl, ⟨c, rfl, hfits⟩, hrest⟩

theorem not_splits_char_nil {t : Token} (h : t ≠ .anyText) {ts : List Token} : ¬ Splits (t :: ts) [] := by
  simp only [splits_cons, takes_iff_fits h]
  rintro ⟨_, _, heq, ⟨_, rfl, -⟩, -⟩
  cases heq

theorem splits_anyText_cons {ts : List Token} {c : Char} {text : List Char} :
    Splits (.anyText :: ts) (c :: text) ↔ Splits ts (c :: text) ∨ Splits (.anyText :: ts) text := by
  simp only [splits_cons, Token.Takes, true_and]
  constructor
  · rintro ⟨part, rest, heq, hrest⟩
    cases part with
    | nil => exact .inl (heq ▸ hrest)
    | cons d part => exact .inr ⟨part, rest, (List.cons.inj heq).2, hrest⟩
  · rintro (h | ⟨part, rest, rfl, hrest⟩)
    · exact ⟨[], _, rfl, h⟩
    · exact ⟨c :: part, rest, rfl, hrest⟩

theorem splits_anyText_nil {ts : List Token} : Splits (.anyText :: ts) [] ↔ Splits ts [] := by
  simp only [splits_cons, Token.Takes, true_and]
  constructor
  · rintro ⟨part, rest, heq, hrest⟩
    exact (List.append_eq_nil_iff.mp heq.symm).2 ▸ hrest
  · exact fun h => ⟨[], [], rfl, h⟩

/-! ## All ends of a text -/

/-- The answers say of every end of the text whether it splits along the tokens. -/
def Answers (tokens : List Token) (text : List Char) (bs : List Bool) : Prop :=
  List.Forall₂ (fun b rest => b = true ↔ Splits tokens rest) bs text.tails

theorem Answers.headD {tokens : List Token} {text : List Char} {bs : List Bool} (h : Answers tokens text bs) :
    bs.headD false = true ↔ Splits tokens text := by
  unfold Answers at h
  cases text with
  | nil => obtain ⟨b, _, hb, -, rfl⟩ := List.forall₂_cons_right_iff.mp h; exact hb
  | cons c text => obtain ⟨b, _, hb, -, rfl⟩ := List.forall₂_cons_right_iff.mp h; exact hb

theorem Answers.nil (text : List Char) : Answers [] text (answers text []) := by
  unfold Answers
  induction text with
  | nil => exact .cons (by simp only [splits_nil]) .nil
  | cons c text ih => exact .cons (by simp only [splits_nil, reduceCtorEq, Bool.false_eq_true]) ih

theorem Answers.anyText {ts : List Token} : ∀ {text : List Char} {later : List Bool}, Answers ts text later →
    Answers (.anyText :: ts) text (Piece.anyText.answers text later)
  | [], later, h => by
    obtain ⟨b, _, hb, hnil, rfl⟩ := List.forall₂_cons_right_iff.mp h
    obtain rfl := List.forall₂_nil_right_iff.mp hnil
    exact .cons (hb.trans splits_anyText_nil.symm) .nil
  | c :: text, later, h => by
    obtain ⟨now, later, hnow, hlater, rfl⟩ := List.forall₂_cons_right_iff.mp h
    have hrest : Answers (.anyText :: ts) text (Piece.anyText.answers text later) := Answers.anyText hlater
    refine .cons ?_ hrest
    rw [Bool.or_eq_true, hnow, hrest.headD, splits_anyText_cons]

theorem Answers.char {t : Token} (ht : t ≠ .anyText) {ts : List Token} : ∀ {text : List Char} {later : List Bool},
    Answers ts text later → Answers (t :: ts) text (t.piece.answers text later)
  | [], later, _ => by
    have hanswers : t.piece.answers [] later = [false] := by cases t <;> first | exact absurd rfl ht | rfl
    rw [hanswers]
    exact .cons (by simp only [not_splits_char_nil ht, Bool.false_eq_true]) .nil
  | c :: text, later, h => by
    obtain ⟨now, later, -, hlater, rfl⟩ := List.forall₂_cons_right_iff.mp h
    have hanswers : t.piece.answers (c :: text) (now :: later) =
        (t.piece.fits c && later.headD false) :: t.piece.answers text later := by
      cases t <;> first | exact absurd rfl ht | rfl
    rw [hanswers]
    refine .cons ?_ (Answers.char ht hlater)
    rw [Bool.and_eq_true, Answers.headD hlater, splits_char_cons ht]

theorem answers_pieces (text : List Char) : ∀ tokens : List Token, Answers tokens text (answers text (tokens.map (·.piece)))
  | [] => .nil text
  | t :: ts => by
    rw [List.map_cons, answers]
    by_cases ht : t = .anyText
    · exact ht ▸ (answers_pieces text ts).anyText
    · exact (answers_pieces text ts).char ht

theorem fits_iff_splits (tokens : List Token) (text : String) :
    fits (tokens.map (·.piece)) text = true ↔ Splits tokens text.toList :=
  (answers_pieces text.toList tokens).headD

end Provenance.Glob
