import Provenance.Glob

/-!
# Regular expressions

An engine for the expressions that glob patterns are written as: a row of
pieces, each of which stands for any text, for any character, for one
character, or for one of a class. A class is a list of members. `a-b` is a
range, and `--` takes what follows it away from what comes before; dashes in
front, and characters behind a backslash, are members.
-/

namespace Provenance

structure CharRange where
  low : Char
  high : Char
  deriving DecidableEq, Repr

def CharRange.has (r : CharRange) (c : Char) : Bool :=
  r.low ≤ c && c ≤ r.high

/-- The characters in `kept` and in no part of `removed`, or all others. -/
structure CharSet where
  negated : Bool
  kept : List CharRange
  removed : List (List CharRange)
  deriving DecidableEq, Repr

def CharSet.has (s : CharSet) (c : Char) : Bool :=
  (s.kept.any (·.has c) && !s.removed.any fun part => part.any (·.has c)) != s.negated

namespace Regex

inductive Piece
  | anyText
  | anyChar
  | exact (c : Char)
  | oneOf (s : CharSet)
  deriving DecidableEq, Repr

/-! ## Classes -/

/-- What a class is written with: characters that stand for themselves, and dashes that may not. -/
inductive ClassItem
  | member (c : Char)
  | dash
  deriving DecidableEq, Repr

def ClassItem.char : ClassItem → Char
  | member c => c
  | dash => '-'

def ClassItem.single (i : ClassItem) : CharRange :=
  ⟨i.char, i.char⟩

/-- The items of a class, and what comes after the bracket that closes it. -/
def items? : List Char → Option (List ClassItem × List Char)
  | [] => none
  | ']' :: after => some ([], after)
  | '\\' :: c :: rest => (items? rest).map fun p => (.member c :: p.1, p.2)
  | '-' :: rest => (items? rest).map fun p => (.dash :: p.1, p.2)
  | c :: rest => (items? rest).map fun p => (.member c :: p.1, p.2)

/-- The ranges of a class, part by part, or `none` if a range runs backwards. -/
def parts? : List ClassItem → List CharRange → Option (List (List CharRange))
  | [], part => some [part.reverse]
  | .dash :: .dash :: rest, part => (parts? rest []).map (part.reverse :: ·)
  | i :: .dash :: .dash :: rest, part => (parts? rest []).map ((i.single :: part).reverse :: ·)
  | i :: .dash :: j :: rest, part =>
    if i.char ≤ j.char then parts? rest (⟨i.char, j.char⟩ :: part) else none
  | i :: rest, part => parts? rest (i.single :: part)

def set? (negated : Bool) (items : List ClassItem) : Option CharSet :=
  let dashes := items.takeWhile (· == .dash)
  match parts? (items.dropWhile (· == .dash)) (dashes.map ClassItem.single) with
  | some (kept :: removed) => some ⟨negated, kept, removed⟩
  | _ => none

/-! ## Reading -/

/-- The characters that have a meaning of their own in an expression, and may follow a
backslash. -/
def operators : List Char :=
  ['\\', '.', '+', '*', '?', '(', ')', '|', '[', ']', '\x7b', '\x7d', '^', '$', '#', '&', '-', '~']

/-- Reads what comes after the anchor in front, of at most `n` characters. -/
def pieces? : Nat → List Char → Option (List Piece)
  | 0, _ => none
  | _, [] => none
  | _, ['$'] => some []
  | n + 1, '.' :: '*' :: rest => (pieces? n rest).map (.anyText :: ·)
  | n + 1, '.' :: rest => (pieces? n rest).map (.anyChar :: ·)
  | n + 1, '[' :: '^' :: rest => do
    let (items, after) ← items? rest
    let s ← set? true items
    (pieces? n after).map (.oneOf s :: ·)
  | n + 1, '[' :: rest => do
    let (items, after) ← items? rest
    let s ← set? false items
    (pieces? n after).map (.oneOf s :: ·)
  | n + 1, '\\' :: c :: rest => (pieces? n rest).map (.exact c :: ·)
  | n + 1, c :: rest => if c ∈ operators then none else (pieces? n rest).map (.exact c :: ·)

/-! ## Matching -/

def Piece.fits : Piece → Char → Bool
  | anyText, _ => true
  | anyChar, _ => true
  | exact d, c => d == c
  | oneOf s, c => s.has c

/-- From the answers for the ends of a text behind a piece, longest end first, the answers with
the piece in front. -/
def Piece.answers (p : Piece) : List Char → List Bool → List Bool
  | c :: text, now :: later =>
    match p with
    | anyText =>
      let rest := answers p text later
      (now || rest.headD false) :: rest
    | _ => (p.fits c && later.headD false) :: answers p text later
  | _, later =>
    match p with
    | anyText => later
    | _ => [false]

def answers (text : List Char) : List Piece → List Bool
  | [] => text.map (fun _ => false) ++ [true]
  | p :: ps => p.answers text (answers text ps)

def fits (ps : List Piece) (text : String) : Bool :=
  (answers text.toList ps).headD false

def escape (c : Char) : String :=
  if c ∈ operators then String.ofList ['\\', c] else String.ofList [c]

def search? (expression text : String) : Option Bool :=
  match expression.toList with
  | '(' :: '?' :: 's' :: ')' :: '^' :: rest =>
    (pieces? rest.length rest).map fun ps => fits ps text
  | _ => none

def engine : Glob.Engine :=
  ⟨escape, search?⟩

end Regex

end Provenance
