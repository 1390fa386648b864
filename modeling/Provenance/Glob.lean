/-!
# Glob patterns

A pattern is written as a regular expression, and an engine for these decides
whether a text has a match of it. `*` stands for any text, `?` for any
character, a backslash makes the next character stand for itself, and a closed
bracket stands for one character of a set. All other characters stand for
themselves, as does a bracket that never closes and a backslash at the end.
-/

namespace Provenance.Glob

/-- A regular expression engine: how it writes a character that stands for itself, and whether a
text has a match of an expression, if that is valid. -/
structure Engine where
  escape : Char → String
  search? : String → String → Option Bool

/-! ## Brackets -/

/-- The characters that are written with a backslash in a class of a regular expression. -/
def classEscapes : List Char :=
  ['\\', '[', ']', '^', '&', '~']

def classMember (c : Char) : List Char :=
  if c ∈ classEscapes then ['\\', c] else [c]

/-- A class from its first or a later member up to the bracket that closes it, and the bytes
that were read for it. A bracket in first place is a member. -/
def classMembers? : Bool → List Char → Option (List Char × Nat)
  | _, [] => none
  | first, c :: rest =>
    if c = ']' ∧ first = false then some ([']'], 1)
    else (classMembers? false rest).map fun p => (classMember c ++ p.1, c.utf8Size + p.2)

def class? : List Char → Option (List Char × Nat)
  | '!' :: rest => (classMembers? true rest).map fun p => ('[' :: '^' :: p.1, 1 + p.2)
  | rest => (classMembers? true rest).map fun p => ('[' :: p.1, p.2)

/-- What comes after so many bytes, if these do not end inside a character. -/
def dropBytes? : Nat → List Char → Option (List Char)
  | 0, text => some text
  | _ + 1, [] => none
  | n + 1, c :: text =>
    if c.utf8Size ≤ n + 1 then dropBytes? (n + 1 - c.utf8Size) text else none

/-! ## Patterns -/

/-- Writes a pattern of at most `n` characters. -/
def body? (escape : Char → String) : Nat → List Char → Option (List Char)
  | 0, _ => some []
  | _, [] => some []
  | n + 1, '*' :: rest => (body? escape n rest).map (['.', '*'] ++ ·)
  | n + 1, '?' :: rest => (body? escape n rest).map (['.'] ++ ·)
  | _, ['\\'] => some ['\\', '\\']
  | n + 1, '\\' :: c :: rest => (body? escape n rest).map ((escape c).toList ++ ·)
  | n + 1, '[' :: rest =>
    match class? rest with
    | some (text, consumed) =>
      (dropBytes? consumed rest).bind fun after => (body? escape n after).map (text ++ ·)
    | none => (body? escape n rest).map (['\\', '['] ++ ·)
  | n + 1, c :: rest => (body? escape n rest).map ((escape c).toList ++ ·)

/-- A dot stands for every character, and the expression for a whole text. -/
def anchored (body : List Char) : String :=
  "(?s)^" ++ String.ofList body ++ "$"

def expression? (escape : Char → String) (pattern : String) : Option String :=
  (body? escape pattern.length pattern.toList).map anchored

def Engine.matches? (engine : Engine) (pattern text : String) : Option Bool :=
  (expression? engine.escape pattern).bind fun expression => engine.search? expression text

end Provenance.Glob
