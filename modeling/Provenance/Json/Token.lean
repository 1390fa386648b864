import Provenance.Json.Basic

/-!
# JSON tokens

The characters of a text are taken in one by one; what has been begun and not
yet ended is the state of the lexer.
-/

namespace Provenance.Json

inductive Token
  | openArr
  | closeArr
  | openObj
  | closeObj
  | colon
  | comma
  | text (s : String)
  | scalar (j : Json)

/-! ## Numbers -/

structure Numeral where
  negative : Bool
  whole : List Char
  fraction : Option (List Char)
  exponent : Option (Bool × List Char)

def digitsOf (cs : List Char) : Nat :=
  cs.foldl (fun n c => 10 * n + (c.toNat - 48)) 0

def areDigits (cs : List Char) : Bool :=
  !cs.isEmpty && cs.all Char.isDigit

/-- Zero in front of other digits is not allowed. -/
def Numeral.isWellFormed (n : Numeral) : Bool :=
  areDigits n.whole && (n.whole.head? != some '0' || n.whole.length == 1)
    && n.fraction.all areDigits && n.exponent.all fun e => areDigits e.2

def isMark (c : Char) : Bool :=
  c == 'e' || c == 'E'

def exponentOf : List Char → Option (Bool × List Char)
  | [] => none
  | _ :: '+' :: rest => some (false, rest)
  | _ :: '-' :: rest => some (true, rest)
  | _ :: rest => some (false, rest)

def Numeral.ofChars (cs : List Char) : Numeral :=
  let negative := cs.head? == some '-'
  let cs := if negative then cs.drop 1 else cs
  let body := cs.takeWhile fun c => !isMark c
  { negative := negative
    whole := body.takeWhile (· != '.')
    fraction := match body.dropWhile (· != '.') with
      | [] => none
      | _ :: rest => some rest
    exponent := exponentOf (cs.dropWhile fun c => !isMark c) }

/-- The floating point number nearest to `digits * 10 ^ exponent`. Exponents far beyond the range
need no exact treatment. -/
def nearest (negative : Bool) (digits : Nat) (exponent : Int) : Binary64 :=
  let size := exponent + (Nat.toDigits 10 digits).length
  let x : Float :=
    if digits = 0 || size < -400 then 0.0
    else if 400 < size then 1.0 / 0.0
    else if 0 ≤ exponent then Float.ofScientific digits false exponent.toNat
    else Float.ofScientific digits true (-exponent).toNat
  if negative then -.ofFloat x else .ofFloat x

/-- A number too large to be a floating point number is refused. -/
def Numeral.json? (n : Numeral) : Option Json :=
  if !n.isWellFormed then none
  else
    let fraction := n.fraction.getD []
    let power : Int := match n.exponent with
      | none => 0
      | some (true, ds) => -(digitsOf ds : Int)
      | some (false, ds) => digitsOf ds
    let x := nearest n.negative (digitsOf (n.whole ++ fraction)) (power - fraction.length)
    let k : Int := if n.negative then -(digitsOf n.whole : Int) else digitsOf n.whole
    let isWhole := n.fraction.isNone && n.exponent.isNone && !(n.negative && k == 0)
    if isWhole && -0x8000000000000000 ≤ k && k < UInt64.size then some (.int k)
    else if x.isFinite then some (.float x)
    else none

/-! ## The lexer -/

/-- Inside a text, `high` is the first half of a character that is given in two. -/
inductive LexState
  | between
  | inText (high : Option Nat) (rev : List Char)
  | escaped (high : Option Nat) (rev : List Char)
  | hex (high : Option Nat) (rev : List Char) (left value : Nat)
  | inNumber (rev : List Char)
  | inWord (rev : List Char)

structure Lexer where
  state : LexState
  rev : List Token

def Lexer.start : Lexer :=
  ⟨.between, []⟩

def isBlank (c : Char) : Bool :=
  c == ' ' || c == '\t' || c == '\n' || c == '\r'

def isNumberChar (c : Char) : Bool :=
  c.isDigit || c == '-' || c == '+' || c == '.' || isMark c

def word? (cs : List Char) : Option Json :=
  let s := String.ofList cs
  if s = "null" then some .null
  else if s = "true" then some (.bool true)
  else if s = "false" then some (.bool false)
  else none

def lexBetween (c : Char) (rev : List Token) : Option Lexer :=
  if isBlank c then some ⟨.between, rev⟩
  else if c == '[' then some ⟨.between, .openArr :: rev⟩
  else if c == ']' then some ⟨.between, .closeArr :: rev⟩
  else if c.toNat == 123 then some ⟨.between, .openObj :: rev⟩
  else if c.toNat == 125 then some ⟨.between, .closeObj :: rev⟩
  else if c == ':' then some ⟨.between, .colon :: rev⟩
  else if c == ',' then some ⟨.between, .comma :: rev⟩
  else if c == '"' then some ⟨.inText none [], rev⟩
  else if c == '-' || c.isDigit then some ⟨.inNumber [c], rev⟩
  else if c.isAlpha then some ⟨.inWord [c], rev⟩
  else none

def escapedChar? (c : Char) : Option Char :=
  if c == '"' || c == '\\' || c == '/' then some c
  else if c == 'b' then some (Char.ofNat 8)
  else if c == 'f' then some (Char.ofNat 12)
  else if c == 'n' then some '\n'
  else if c == 'r' then some '\r'
  else if c == 't' then some '\t'
  else none

def hexValue? (c : Char) : Option Nat :=
  if c.isDigit then some (c.toNat - 48)
  else if 'a' ≤ c && c ≤ 'f' then some (c.toNat - 87)
  else if 'A' ≤ c && c ≤ 'F' then some (c.toNat - 55)
  else none

/-- A character given by its number, which may be half of one. -/
def lexUnit (high : Option Nat) (rev : List Char) (n : Nat) : Option LexState :=
  match high with
  | some h =>
    if 0xDC00 ≤ n && n ≤ 0xDFFF then
      some (.inText none (Char.ofNat (0x10000 + (h - 0xD800) * 1024 + (n - 0xDC00)) :: rev))
    else none
  | none =>
    if 0xD800 ≤ n && n ≤ 0xDBFF then some (.inText (some n) rev)
    else if 0xDC00 ≤ n && n ≤ 0xDFFF then none
    else some (.inText none (Char.ofNat n :: rev))

def lex (l : Lexer) (c : Char) : Option Lexer :=
  match l.state with
  | .between => lexBetween c l.rev
  | .inText high rev =>
    if c == '\\' then some ⟨.escaped high rev, l.rev⟩
    else if high.isSome then none
    else if c == '"' then some ⟨.between, .text (String.ofList rev.reverse) :: l.rev⟩
    else if c.toNat < 32 then none
    else some ⟨.inText none (c :: rev), l.rev⟩
  | .escaped high rev =>
    if c == 'u' then some ⟨.hex high rev 4 0, l.rev⟩
    else if high.isSome then none
    else (escapedChar? c).map fun d => ⟨.inText none (d :: rev), l.rev⟩
  | .hex high rev left value =>
    match hexValue? c with
    | none => none
    | some d =>
      let value := 16 * value + d
      if left = 1 then (lexUnit high rev value).map fun s => ⟨s, l.rev⟩
      else some ⟨.hex high rev (left - 1) value, l.rev⟩
  | .inNumber rev =>
    if isNumberChar c then some ⟨.inNumber (c :: rev), l.rev⟩
    else
      match (Numeral.ofChars rev.reverse).json? with
      | none => none
      | some j => lexBetween c (.scalar j :: l.rev)
  | .inWord rev =>
    if c.isAlpha then some ⟨.inWord (c :: rev), l.rev⟩
    else
      match word? rev.reverse with
      | none => none
      | some j => lexBetween c (.scalar j :: l.rev)

def lexAll : List Char → Lexer → Option Lexer
  | [], l => some l
  | c :: rest, l =>
    match lex l c with
    | none => none
    | some l' => lexAll rest l'

/-- The tokens of a text. A blank behind it ends what its last character began. -/
def tokens? (s : String) : Option (List Token) :=
  match (lexAll s.toList .start).bind fun l => lex l ' ' with
  | some ⟨.between, rev⟩ => some rev.reverse
  | _ => none

end Provenance.Json
