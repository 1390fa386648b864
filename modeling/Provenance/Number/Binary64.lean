/-!
# Binary floating point

A floating point number is its 64 bits: a sign, eleven bits of exponent and the
fraction. Some bits stand for no number (NaN). They carry a sign as well, which
arithmetic keeps and the order shows: it has the negative ones before all
numbers and the positive ones behind them.

The four basic operations round to nearest. A finite number is an integer times
a power of two: `finite?` takes it apart, `ofParts` puts such a number together
again, and `remainder` is computed on the parts in whole numbers and hence
without any rounding.
-/

namespace Provenance

structure Binary64 where
  bits : UInt64
  deriving DecidableEq, Repr, Inhabited

namespace Binary64

/-! ## The parts of a number -/

def isNegative (x : Binary64) : Bool :=
  x.bits >>> 63 == 1

/-- All bits but the sign. Among numbers of one sign it grows with the amount. -/
def magnitude (x : Binary64) : Nat :=
  (x.bits &&& 0x7FFFFFFFFFFFFFFF).toNat

def fractionBits (x : Binary64) : Nat :=
  (x.bits &&& 0xFFFFFFFFFFFFF).toNat

def exponentBits (x : Binary64) : Nat :=
  ((x.bits >>> 52) &&& 0x7FF).toNat

def isNaN (x : Binary64) : Bool :=
  exponentBits x == 2047 && fractionBits x != 0

def isFinite (x : Binary64) : Bool :=
  exponentBits x != 2047

def isZero (x : Binary64) : Bool :=
  x.magnitude == 0

/-- The number `mantissa * 2 ^ exponent`, negated when `negative`. -/
structure Parts where
  negative : Bool
  mantissa : Nat
  exponent : Int
  deriving DecidableEq, Repr

/-- The parts of a finite number; the least exponent is that of the numbers near zero, which
drop the leading bit. -/
def finite? (x : Binary64) : Option Parts :=
  if exponentBits x = 2047 then none
  else if exponentBits x = 0 then some ⟨isNegative x, fractionBits x, -1074⟩
  else some ⟨isNegative x, 0x10000000000000 + fractionBits x, (exponentBits x : Int) - 1075⟩

/-- The number with the given parts, exact when the mantissa is below `2 ^ 53` and the exponent
at least `-1074` and the number is in range. The mantissa is shifted up until its leading bit
is in place or the least exponent is reached. -/
def ofParts (p : Parts) : Binary64 :=
  let sign : Nat := if p.negative then 0x8000000000000000 else 0
  if p.mantissa = 0 then ⟨UInt64.ofNat sign⟩
  else
    let shift := min (52 - p.mantissa.log2) (p.exponent + 1074).toNat
    let m := p.mantissa <<< shift
    let e := (p.exponent + 1075).toNat - shift
    let bits := if m < 0x10000000000000 then m else (e <<< 52) + (m - 0x10000000000000)
    ⟨UInt64.ofNat (sign + bits)⟩

/-! ## Arithmetic -/

/-- What an operation yields that has no result, such as the difference of two infinities. -/
def invalid : Binary64 :=
  ⟨0xFFF8000000000000⟩

def toFloat (x : Binary64) : Float :=
  Float.ofBits x.bits

def ofFloat (x : Float) : Binary64 :=
  if x.isNaN then invalid else ⟨x.toBits⟩

def ofInt (n : Int) : Binary64 :=
  ofFloat (Float.ofInt n)

/-- An operation on two numbers. An operand that is no number is the result, the left one if
both are none. -/
def combine (f : Binary64 → Binary64 → Binary64) (a b : Binary64) : Binary64 :=
  if a.isNaN then a else if b.isNaN then b else f a b

def rounded (f : Float → Float → Float) (a b : Binary64) : Binary64 :=
  ofFloat (f a.toFloat b.toFloat)

instance : Add Binary64 := ⟨combine (rounded (· + ·))⟩
instance : Sub Binary64 := ⟨combine (rounded (· - ·))⟩
instance : Mul Binary64 := ⟨combine (rounded (· * ·))⟩
instance : Div Binary64 := ⟨combine (rounded (· / ·))⟩

instance : Neg Binary64 := ⟨fun x => ⟨x.bits ^^^ 0x8000000000000000⟩⟩

/-- The remainder of the division that rounds toward zero: of the sign of `x` and smaller than
`y` in absolute value. -/
def remainderOf (x y : Binary64) : Binary64 :=
  match finite? x, finite? y with
  | some a, some b =>
    if b.mantissa = 0 then invalid
    else
      let e := min a.exponent b.exponent
      let m := a.mantissa <<< (a.exponent - e).toNat
      let n := b.mantissa <<< (b.exponent - e).toNat
      ofParts ⟨a.negative, m % n, e⟩
  | some _, none => x
  | none, _ => invalid

instance : Mod Binary64 := ⟨combine remainderOf⟩

/-! ## Order -/

/-- Where a number stands in the order, in which the two zeros share a place. -/
def rank (x : Binary64) : Int :=
  if x.isNegative then -(x.magnitude : Int) else x.magnitude

/-- The order for sorting. What is no number has a place at either end. -/
def compare (a b : Binary64) : Ordering :=
  Ord.compare a.rank b.rank

def equals (a b : Binary64) : Bool :=
  !a.isNaN && !b.isNaN && a.rank == b.rank

def less (a b : Binary64) : Bool :=
  !a.isNaN && !b.isNaN && a.rank < b.rank

end Binary64

end Provenance
