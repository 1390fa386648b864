import Provenance.Number.Binary64

/-!
# Shortest decimals

A finite floating point number stands for every real that rounds to it. `Shortest.digits`
finds, on the coarsest decimal grid that meets this interval, the grid point
nearest to the number; so the decimal reads back as the same number and no
decimal with fewer digits does. `Shortest.text` writes it positionally.
-/

namespace Provenance.Shortest

/-- The number `digits * 10 ^ exponent`. -/
structure Decimal where
  digits : Nat
  exponent : Int
  deriving DecidableEq, Repr

/-- A positive number and the ends of its rounding interval over one denominator; `closed` says
whether the ends themselves round to the number. -/
structure Interval where
  low : Nat
  mid : Nat
  high : Nat
  denom : Nat
  closed : Bool
  deriving DecidableEq, Repr

/-- The gap below a power of two is half the gap above it, save at the least exponent. -/
def interval (mantissa : Nat) (exponent : Int) : Interval :=
  let up := 1 <<< exponent.toNat
  let below := if mantissa = 0x10000000000000 ∧ exponent ≠ -1074 then 1 else 2
  { low := (4 * mantissa - below) * up
    mid := 4 * mantissa * up
    high := (4 * mantissa + 2) * up
    denom := 4 <<< (-exponent).toNat
    closed := mantissa % 2 == 0 }

def digitCount (n : Nat) : Nat :=
  (Nat.toDigits 10 n).length

namespace Interval

/-- The `k` with `10 ^ (k - 1) ≤ mid / denom < 10 ^ k`. -/
def magnitude (i : Interval) : Int :=
  if i.denom ≤ i.mid then digitCount (i.mid / i.denom)
  else 1 - (digitCount ((i.denom - 1) / i.mid) : Int)

/-- The point of the grid with `n` digits that lies in the interval and nearest to its number,
the upper one of two that are equally near. -/
def onGrid? (i : Interval) (n : Nat) : Option Decimal :=
  let k := i.magnitude
  let e := k - n
  let unit := i.denom * Nat.pow 10 e.toNat
  let scale := Nat.pow 10 (-e).toNat
  let mid := i.mid * scale
  let inside (c : Nat) : Bool :=
    if i.closed then i.low * scale ≤ c * unit && c * unit ≤ i.high * scale
    else i.low * scale < c * unit && c * unit < i.high * scale
  let point (c : Nat) : Decimal := if c = Nat.pow 10 n then ⟨1, k⟩ else ⟨c, e⟩
  let c := mid / unit
  if inside c && inside (c + 1) then
    if (c + 1) * unit - mid ≤ mid - c * unit then some (point (c + 1)) else some (point c)
  else if inside c then some (point c)
  else if inside (c + 1) then some (point (c + 1))
  else none

end Interval

/-- Seventeen digits always suffice. -/
def digits (mantissa : Nat) (exponent : Int) : Decimal :=
  let i := interval mantissa exponent
  ((List.range 17).findSome? fun n => i.onGrid? (n + 1)).getD ⟨0, 0⟩

def Decimal.positional (d : Decimal) : String :=
  let ds := Nat.toDigits 10 d.digits
  if 0 ≤ d.exponent then String.ofList (ds ++ List.replicate d.exponent.toNat '0')
  else
    let places := (-d.exponent).toNat
    let padded := List.replicate (places + 1 - ds.length) '0' ++ ds
    let whole := padded.length - places
    String.ofList (padded.take whole ++ '.' :: padded.drop whole)

/-- Whole numbers have no point, zero keeps its sign, and no exponent is ever written. -/
def text (x : Binary64) : String :=
  let sign := if x.isNegative then "-" else ""
  match x.finite? with
  | none => if x.isNaN then "NaN" else sign ++ "inf"
  | some p =>
    if p.mantissa = 0 then sign ++ "0"
    else sign ++ (digits p.mantissa p.exponent).positional

end Provenance.Shortest
