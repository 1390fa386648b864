/-!
# Calendar text of a moment

A moment is given in seconds since the first second of 1970, and is written
with its day of the week and date in the Gregorian calendar, which is taken to
hold for all years, and its time of day.
-/

namespace Provenance.Calendar

structure Date where
  year : Int
  month : Nat
  day : Nat
  deriving DecidableEq, Repr

/-- The date of a day counted from the first of January 1970. Years are counted from March in
cycles of four hundred, so that the leap day comes last and every cycle has as many days. -/
def Date.ofDays (days : Int) : Date :=
  let z := days + 719468
  let cycle := z.fdiv 146097
  let dayOfCycle := (z.fmod 146097).toNat
  let yearOfCycle :=
    (dayOfCycle - dayOfCycle / 1460 + dayOfCycle / 36524 - dayOfCycle / 146096) / 365
  let dayOfYear := dayOfCycle - (365 * yearOfCycle + yearOfCycle / 4 - yearOfCycle / 100)
  let shifted := (5 * dayOfYear + 2) / 153
  let month := if shifted < 10 then shifted + 3 else shifted - 9
  { year := yearOfCycle + cycle * 400 + (if month ≤ 2 then 1 else 0)
    month := month
    day := dayOfYear - (153 * shifted + 2) / 5 + 1 }

def weekdayName (days : Int) : String :=
  match ((days + 4).fmod 7).toNat with
  | 0 => "Sun"
  | 1 => "Mon"
  | 2 => "Tue"
  | 3 => "Wed"
  | 4 => "Thu"
  | 5 => "Fri"
  | _ => "Sat"

def monthName : Nat → String
  | 1 => "Jan"
  | 2 => "Feb"
  | 3 => "Mar"
  | 4 => "Apr"
  | 5 => "May"
  | 6 => "Jun"
  | 7 => "Jul"
  | 8 => "Aug"
  | 9 => "Sep"
  | 10 => "Oct"
  | 11 => "Nov"
  | _ => "Dec"

def padded (fill : Char) (width n : Nat) : String :=
  let ds := Nat.toDigits 10 n
  String.ofList (List.replicate (width - ds.length) fill ++ ds)

/-- At least four digits, and a sign outside the years 0 to 9999. -/
def yearText (y : Int) : String :=
  if y < 0 then "-" ++ padded '0' 4 y.natAbs
  else if 9999 < y then "+" ++ padded '0' 4 y.natAbs
  else padded '0' 4 y.natAbs

/-- The moments that have a date: those of the years -262143 to 262142. -/
def inRange (seconds : Int) : Bool :=
  -8334601228800 ≤ seconds && seconds ≤ 8210266876799

def text? (seconds : Int) : Option String :=
  if inRange seconds then
    let days := seconds.fdiv 86400
    let clock := (seconds.fmod 86400).toNat
    let date := Date.ofDays days
    some (weekdayName days ++ " " ++ monthName date.month ++ " " ++ padded ' ' 2 date.day ++ " "
      ++ padded '0' 2 (clock / 3600) ++ ":" ++ padded '0' 2 (clock / 60 % 60) ++ ":"
      ++ padded '0' 2 (clock % 60) ++ " " ++ yearText date.year)
  else none

end Provenance.Calendar
