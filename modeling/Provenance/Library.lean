import Provenance.Calendar
import Provenance.Regex

/-!
# Libraries

What evaluation leaves to libraries: regular expressions, and the calendar.
-/

namespace Provenance

structure Library where
  engine : Glob.Engine
  /-- The text of a moment, in seconds since the first second of 1970, if it has a date. -/
  calendar? : Int → Option String

def Library.standard : Library :=
  ⟨Regex.engine, Calendar.text?⟩

end Provenance
