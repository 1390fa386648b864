/-!
# Quoted text

A string in quotes, spelled in printable ASCII: newline and tab have short
forms, every other byte outside that range is given by its two hexadecimal
digits, and all else stands for itself.
-/

namespace Provenance.Quoted

def hexDigit (n : Nat) : Char :=
  if n < 10 then Char.ofNat (48 + n) else Char.ofNat (87 + n)

def escape (b : UInt8) : List Char :=
  if b = 10 then ['\\', 'n']
  else if b = 9 then ['\\', 't']
  else if 32 ≤ b ∧ b ≤ 126 then [Char.ofNat b.toNat]
  else ['\\', '(', hexDigit (b.toNat / 16), hexDigit (b.toNat % 16), ')']

def text (s : String) : String :=
  "\"" ++ String.ofList (s.toUTF8.data.toList.flatMap escape) ++ "\""

end Provenance.Quoted
