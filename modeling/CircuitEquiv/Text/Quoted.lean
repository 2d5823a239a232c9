-- SUMMARY: Texts between double quotes with the characters that cannot be shown escaped.
import CircuitEquiv.Text.Printable

/-!
# Quoted texts

A text between double quotes. Quotes, backslashes, line breaks, tabs and the null character have
escapes of their own; characters that do not stand alone are written by number.
-/

namespace CircuitEquiv

/-- The lower-case hexadecimal digits of a number. -/
def hexText (n : Nat) : String := String.ofList (Nat.toDigits 16 n)

/-- A character inside a quoted text. -/
def quotedChar (c : Char) : String :=
  if c = '\x00' then "\\0"
  else if c = '\t' then "\\t"
  else if c = '\n' then "\\n"
  else if c = '\r' then "\\r"
  else if c = '"' then "\\\""
  else if c = '\\' then "\\\\"
  else if standsAlone c then c.toString
  else "\\u\x7b" ++ hexText c.toNat ++ "\x7d"

/-- The text between double quotes, escaped. -/
def quotedText (s : String) : String :=
  "\"" ++ String.join (s.toList.map quotedChar) ++ "\""

end CircuitEquiv
