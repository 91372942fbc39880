import Tabletop.Text.Hidden

/-!
# Quoted text

A text or a character quoted for a message: it stands between quotes, and a character that would
end the quotation or would not be seen is written by an escape. The usual controls have short
escapes, all others are written by their code point in hexadecimal.
-/

namespace Tabletop.Text

/-- One character of a quotation that ends with `mark`. -/
def escape (mark c : Char) : String :=
  if c == '\n' then "\\n"
  else if c == '\r' then "\\r"
  else if c == '\t' then "\\t"
  else if c == '\x00' then "\\0"
  else if c == '\\' || c == mark then "\\" ++ c.toString
  else if isHidden c then "\\u\x7b" ++ String.ofList (Nat.toDigits 16 c.toNat) ++ "\x7d"
  else c.toString

/-- The text between double quotes. -/
def quoted (s : String) : String :=
  "\"" ++ String.join (s.toList.map (escape '"')) ++ "\""

/-- The character between single quotes. -/
def quotedChar (c : Char) : String :=
  "'" ++ escape '\'' c ++ "'"

example : quoted "a\"b'\n\u00ad" = "\"a\\\"b'\\n\\u\x7bad\x7d\"" := by decide +kernel
example : quotedChar '\'' = "'\\''" := by decide +kernel

end Tabletop.Text
