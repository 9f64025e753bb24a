import Reckon.Text.Hidden

/-!
# Quoted names

A name is shown between double quotes. A quote or a backslash in it follows a backslash, and a
character that would not be seen is shown by its escape.
-/

namespace Reckon

/-- The escape of a hidden character: a letter if it has one, else its code between braces. -/
def hiddenEscape (c : Char) : String :=
  if c = '\n' then "\\n"
  else if c = '\r' then "\\r"
  else if c = '\t' then "\\t"
  else if c.toNat = 0 then "\\0"
  else "\\u\x7b" ++ String.ofList (Nat.toDigits 16 c.toNat) ++ "\x7d"

/-- A character inside quotes. -/
def quotedChar (c : Char) : String :=
  if c = '"' || c = '\\' then String.ofList ['\\', c]
  else if isHidden c then hiddenEscape c
  else c.toString

/-- A name between double quotes. -/
def quotedName (name : String) : String :=
  "\"" ++ String.join (name.toList.map quotedChar) ++ "\""

end Reckon
