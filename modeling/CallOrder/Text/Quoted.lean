/-
Texts and characters as they are quoted in messages.

A quoted text can be read back: the quote that bounds it, the backslash and the four common
controls are written with a backslash, and every character that would leave no mark, or would
change the look of its neighbour, is written by its number.  All else stands for itself.
-/
import CallOrder.Text.Combining
import CallOrder.Text.Invisible

namespace CallOrder.Text

/-- Whether a character is shown as it is: above ASCII the tables decide. -/
def isShown (c : Char) : Bool :=
  if c.toNat < 0x80 then 0x20 ≤ c.toNat && c.toNat < 0x7f
  else !isInvisible c.toNat && !isCombining c.toNat

/-- A number in hexadecimal digits, the letters small, without padding. -/
def hexadecimal (n : Nat) : String :=
  String.ofList (Nat.toDigits 16 n)

/-- One character inside quotes: `quote` is the mark that bounds the text. -/
def quotedChar (quote c : Char) : String :=
  if c = '\x00' then "\\0"
  else if c = '\t' then "\\t"
  else if c = '\r' then "\\r"
  else if c = '\n' then "\\n"
  else if c = '\\' then "\\\\"
  else if c = quote then "\\" ++ c.toString
  else if isShown c then c.toString
  else "\\u\x7b" ++ hexadecimal c.toNat ++ "\x7d"

/-- A text between double quotes. -/
def quoted (s : String) : String :=
  "\"" ++ String.join (s.toList.map (quotedChar '"')) ++ "\""

/-- A character between single quotes. -/
def quotedSingle (c : Char) : String :=
  "'" ++ quotedChar '\'' c ++ "'"

end CallOrder.Text
