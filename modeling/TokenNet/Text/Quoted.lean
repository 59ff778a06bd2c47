import TokenNet.Text.Unprintable

/-!
# Quoted names

Names of places and transitions stand in messages between double quotes.  A quote and a backslash get a backslash, four
control characters have a letter, and every other unprintable character is written as its code point.
-/

namespace TokenNet.Text

/-- The code point of a character in lower-case hexadecimal, as in `\u007f` with braces and no leading zero. -/
def codePoint (c : Char) : List Char :=
  "\\u\x7b".toList ++ Nat.toDigits 16 c.toNat ++ "\x7d".toList

def quotedChar (c : Char) : List Char :=
  if c = '"' then "\\\"".toList
  else if c = '\\' then "\\\\".toList
  else if c = '\t' then "\\t".toList
  else if c = '\r' then "\\r".toList
  else if c = '\n' then "\\n".toList
  else if c = '\x00' then "\\0".toList
  else if isUnprintable c then codePoint c
  else [c]

def quoted (s : String) : String :=
  "\"" ++ String.ofList (s.toList.flatMap quotedChar) ++ "\""

end TokenNet.Text
