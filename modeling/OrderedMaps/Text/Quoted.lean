import OrderedMaps.Text.Unprintable

/-!
# Quoted strings

The written form of a string: the string in quotes, with the characters that would be mistaken or
not be seen written as escapes.

* `escapeChar`: the written form of one character.
* `quote`: the written form of a string.
-/

namespace OrderedMaps.Text

/-- The written form of a character inside quotes: short escapes for five controls and marks, the
hexadecimal number for other unprintable characters, and any other character as it is. The
quotes being double ones, a single one is written as it is. -/
def escapeChar (c : Char) : String :=
  if c = '\x00' then "\\0"
  else if c = '\t' then "\\t"
  else if c = '\n' then "\\n"
  else if c = '\r' then "\\r"
  else if c = '"' then "\\\""
  else if c = '\\' then "\\\\"
  else if isUnprintable c then
    "\\u\x7b" ++ String.ofList (Nat.toDigits 16 c.toNat) ++ "\x7d"
  else c.toString

/-- The written form of a string. -/
def quote (s : String) : String :=
  "\"" ++ String.join (s.toList.map escapeChar) ++ "\""

end OrderedMaps.Text
