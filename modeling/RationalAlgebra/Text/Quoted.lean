import RationalAlgebra.Text.Unprintable

/-!
# Quoted text

How a text or a single character is shown inside a message: between quotes, with short escapes for
tab, carriage return, line feed, NUL and the backslash, and the code point in hexadecimal for every
other character that has no picture of its own. A text escapes the double quote and a character the
single quote; each leaves the other quote alone.
-/

namespace RationalAlgebra.Text

/-- The code point of a character as a braced hexadecimal escape, without padding. -/
def codeEscape (c : Char) : List Char :=
  '\\' :: 'u' :: '\x7b' :: (Nat.toDigits 16 c.toNat ++ ['\x7d'])

/-- The characters that stand for `c` between a pair of the given quotes. -/
def escape (quote c : Char) : List Char :=
  if c = quote ∨ c = '\\' then ['\\', c]
  else if c = '\t' then ['\\', 't']
  else if c = '\r' then ['\\', 'r']
  else if c = '\n' then ['\\', 'n']
  else if c = '\x00' then ['\\', '0']
  else if isShown c then [c]
  else codeEscape c

/-- A text between double quotes. -/
def quoted (text : List Char) : String :=
  String.ofList ('"' :: (text.flatMap (escape '"') ++ ['"']))

/-- A character between single quotes. -/
def quotedChar (c : Char) : String :=
  String.ofList ('\'' :: (escape '\'' c ++ ['\'']))

end RationalAlgebra.Text
