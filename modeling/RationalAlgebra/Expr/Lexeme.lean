/-!
# Lexemes

A text of the expression language is read as a list of lexemes: digit strings, names and single
characters. Space, tab, carriage return and line feed separate lexemes and are dropped; no other
character counts as space here. Digits and letters are those of ASCII, and both kinds of string
extend as far as they can. A character that belongs to no lexeme of the language is a lexeme too, so
that reading stops there and not before.

Each lexeme keeps the text from its first character on, for the report of an error.
-/

namespace RationalAlgebra

/-- What a lexeme is: a natural number, a name, or a single character. -/
inductive Token where
  | number (value : Nat)
  | name (text : String)
  | symbol (c : Char)
  deriving DecidableEq

/-- A token and the text from its first character on. -/
structure Lexeme where
  token : Token
  source : List Char

namespace Lexeme

/-- The characters that may stand between lexemes. -/
def isSpace (c : Char) : Bool :=
  c = ' ' || c = '\t' || c = '\r' || c = '\n'

/-- The lexemes of a text. -/
def scan : List Char → List Lexeme
  | [] => []
  | c :: rest =>
    if isSpace c then scan rest
    else if c.isDigit then
      let value := Nat.ofDigitChars 10 (c :: rest.takeWhile Char.isDigit) 0
      ⟨.number value, c :: rest⟩ :: scan (rest.dropWhile Char.isDigit)
    else if c.isAlpha then
      let text := String.ofList (c :: rest.takeWhile Char.isAlphanum)
      ⟨.name text, c :: rest⟩ :: scan (rest.dropWhile Char.isAlphanum)
    else ⟨.symbol c, c :: rest⟩ :: scan rest
termination_by text => text.length
decreasing_by
  · simp
  · have h := (List.dropWhile_suffix (l := rest) Char.isDigit).length_le
    simp only [List.length_cons]
    omega
  · have h := (List.dropWhile_suffix (l := rest) Char.isAlphanum).length_le
    simp only [List.length_cons]
    omega
  · simp

/-- The text that some lexemes were scanned from, without the space before the first. -/
def remaining (lexemes : List Lexeme) : List Char :=
  (lexemes.head?.map source).getD []

end Lexeme

end RationalAlgebra
