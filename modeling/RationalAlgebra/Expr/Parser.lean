import RationalAlgebra.Expr.Lexeme
import RationalAlgebra.Failure

/-!
# Reading expressions

The grammar, over lexemes:

* an expression is one term, or several joined by plus and minus signs, read as one flat sum in
  which the terms after a minus sign are negated;
* a term is one power, or several joined from the left by stars and slashes, read as products of two
  factors and quotients;
* a power is a signed operand, with a caret and a natural number up to 255 behind it or not, read as
  the product of that many copies of the operand;
* a signed operand is an operand with any number of minus signs before it, each read as a negation;
* an operand is an expression in brackets, a natural number or a name.

A repetition ends before the first operator that has no operand behind it. An equation is read as
the difference of its two sides, and an expression by itself as an equation with zero.
-/

namespace RationalAlgebra

/-- What was read from the front of some lexemes, and the lexemes that follow it. -/
structure Parsed (α : Type) (bound : Nat) where
  value : α
  rest : List Lexeme
  short : rest.length < bound

namespace Parsed

/-- The same lexemes read as another value, under a larger bound. -/
def map {α β : Type} {m n : Nat} (p : Parsed α m) (f : α → β) (h : m ≤ n) : Parsed β n :=
  ⟨f p.value, p.rest, Nat.lt_of_lt_of_le p.short h⟩

end Parsed

namespace Grammar

/-- What a sign between terms does to the term after it. -/
def additive? : Token → Option (Expr → Expr)
  | .symbol '+' => some id
  | .symbol '-' => some Expr.neg
  | _ => none

/-- What a sign between powers makes of the two. -/
def multiplicative? : Token → Option (Expr → Expr → Expr)
  | .symbol '*' => some fun a b => .prod [a, b]
  | .symbol '/' => some .fraction
  | _ => none

/-- The largest exponent. -/
def maxExponent : Nat := 255

/-- Read an exponent, if one follows. -/
def withExponent {bound : Nat} (base : Parsed Expr bound) : Parsed Expr bound :=
  match base with
  | ⟨e, ⟨.symbol '^', source⟩ :: ⟨.number n, digits⟩ :: rest, short⟩ =>
    if n ≤ maxExponent then
      ⟨.prod (List.replicate n e), rest, by
        rw [List.length_cons, List.length_cons] at short; omega⟩
    else ⟨e, ⟨.symbol '^', source⟩ :: ⟨.number n, digits⟩ :: rest, short⟩
  | p => p

/-- Read the bracket that closes an operand. -/
def closing? {bound : Nat} (inner : Parsed Expr bound) : Option (Parsed Expr bound) :=
  match inner with
  | ⟨e, ⟨.symbol ')', _⟩ :: rest, short⟩ =>
    some ⟨e, rest, by rw [List.length_cons] at short; omega⟩
  | _ => none

mutual

/-- Read an expression. -/
def expression? (input : List Lexeme) : Option (Parsed Expr input.length) :=
  match term? input with
  | none => none
  | some first =>
    let more := addends first.rest
    let e := if more.value.isEmpty then first.value else .sum (first.value :: more.value)
    some ⟨e, more.rest, by have := first.short; have := more.short; omega⟩
termination_by (input.length, 3)
decreasing_by
  · exact Prod.Lex.right _ (by decide)
  · exact Prod.Lex.left _ _ first.short

/-- Read the terms of a sum after the first, each behind its sign. -/
def addends (input : List Lexeme) : Parsed (List Expr) (input.length + 1) :=
  match input with
  | [] => ⟨[], [], Nat.lt_succ_self _⟩
  | sign :: after =>
    match additive? sign.token with
    | none => ⟨[], sign :: after, Nat.lt_succ_self _⟩
    | some signed =>
      match term? after with
      | none => ⟨[], sign :: after, Nat.lt_succ_self _⟩
      | some next =>
        let more := addends next.rest
        ⟨signed next.value :: more.value, more.rest, by
          have := next.short; have := more.short; rw [List.length_cons]; omega⟩
termination_by (input.length, 0)
decreasing_by
  · exact Prod.Lex.left _ _ (Nat.lt_succ_self _)
  · exact Prod.Lex.left _ _ (by have := next.short; rw [List.length_cons]; omega)

/-- Read a term. -/
def term? (input : List Lexeme) : Option (Parsed Expr input.length) :=
  match power? input with
  | none => none
  | some first =>
    let all := factors first.value first.rest
    some ⟨all.value, all.rest, by have := first.short; have := all.short; omega⟩
termination_by (input.length, 2)
decreasing_by
  · exact Prod.Lex.right _ (by decide)
  · exact Prod.Lex.left _ _ first.short

/-- Read the powers of a term after the first, and join them to what was read before. -/
def factors (acc : Expr) (input : List Lexeme) : Parsed Expr (input.length + 1) :=
  match input with
  | [] => ⟨acc, [], Nat.lt_succ_self _⟩
  | sign :: after =>
    match multiplicative? sign.token with
    | none => ⟨acc, sign :: after, Nat.lt_succ_self _⟩
    | some join =>
      match power? after with
      | none => ⟨acc, sign :: after, Nat.lt_succ_self _⟩
      | some next =>
        let all := factors (join acc next.value) next.rest
        ⟨all.value, all.rest, by
          have := next.short; have := all.short; rw [List.length_cons]; omega⟩
termination_by (input.length, 0)
decreasing_by
  · exact Prod.Lex.left _ _ (Nat.lt_succ_self _)
  · exact Prod.Lex.left _ _ (by have := next.short; rw [List.length_cons]; omega)

/-- Read a power. -/
def power? (input : List Lexeme) : Option (Parsed Expr input.length) :=
  (signed? input).map withExponent
termination_by (input.length, 1)
decreasing_by exact Prod.Lex.right _ (by decide)

/-- Read an operand with the minus signs before it. -/
def signed? (input : List Lexeme) : Option (Parsed Expr input.length) :=
  match input with
  | [] => none
  | ⟨.number n, _⟩ :: after => some ⟨.const n, after, Nat.lt_succ_self _⟩
  | ⟨.name x, _⟩ :: after => some ⟨.var x, after, Nat.lt_succ_self _⟩
  | ⟨.symbol '-', _⟩ :: after => (signed? after).map fun p => p.map Expr.neg (Nat.le_succ _)
  | ⟨.symbol '(', _⟩ :: after =>
    ((expression? after).bind closing?).map fun p => p.map id (Nat.le_succ _)
  | ⟨.symbol _, _⟩ :: _ => none
termination_by (input.length, 0)
decreasing_by
  · exact Prod.Lex.left _ _ (Nat.lt_succ_self _)
  · exact Prod.Lex.left _ _ (Nat.lt_succ_self _)

end

end Grammar

/-! ## Whole texts -/

namespace Expr

open Grammar

/-- Accept what was read if nothing follows it. -/
def complete {bound : Nat} (p : Parsed Expr bound) : Except SyntaxError Expr :=
  match p.rest with
  | [] => .ok p.value
  | next :: _ => .error (.trailing next.source)

/-- Read lexemes as an expression. -/
def ofLexemes (input : List Lexeme) : Except SyntaxError Expr :=
  match expression? input with
  | none => .error (.noOperand (Lexeme.remaining input))
  | some p => complete p

/-- Read lexemes as an equation. -/
def equationOfLexemes (input : List Lexeme) : Except SyntaxError Expr :=
  match expression? input with
  | none => .error (.noOperand (Lexeme.remaining input))
  | some left =>
    match left.rest with
    | ⟨.symbol '=', _⟩ :: after =>
      match expression? after with
      | none => complete left
      | some right => (complete right).map (Expr.sub left.value)
    | _ => complete left

/-- Read a text as an expression. -/
def parse (text : String) : Except Failure Expr :=
  (ofLexemes (Lexeme.scan text.toList)).mapError .malformed

/-- Read a text as an equation: the difference of its two sides, which is to be zero. -/
def parseEquation (text : String) : Except Failure Expr :=
  (equationOfLexemes (Lexeme.scan text.toList)).mapError .malformed

end Expr

end RationalAlgebra
