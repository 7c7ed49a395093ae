import Mathlib
import RationalAlgebra.Proofs.Expr.Grammar

/-!
# What is left of a text

A text that begins with something complete and goes on is not accepted, and the error holds what is
left of it. What is left begins at a lexeme, so it is not empty and has no space in front. The
lexemes before it are a whole phrase, whatever follows: a repetition that finds no operand behind an
operator gives the operator back, and so does a power with its caret and an equation with its
equals sign. As a text can be cut between any two lexemes, the text before is accepted by itself.

Main statement: `isRemainder_of_trailing`.
-/

namespace RationalAlgebra.Expr

open Grammar

/-- What a reader leaves of a text: it ends the text, is not empty and does not begin with space,
and the reader accepts what stands before it. -/
structure IsRemainder (read : String → Except Failure Expr) (text : String) (rest : List Char) :
    Prop where
  begins : ∃ c cs, rest = c :: cs ∧ Lexeme.isSpace c = false
  accepted : ∃ before e, text.toList = before ++ rest ∧ read (String.ofList before) = .ok e

/-! ## Lexemes that are left -/

/-- This is the text of some of the lexemes, from one of them on, and the tokens of those before
have a property. -/
def LeftBehind (P : List Token → Prop) (input : List Lexeme) (rest : List Char) : Prop :=
  ∃ front next after, input = front ++ next :: after ∧ next.source = rest ∧
    P (front.map Lexeme.token)

/-- What is said of the tokens before the remainder may be weakened. -/
theorem LeftBehind.imp {P Q : List Token → Prop} {input : List Lexeme} {rest : List Char}
    (h : LeftBehind P input rest) (hPQ : ∀ ts, P ts → Q ts) : LeftBehind Q input rest := by
  obtain ⟨front, next, after, hinput, hsource, hP⟩ := h
  exact ⟨front, next, after, hinput, hsource, hPQ _ hP⟩

variable {input : List Lexeme} {rest : List Char}

/-- Where an expression was read and something is left, the remainder begins behind the expression.
-/
theorem leftBehind_of_complete {p : Parsed Expr input.length} (hp : expression? input = some p)
    (h : complete p = .error (.trailing rest)) :
    LeftBehind (Derives .expression · p.value) input rest := by
  unfold complete at h
  split at h
  · cases h
  · rename_i next after hrest
    cases h
    obtain ⟨front, hinput, hderives⟩ := begins_of_expression ⟨p, hp, rfl, hrest⟩
    exact ⟨front, next, after, hinput, rfl, hderives⟩

/-- The lexemes before those that are left are an expression. -/
theorem leftBehind_of_ofLexemes (h : ofLexemes input = .error (.trailing rest)) :
    LeftBehind (fun ts => ∃ e, Derives .expression ts e) input rest := by
  unfold ofLexemes at h
  split at h
  · cases h
  · rename_i p hp
    exact (leftBehind_of_complete hp h).imp fun ts hderives => ⟨p.value, hderives⟩

/-- A mapped computation fails where the computation does. -/
theorem map_eq_error {α β ε : Type} {x : Except ε α} {f : α → β} {error : ε}
    (h : x.map f = .error error) : x = .error error := by
  cases x with
  | error _ => exact congrArg _ (Except.error.inj h)
  | ok _ => cases h

/-- The lexemes before those that are left are an equation: an expression, if no equals sign follows
it or no right side follows the equals sign, and otherwise both sides. -/
theorem leftBehind_of_equationOfLexemes (h : equationOfLexemes input = .error (.trailing rest)) :
    LeftBehind (fun ts => ∃ e, DerivesEquation ts e) input rest := by
  -- Two branches end with what is left behind a single expression.
  have hexpression : ∀ left, expression? input = some left →
      complete left = .error (.trailing rest) →
      LeftBehind (fun ts => ∃ e, DerivesEquation ts e) input rest := by
    intro left hleft hcomplete
    exact (leftBehind_of_complete hleft hcomplete).imp fun ts hl =>
      ⟨left.value, DerivesEquation.expression hl⟩
  unfold equationOfLexemes at h
  split at h
  · cases h
  · rename_i left hleft
    split at h
    · rename_i source behind hequals
      split at h
      · exact hexpression left hleft h
      · rename_i right hright
        -- Both sides were read, and the remainder begins behind the second.
        obtain ⟨ls, hinput, hl⟩ := begins_of_expression ⟨left, hleft, rfl, hequals⟩
        obtain ⟨rs, next, after, hbehind, hsource, hr⟩ :=
          leftBehind_of_complete hright (map_eq_error h)
        refine ⟨ls ++ ⟨.symbol '=', source⟩ :: rs, next, after, ?_, hsource, ?_⟩
        · rw [hinput, hbehind, List.append_assoc, List.cons_append]
        · rw [List.map_append]
          exact ⟨sub left.value right.value, DerivesEquation.sides hl hr⟩
    · exact hexpression left hleft h

/-! ## Text that is left -/

/-- A reader leaves a remainder if it accepts all that is spelled by the tokens before. -/
theorem LeftBehind.isRemainder {P : List Token → Prop} {read : String → Except Failure Expr}
    {text : String} (h : LeftBehind P (Lexeme.scan text.toList) rest)
    (hread : ∀ ts before, P ts → Spells ts before → ∃ e, read (String.ofList before) = .ok e) :
    IsRemainder read text rest := by
  obtain ⟨front, next, after, hscan, rfl, hP⟩ := h
  obtain ⟨before, behind, htext, hspells, hbehind⟩ := Lexeme.exists_spells_of_scan hscan
  obtain ⟨gap, c, cs, rfl, hgap, hsource, hc⟩ := Lexeme.exists_source_of_scan hbehind
  -- The space between the two parts belongs to what stands before.
  have hbefore := hspells.append (Spells.nil hgap)
  rw [List.append_nil] at hbefore
  obtain ⟨e, he⟩ := hread _ _ hP hbefore
  exact ⟨⟨c, cs, hsource, hc⟩, before ++ gap, e, by rw [htext, List.append_assoc], he⟩

/-- Every syntax error is reported as one, so it can be found again in the report. -/
theorem eq_error_of_mapError {α : Type} {x : Except SyntaxError α} {error : SyntaxError}
    (h : x.mapError .malformed = .error (Failure.malformed error)) : x = .error error := by
  cases x with
  | error _ => exact congrArg _ (Failure.malformed.inj (Except.error.inj h))
  | ok _ => cases h

/-- Where a text is rejected for what is left of it, that is a remainder: not empty, without space
in front, and behind a text that is accepted by itself. -/
theorem isRemainder_of_trailing {text : String} :
    (parse text = .error (.malformed (.trailing rest)) → IsRemainder parse text rest) ∧
      (parseEquation text = .error (.malformed (.trailing rest)) →
        IsRemainder parseEquation text rest) := by
  constructor
  · intro h
    apply (leftBehind_of_ofLexemes (eq_error_of_mapError h)).isRemainder
    rintro ts before ⟨e, hderives⟩ hspells
    exact ⟨e, parse_eq_ok_iff.2 ⟨ts, by rwa [String.toList_ofList], hderives⟩⟩
  · intro h
    apply (leftBehind_of_equationOfLexemes (eq_error_of_mapError h)).isRemainder
    rintro ts before ⟨e, hderives⟩ hspells
    exact ⟨e, parseEquation_eq_ok_iff.2 ⟨ts, by rwa [String.toList_ofList], hderives⟩⟩

/-- An exponent that is too large is left together with its caret, and an equals sign together with
a right side that is no expression. -/
theorem isRemainder_exponent_and_side :
    (parse "2*x ^256 + 1" = .error (.malformed (.trailing "^256 + 1".toList)) ∧
      IsRemainder parse "2*x ^256 + 1" "^256 + 1".toList) ∧
    parseEquation "x = 3*y\t= (z" = .error (.malformed (.trailing "= (z".toList)) ∧
      IsRemainder parseEquation "x = 3*y\t= (z" "= (z".toList := by
  have hexponent : parse "2*x ^256 + 1" = .error (.malformed (.trailing "^256 + 1".toList)) := by
    cbv
  have hside : parseEquation "x = 3*y\t= (z" = .error (.malformed (.trailing "= (z".toList)) := by
    cbv
  exact ⟨⟨hexponent, isRemainder_of_trailing.1 hexponent⟩, hside, isRemainder_of_trailing.2 hside⟩

end RationalAlgebra.Expr
