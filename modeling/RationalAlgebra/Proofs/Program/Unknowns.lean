import Mathlib
import RationalAlgebra.Program.Unknowns
import RationalAlgebra.Proofs.Equation.Coefficients
import RationalAlgebra.Proofs.Normal.Reading

/-!
# What the lines for an equation say

The first line that the program writes is the equation in normal form, and reading it gives an
equation with that normal form. Each further line gives the value of an unknown or says that it
cannot be isolated, and one that gives a value is itself an equation, in which the unknown has this
value. No line is about a variable that is missing, since only variables of the normal form get one.

All this is about the lines as texts: a line is taken apart at its equals sign or at its colon,
which occur in it once, because neither stands in the text of an expression.

Main definition: `LineFor`, what the line for an unknown says. Main statement:
`unknowns_fixed_point`.
-/

namespace RationalAlgebra

open RationalAlgebra.Expr

/-! ## Lines that are read again -/

/-- Two expressions with an equals sign between them are an equation. -/
theorem denotes_sides {s t : String} {l r : Expr} (hl : Denotes .expression s l)
    (hr : Denotes .expression t r) : DenotesEquation (s ++ " = " ++ t) (.sub l r) := by
  obtain ⟨ts, hs, hl⟩ := hl
  obtain ⟨us, ht, hr⟩ := hr
  exact ⟨_, spells_between (spells_spaced rfl rfl) hs ht, DerivesEquation.sides hl hr⟩

theorem Denotes.expression_of_operand {s : String} {e : Expr} (h : Denotes .operand s e) :
    Denotes .expression s e :=
  h.signed.power.term.single.expression

namespace Expr

/-- A normal form set equal to zero is read as an equation with that normal form. -/
theorem exists_parse_zero_line {e : Expr} (h : e.Canonical) (hprintable : e.Printable) :
    ∃ again, parseEquation (e.text ++ " = 0") = .ok again ∧ again.normalize = e := by
  have hzero := (denotes_number 0).expression_of_operand
  have hline := denotes_sides (denotes_reading hprintable) hzero
  have htext : e.text ++ " = " ++ toString 0 = e.text ++ " = 0" := by
    rw [String.append_assoc]
    rfl
  rw [htext] at hline
  refine ⟨_, parseEquation_eq_ok_iff.2 hline, ?_⟩
  apply (canonical_normalize _).ext_coefficients h
  -- Zero has no coefficients, so taking it away changes none.
  rw [coefficients_normalize_sub, normalize_reading h, Nat.cast_zero]
  have hnone : (const 0).normalize.coefficients = 0 :=
    (congrArg coefficients (normalize_const 0)).trans coefficients_zero
  rw [hnone, sub_zero]

/-- The value of a variable set equal to it is read as an equation that gives it that value. -/
theorem exists_parse_value_line {e : Expr} {name : String} (h : e.Canonical)
    (hprintable : e.Printable) (hname : isName name = true) (hmem : name ∉ e.occurrences) :
    ∃ again, parseEquation (name ++ " = " ++ e.text) = .ok again ∧ again.isolate name = .ok e := by
  have hvar := (denotes_name hname).expression_of_operand
  have hline := denotes_sides hvar (denotes_reading hprintable)
  refine ⟨_, parseEquation_eq_ok_iff.2 hline, ?_⟩
  apply isolate_of_coefficients one_ne_zero h hmem
  rw [coefficients_normalize_sub, normalize_var, normalize_reading h, one_smul]

/-! ## Lines taken apart -/

theorem not_mem_name {x : String} (hx : isName x = true) {c : Char} (hc : c.isAlphanum = false) :
    c ∉ x.toList := by
  intro hmem
  rw [isName, Bool.and_eq_true, List.all_eq_true] at hx
  rw [hx.2 c hmem] at hc
  cases hc

/-- The characters at which a line is taken apart. -/
def IsMark (c : Char) : Prop :=
  c = '=' ∨ c = ':'

/-- A mark does not stand in a name. -/
theorem IsMark.not_mem_name {c : Char} (hc : IsMark c) {x : String} (hx : isName x = true) :
    c ∉ x.toList := by
  rcases hc with rfl | rfl
  · exact Expr.not_mem_name hx rfl
  · exact Expr.not_mem_name hx rfl

/-- Nor does it stand in the text of an expression. -/
theorem IsMark.not_mem_text {c : Char} (hc : IsMark c) {e : Expr} (h : e.Printable) :
    c ∉ e.text.toList := by
  intro hmem
  have hsymbol := (denotes_reading h).symbol_mem hmem
  rcases hc with rfl | rfl
  · simpa using hsymbol rfl rfl
  · simpa using hsymbol rfl rfl

/-- A line with one equals sign is taken apart at it in one way. -/
theorem value_line_inj {name value x t : String} (hname : '=' ∉ name.toList)
    (hvalue : '=' ∉ value.toList) (h : name ++ " = " ++ value = x ++ " = " ++ t) :
    x = name ∧ t = value := by
  have hchars : (name.toList ++ [' ']) ++ '=' :: ' ' :: value.toList =
      (x.toList ++ [' ']) ++ '=' :: ' ' :: t.toList := by
    simpa using congrArg String.toList h
  rw [List.append_cons_inj_of_notMem (by simpa using hname) (by simpa using hvalue)] at hchars
  obtain ⟨hx, _, ht⟩ := hchars
  exact ⟨(String.toList_injective (List.append_cancel_right hx)).symm,
    (String.toList_injective (List.cons_injective ht)).symm⟩

end Expr

/-! ## The lines of an equation -/

namespace Program

variable {equation : Expr} {name : String}

theorem message_unsupported (name : String) (left : Expr) :
    (Failure.unsupportedIsolation name left).message =
      "cannot isolate " ++ name ++ " in " ++ left.text :=
  rfl

theorem message_notFound (name : String) :
    (Failure.variableNotFound name).message = "variable not found: " ++ name :=
  rfl

/-- The line for a variable of the normal form gives its value, or says that it cannot be isolated.
-/
theorem unknownLine_cases (hnames : ∀ x ∈ equation.occurrences, isName x = true)
    (hname : name ∈ equation.normalize.occurrences) :
    (∃ value, equation.isolate name = .ok value ∧ value.Canonical ∧ value.Printable ∧
        unknownLine equation name = name ++ " = " ++ value.text) ∨
      ∃ left : Expr, equation.isolate name = .error (.unsupportedIsolation name left) ∧
        left.Printable ∧ unknownLine equation name =
          name ++ ": " ++ (Failure.unsupportedIsolation name left).message := by
  unfold unknownLine
  split
  · rename_i value hvalue
    have hcanonical := canonical_of_isolate hvalue
    refine Or.inl ⟨value, hvalue, hcanonical, hcanonical.printable fun x hx => ?_, rfl⟩
    exact hnames x (mem_occurrences_of_isolate hvalue hx).2
  · rename_i failure hfailure
    rcases isolate_eq_error hfailure with hmissing | ⟨left, hleft⟩
    · -- The variable occurs, so it is not missing.
      rw [hmissing] at hfailure
      exact absurd hname (not_mem_occurrences_of_isolate_eq_error hfailure)
    · rw [hleft] at hfailure ⊢
      obtain ⟨_, hcanonical, hnames'⟩ := canonical_of_isolate_unsupported hfailure
      refine Or.inr ⟨left, hfailure, hcanonical.printable fun x hx => ?_, rfl⟩
      exact hnames x (hnames' x hx)

/-- A line that gives a value can be read, and then gives it again. -/
theorem unknownLine_fixed (hnames : ∀ x ∈ equation.occurrences, isName x = true)
    (hname : name ∈ equation.normalize.occurrences) {x t : String}
    (h : unknownLine equation name = x ++ " = " ++ t) :
    ∃ again value, parseEquation (x ++ " = " ++ t) = .ok again ∧ again.isolate x = .ok value ∧
      value.text = t := by
  have hname' := hnames name (mem_occurrences_of_normalize hname)
  have hmark : IsMark '=' := Or.inl rfl
  rcases unknownLine_cases hnames hname with
    ⟨value, hvalue, hcanonical, hprintable, hline⟩ | ⟨left, _, hprintable, hline⟩
  · -- The equals sign parts the line in one place only, so name and text are those of the line.
    rw [hline] at h
    obtain ⟨rfl, rfl⟩ :=
      value_line_inj (hmark.not_mem_name hname') (hmark.not_mem_text hprintable) h
    obtain ⟨again, hparse, hisolate⟩ := exists_parse_value_line hcanonical hprintable hname'
      fun hmem => (mem_occurrences_of_isolate hvalue hmem).1 rfl
    exact ⟨again, value, hparse, hisolate, rfl⟩
  · -- Such a line has no equals sign.
    have hmem : '=' ∈ (unknownLine equation name).toList := by simp [h]
    rw [hline, message_unsupported] at hmem
    simp [hmark.not_mem_name hname', hmark.not_mem_text hprintable] at hmem

/-- No line is about a variable that is missing. -/
theorem unknownLine_ne_notFound (hnames : ∀ x ∈ equation.occurrences, isName x = true)
    (hname : name ∈ equation.normalize.occurrences) (x y : String) :
    unknownLine equation name ≠ x ++ ": " ++ (Failure.variableNotFound y).message := by
  intro h
  have hname' := hnames name (mem_occurrences_of_normalize hname)
  have hmark : IsMark ':' := Or.inr rfl
  rw [message_notFound] at h
  rcases unknownLine_cases hnames hname with
    ⟨value, _, _, hprintable, hline⟩ | ⟨left, _, hprintable, hline⟩
  · -- A line with a value has no colon.
    have hmem : ':' ∈ (unknownLine equation name).toList := by simp [h]
    rw [hline] at hmem
    simp [hmark.not_mem_name hname', hmark.not_mem_text hprintable] at hmem
  · -- Another line has one colon, and would need two.
    rw [hline, message_unsupported] at h
    have hchars : name.toList ++ ':' :: (" cannot isolate " ++ name ++ " in " ++ left.text).toList =
        x.toList ++ ':' :: (" variable not found: " ++ y).toList := by
      simpa using congrArg String.toList h
    have hrest : ':' ∉ (" cannot isolate " ++ name ++ " in " ++ left.text).toList := by
      simp [hmark.not_mem_name hname', hmark.not_mem_text hprintable]
    rw [List.append_cons_inj_of_notMem (hmark.not_mem_name hname') hrest] at hchars
    rw [hchars.2.2] at hrest
    simp at hrest

/-- What a line says of an unknown: its value, where it can be isolated, and otherwise that it
cannot, with the side of the equation that is beyond the method. -/
def LineFor (equation : Expr) (name line : String) : Prop :=
  (∃ value, equation.isolate name = .ok value ∧ line = name ++ " = " ++ value.text) ∨
    ∃ left : Expr, equation.isolate name = .error (.unsupportedIsolation name left) ∧
      line = name ++ ": cannot isolate " ++ name ++ " in " ++ left.text

theorem lineFor_unknownLine (hnames : ∀ x ∈ equation.occurrences, isName x = true)
    (hname : name ∈ equation.normalize.occurrences) :
    LineFor equation name (unknownLine equation name) := by
  rcases unknownLine_cases hnames hname with ⟨value, hvalue, _, _, hline⟩ | ⟨left, hleft, _, hline⟩
  · exact Or.inl ⟨value, hvalue, hline⟩
  · refine Or.inr ⟨left, hleft, ?_⟩
    have hbegins : ": cannot isolate " = ": " ++ "cannot isolate " := rfl
    rw [hline, message_unsupported, hbegins]
    simp only [String.append_assoc]

/-- What the program writes for an equation agrees with the equation. The first line is an equation
with the same normal form. Each further line is about one variable of the normal form, in their
order, and gives its value or says that it cannot be isolated. A line that gives the value of an
unknown is an equation in which that unknown has this value. No line is about a variable that is
missing. -/
theorem unknowns_fixed_point {text : String} {equation : Expr}
    (h : parseEquation text = .ok equation) :
    ∃ first rest, unknowns (some text) = .success (first :: rest) ∧
      first = equation.normalize.text ++ " = 0" ∧
      rest = equation.normalize.variableNames.map (unknownLine equation) ∧
      List.Forall₂ (LineFor equation) equation.normalize.variableNames rest ∧
      (∃ again, parseEquation first = .ok again ∧ again.normalize = equation.normalize) ∧
      (∀ line ∈ rest, ∀ name value, line = name ++ " = " ++ value →
        ∃ again result, parseEquation line = .ok again ∧ again.isolate name = .ok result ∧
          result.text = value) ∧
      ∀ line ∈ first :: rest, ∀ name x,
        line ≠ name ++ ": " ++ (Failure.variableNotFound x).message := by
  have hnames := isName_of_parseEquation h
  have hprintable : equation.normalize.Printable :=
    (canonical_normalize equation).printable fun x hx => hnames x (mem_occurrences_of_normalize hx)
  -- Each further line belongs to a variable of the normal form.
  have hrest : ∀ line ∈ equation.normalize.variableNames.map (unknownLine equation),
      ∃ name ∈ equation.normalize.occurrences, line = unknownLine equation name := by
    rw [List.forall_mem_map]
    exact fun name hname => ⟨name, mem_variableNames.1 hname, rfl⟩
  refine ⟨_, _, ?_, rfl, rfl, ?_, ?_, ?_, ?_⟩
  · rw [unknowns, Option.getD_some, h]
    rfl
  · rw [List.forall₂_map_right_iff, List.forall₂_same]
    exact fun name hname => lineFor_unknownLine hnames (mem_variableNames.1 hname)
  · exact exists_parse_zero_line (canonical_normalize equation) hprintable
  · rintro line hline x t rfl
    obtain ⟨name, hname, heq⟩ := hrest _ hline
    exact unknownLine_fixed hnames hname heq.symm
  · rw [List.forall_mem_cons]
    constructor
    · intro x y heq
      have hmark : IsMark ':' := Or.inr rfl
      -- The first line has no colon.
      have hmem : ':' ∈ (equation.normalize.text ++ " = 0").toList := by simp [heq]
      simp [hmark.not_mem_text hprintable] at hmem
    · intro line hline x y
      obtain ⟨name, hname, rfl⟩ := hrest line hline
      exact unknownLine_ne_notFound hnames hname x y

/-- An equation with a quotient gives a value for one of its three variables; the quotient is beyond
the method for the other two. -/
theorem unknowns_fixed_point_with_quotient :
    let text := "2*x + y/z = 6"
    let equation := sub (sum [prod [const 2, var "x"], fraction (var "y") (var "z")]) (const 6)
    parseEquation text = .ok equation ∧
      equation.normalize.variableNames = ["x", "y", "z"] ∧
      unknowns (some text) = .success
        ["-6 + 2*x + y / z = 0", "x = 3 - 1/2*(y / z)", "y: cannot isolate y in y / z",
          "z: cannot isolate z in y / z"] ∧
      ∃ first rest, unknowns (some text) = .success (first :: rest) ∧
        first = equation.normalize.text ++ " = 0" ∧
        rest = equation.normalize.variableNames.map (unknownLine equation) ∧
        List.Forall₂ (LineFor equation) equation.normalize.variableNames rest ∧
        (∃ again, parseEquation first = .ok again ∧ again.normalize = equation.normalize) ∧
        (∀ line ∈ rest, ∀ name value, line = name ++ " = " ++ value →
          ∃ again result, parseEquation line = .ok again ∧ again.isolate name = .ok result ∧
            result.text = value) ∧
        ∀ line ∈ first :: rest, ∀ name x,
          line ≠ name ++ ": " ++ (Failure.variableNotFound x).message := by
  intro text equation
  have h : parseEquation text = .ok equation := by cbv
  have hnames : equation.normalize.variableNames = ["x", "y", "z"] := by cbv
  have hlines : unknowns (some text) = .success
      ["-6 + 2*x + y / z = 0", "x = 3 - 1/2*(y / z)", "y: cannot isolate y in y / z",
        "z: cannot isolate z in y / z"] := by
    have hquotient : (fraction (var "y") (var "z")).text = "y / z" := by cbv
    have hfirst : equation.normalize.text = "-6 + 2*x + y / z" := by cbv
    -- The first variable is isolated; the two in the quotient are not.
    have hx : unknownLine equation "x" = "x = 3 - 1/2*(y / z)" := by cbv
    have hy : equation.isolate "y" =
        .error (.unsupportedIsolation "y" (fraction (var "y") (var "z"))) := by cbv
    have hz : equation.isolate "z" =
        .error (.unsupportedIsolation "z" (fraction (var "y") (var "z"))) := by cbv
    have hy' : unknownLine equation "y" = "y: cannot isolate y in y / z" := by
      simp [unknownLine, hy, message_unsupported, hquotient]
    have hz' : unknownLine equation "z" = "z: cannot isolate z in y / z" := by
      simp [unknownLine, hz, message_unsupported, hquotient]
    simp [unknowns, unknownLines, h, hnames, hfirst, hx, hy', hz']
  exact ⟨h, hnames, hlines, unknowns_fixed_point h⟩

end Program

end RationalAlgebra
