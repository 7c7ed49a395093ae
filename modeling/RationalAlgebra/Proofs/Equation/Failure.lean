import Mathlib
import RationalAlgebra.Proofs.Equation.Solution

/-!
# How elimination fails

A run ends at a contradiction, at a variable that cannot be isolated, or with bindings to resolve.
The first says that the system has no unique solution and the second that it is beyond the method,
and so does a run that is cut off. Bindings that cannot be resolved either leave a variable free,
which again says that there is no unique solution, or they contain an expression that has lost its
variables and divides by zero. This last failure is in neither class (`solveWithin_failure`). It
does not occur where every binding of the run has a value, so a system that is zero somewhere never
meets it.
-/

namespace RationalAlgebra

open RationalAlgebra.Expr RationalAlgebra.Equations

/-- A failure says that the system has no unique solution or that it is beyond the method. -/
def Failure.IsClassified (f : Failure) : Prop :=
  f.isUnsolvable = true ∨ f.isUnsupported = true

/-- A division by zero says nothing about the number of solutions. -/
theorem Failure.not_isClassified_divisionByZero : ¬ Failure.divisionByZero.IsClassified := by
  simp [IsClassified, isUnsolvable, isUnsupported]

namespace Equations

variable {equations : List Expr} {bindings : Bindings} {limit : Nat} {f : Failure}

/-! ## Bindings without values -/

/-- Of the bound expressions that give no value, the first in the order of the names has no
variables: it divides by zero, whatever values the variables are given. -/
def DividesByZero (bindings : Bindings) : Prop :=
  ∃ x e, bindings.get? x = some e ∧ e.occurrences = [] ∧ (∀ v, ¬ e.Defined v) ∧
    ∀ y b, bindings.get? y = some b → y < x → b.occurrences = [] ∧ ∀ v, b.Defined v

/-- An expression without variables has a value everywhere or nowhere. -/
theorem defined_iff_evalClosed {e : Expr} (hclosed : e.occurrences = []) (v : Valuation) :
    e.Defined v ↔ ∃ q, e.evalClosed = .ok q := by
  rw [Defined, eval_eq_evalClosed hclosed]

/-- An expression resolves to a value if it has no variables and is defined. -/
theorem exists_valueOf_eq_ok_iff {e : Expr} :
    (∃ q, valueOf e = .ok q) ↔ e.occurrences = [] ∧ ∀ v, e.Defined v := by
  cases hfirst : e.firstVariable? with
  | some x =>
    have hne : e.occurrences ≠ [] := List.ne_nil_of_mem (mem_of_firstVariable? hfirst)
    simp [valueOf, hfirst, hne]
  | none =>
    have hclosed := firstVariable?_eq_none.1 hfirst
    simp [valueOf, hfirst, hclosed, defined_iff_evalClosed hclosed]

/-- A bound expression gives no value because a variable is left in it or because it divides by
zero. -/
theorem valueOf_eq_error_iff {e : Expr} : valueOf e = .error f ↔
    (∃ x, e.firstVariable? = some x ∧ f = .underdetermined x) ∨
      (e.occurrences = [] ∧ (∀ v, ¬ e.Defined v) ∧ f = .divisionByZero) := by
  -- A free variable is reported first; without one the failure is that of the evaluation.
  cases hfirst : e.firstVariable? with
  | some x =>
    have hne : e.occurrences ≠ [] := List.ne_nil_of_mem (mem_of_firstVariable? hfirst)
    simp [valueOf, hfirst, hne, eq_comm]
  | none =>
    have hclosed := firstVariable?_eq_none.1 hfirst
    simp only [valueOf, hfirst, hclosed, defined_iff_evalClosed hclosed, reduceCtorEq, false_and,
      exists_false, false_or, true_and]
    cases heval : e.evalClosed with
    | ok q => simp
    | error f' =>
      rw [evalClosed_eq_error hclosed heval]
      simp [eq_comm]

/-- Bindings that cannot be resolved leave a variable free or divide by zero. -/
theorem resolve_failure (h : resolve bindings = .error f) :
    (∃ x, f = .underdetermined x) ∨ (f = .divisionByZero ∧ DividesByZero bindings) := by
  obtain ⟨x, e, he, hvalue, hbefore⟩ := NameMap.traverse_eq_error_iff.1 h
  rcases valueOf_eq_error_iff.1 hvalue with ⟨y, _, rfl⟩ | ⟨hclosed, hundefined, rfl⟩
  · exact Or.inl ⟨y, rfl⟩
  · refine Or.inr ⟨rfl, x, e, he, hclosed, hundefined, ?_⟩
    intro y b hb hlt
    exact exists_valueOf_eq_ok_iff.1 (hbefore y b hb hlt)

/-- If a solved expression divides by zero, and none before it has a free variable, the resolution
fails with it. -/
theorem resolve_of_dividesByZero (h : DividesByZero bindings) :
    resolve bindings = .error .divisionByZero := by
  obtain ⟨x, e, he, hclosed, hundefined, hbefore⟩ := h
  refine NameMap.traverse_eq_error_iff.2 ⟨x, e, he, ?_, ?_⟩
  · exact valueOf_eq_error_iff.2 (Or.inr ⟨hclosed, hundefined, rfl⟩)
  · intro y b hb hlt
    exact exists_valueOf_eq_ok_iff.2 (hbefore y b hb hlt)

/-- Where all solved expressions have values, none divides by zero. -/
theorem not_dividesByZero {v : Valuation} (h : BindingsDefined v bindings) :
    ¬ DividesByZero bindings := by
  rintro ⟨x, e, he, _, hundefined, _⟩
  exact hundefined v (h x e he)

/-! ## The failures of a run -/

/-- How a run fails without being cut off. -/
theorem failure_of_halts {t : State} (hend : Halts t (.error f)) :
    (∃ left, f = .inconsistent left) ∨ (∃ x, f = .underdetermined x) ∨
      (∃ x left, f = .unsupportedIsolation x left) ∨
        (f = .divisionByZero ∧ t.queue = [] ∧ DividesByZero t.bindings) := by
  generalize hresult : (Except.error f : Except Failure Solution) = result at hend
  -- Only the resolution of the bindings can divide by zero, since the steps before it do not fail
  -- on a value.
  cases hend with
  | resolved bindings =>
    rcases resolve_failure hresult.symm with hfree | ⟨rfl, hdivides⟩
    · exact Or.inr (Or.inl hfree)
    · exact Or.inr (Or.inr (Or.inr ⟨rfl, rfl, hdivides⟩))
  | inconsistent _ _ => exact Or.inl ⟨_, Except.error.inj hresult⟩
  | stuck hname hvalue =>
    obtain ⟨left, rfl⟩ := exists_unsupported_of_isolate hname hvalue
    exact Or.inr (Or.inr (Or.inl ⟨_, left, Except.error.inj hresult⟩))

/-- Within the limit elimination uses up the equations, and the bindings it is left with divide by
zero. -/
def EndsInDivision (limit : Nat) (equations : List Expr) : Prop :=
  ∃ n bindings, n ≤ limit ∧ Run n (.start equations) ⟨[], bindings⟩ ∧ DividesByZero bindings

/-- If a run ends in a division by zero, this is the result. -/
theorem solveWithin_of_endsInDivision (h : EndsInDivision limit equations) :
    solveWithin limit equations = .error .divisionByZero := by
  obtain ⟨n, bindings, hn, hrun, hdivides⟩ := h
  have hloop := eliminate_of_run hrun limit limit
  rw [if_pos hn, eliminate, resolve_of_dividesByZero hdivides] at hloop
  exact hloop

/-- Where values are kept, no run ends in a division by zero. -/
theorem not_endsInDivision {v : Valuation} (h : KeepsValues v equations) :
    ¬ EndsInDivision limit equations := by
  rintro ⟨n, bindings, _, hrun, hdivides⟩
  exact not_dividesByZero (h n _ hrun) hdivides

/-- Where the system is zero, every binding of the run has a value. -/
theorem keepsValues_of_eval_eq_zero {v : Valuation} (h : ∀ e ∈ equations, e.eval v = .ok 0) :
    KeepsValues v equations :=
  fun _ _ hrun => (holds_of_run h hrun).1.bindingsDefined

/-- A failure is classified, or the run ends in a division by zero. -/
theorem classified_or_endsInDivision (h : solveWithin limit equations = .error f) :
    f.IsClassified ∨ (f = .divisionByZero ∧ EndsInDivision limit equations) := by
  obtain ⟨n, t, hn, hrun, hend⟩ := eliminate_runs limit limit equations .empty
  rw [solveWithin] at h
  rw [h] at hend
  rcases hend with hend | ⟨_, hlimit⟩
  · rcases failure_of_halts hend with
      ⟨left, rfl⟩ | ⟨x, rfl⟩ | ⟨x, left, rfl⟩ | ⟨rfl, hqueue, hdivides⟩
    · exact Or.inl (Or.inl rfl)
    · exact Or.inl (Or.inl rfl)
    · exact Or.inl (Or.inr rfl)
    · obtain ⟨queue, bindings⟩ := t
      cases hqueue
      exact Or.inr ⟨rfl, n, bindings, hn, hrun, hdivides⟩
  · -- The limit was reached first.
    rw [Except.error.inj hlimit]
    exact Or.inl (Or.inr rfl)

/-- A failure of elimination says that the system has no unique solution or that it is beyond the
method, unless the bindings that are left divide by zero, and then this is what it says. No system
is reported so of which every binding has a value somewhere, and none that is zero somewhere. -/
theorem solveWithin_failure (h : solveWithin limit equations = .error f) :
    (f.IsClassified ↔ ¬ EndsInDivision limit equations) ∧
      (f.IsClassified ∨ f = .divisionByZero) ∧
      (∀ v, KeepsValues v equations → f.IsClassified) ∧
      (∀ v, (∀ e ∈ equations, e.eval v = .ok 0) → f.IsClassified) := by
  have hcases := classified_or_endsInDivision h
  -- The two ends exclude each other, and one of them is there.
  have hiff : f.IsClassified ↔ ¬ EndsInDivision limit equations := by
    constructor
    · intro hclassified hends
      rw [solveWithin_of_endsInDivision hends] at h
      cases h
      exact Failure.not_isClassified_divisionByZero hclassified
    · intro hnot
      exact hcases.resolve_right fun hends => hnot hends.2
  have hkeeps : ∀ v, KeepsValues v equations → f.IsClassified :=
    fun v hv => hiff.2 (not_endsInDivision hv)
  refine ⟨hiff, hcases.imp_right And.left, hkeeps, ?_⟩
  intro v hzero
  exact hkeeps v (keepsValues_of_eval_eq_zero hzero)

/-- A contradiction between quotients: a is z over u, which is 3, and should be 4. -/
theorem solveWithin_failure_contradiction :
    solveWithin 7 [sub (var "a") (fraction (var "z") (var "u")), sub (var "u") (const 2),
        sub (var "z") (const 6), sub (var "a") (const 4)] = .error (.inconsistent (const (-1))) ∧
      (Failure.inconsistent (const (-1))).IsClassified ∧
      ¬ EndsInDivision 7 [sub (var "a") (fraction (var "z") (var "u")), sub (var "u") (const 2),
        sub (var "z") (const 6), sub (var "a") (const 4)] := by
  have hfailure : solveWithin 7 [sub (var "a") (fraction (var "z") (var "u")),
      sub (var "u") (const 2), sub (var "z") (const 6), sub (var "a") (const 4)] =
      .error (.inconsistent (const (-1))) := by
    cbv
  have hclassified : (Failure.inconsistent (const (-1))).IsClassified := Or.inl rfl
  exact ⟨hfailure, hclassified, (solveWithin_failure hfailure).1.1 hclassified⟩

/-- A system that is reported as a division by zero, which is in neither class. When u is eliminated
a becomes a quotient by zero; in the equation that was kept for a it is subtracted from itself, so
that the contradiction cancels. -/
theorem solve_quotient_by_zero :
    solve [sub (var "a") (fraction (var "z") (var "u")), sub (var "u") zero,
        sub (var "z") (const 5)] = .error .divisionByZero ∧
      ¬ Failure.divisionByZero.IsClassified := by
  constructor
  · cbv
  · exact Failure.not_isClassified_divisionByZero

end Equations

end RationalAlgebra
