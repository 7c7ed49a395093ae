import RationalAlgebra.Normal.Product

/-!
# Quotients of normal forms

The quotient of two normal forms, as a normal form. A sum is divided addend by addend, a quotient
inside a quotient is multiplied across, variables common to a numerator and a denominator that is
nothing but variables are cancelled, and coefficients are taken out in front. A constant denominator
becomes a coefficient, except zero: a quotient by zero stays as it is, for evaluation to report.
-/

namespace RationalAlgebra.Expr

/-- A numerator and a denominator without their common variables, if they have any and the
denominator is nothing but variables. -/
def cancelCommon? : Expr → Expr → Option (Expr × Expr)
  | product c vs fs, d =>
    match Factors.pureVariables? d with
    | none => none
    | some names =>
      let left := Factors.cancel vs names
      if left.1.length < vs.length then
        some (ofTerm c (monomial left.1 fs), product 1 left.2 [])
      else none
  | _, _ => none

/-- Cancelling shared variables takes them from both parts. -/
theorem degree_cancelCommon?_lt {n d n' d' : Expr} (h : cancelCommon? n d = some (n', d')) :
    n'.degree + d'.degree < n.degree + d.degree := by
  unfold cancelCommon? at h
  split at h
  · rename_i c vs fs
    split at h
    · cases h
    · rename_i names hnames
      rw [Factors.pureVariables?_eq_some hnames]
      simp only at h
      split at h
      · rename_i hlt
        -- As many variables go above as below, and there is one at least.
        have hlen := Factors.length_cancel vs names
        cases h
        simp only [degree_ofTerm, degree_monomial, degree, degreeSum]
        omega
      · cases h
  · cases h

/-- The quotient of two normal forms, as a normal form. -/
def divide (n d : Expr) : Expr :=
  if n.isZero then zero
  else
    match d.asConstant? with
    | some k => if k = 0 then fraction n d else scale k⁻¹ n
    | none =>
      match n, d with
      -- A sum is divided addend by addend.
      | sum addends, d =>
        (Combination.ofExprs (addends.attach.map fun e => divide e.1 d)).toExpr
      -- A quotient inside a quotient is multiplied across.
      | fraction a b, d => divide a (multiply 1 [] [b, d])
      | n, fraction a b => divide (multiply 1 [] [n, b]) a
      | n, d =>
        match _h : cancelCommon? n d with
        | some p => divide p.1 p.2
        | none =>
          -- Coefficients go in front, and what they leave is divided without them.
          if _hc : n.split.1 = 1 ∧ d.split.1 = 1 then fraction n d
          else if d.split.1 = 0 then fraction n.split.2 d.split.2
          else scale (n.split.1 / d.split.1) (divide n.split.2 d.split.2)
termination_by (n.degree + d.degree, n.size + d.size)
decreasing_by
  -- An addend has no larger degree than its sum, and is smaller.
  · have hdeg := degree_le_of_mem e.2
    have hsize := size_lt_of_mem e.2
    rcases Nat.lt_or_eq_of_le hdeg with hlt | heq
    · exact Prod.Lex.left _ _ (by omega)
    · rw [heq]
      exact Prod.Lex.right _ (by omega)
  · refine Prod.Lex.left _ _ ?_
    have := degree_multiply_le 1 [] [b, d]
    simp only [degree, degreeSum, List.length_nil] at this ⊢
    omega
  · refine Prod.Lex.left _ _ ?_
    have := degree_multiply_le 1 [] [n, b]
    simp only [degree, degreeSum, List.length_nil] at this ⊢
    omega
  · exact Prod.Lex.left _ _ (degree_cancelCommon?_lt _h)
  · rw [degree_split, degree_split]
    refine Prod.Lex.right _ ?_
    have hn := size_split_le n
    have hd := size_split_le d
    by_cases h : n.split.1 = 1
    · have hne : d.split.1 ≠ 1 := fun h' => _hc ⟨h, h'⟩
      have := size_split_lt hne
      omega
    · have := size_split_lt h
      omega

end RationalAlgebra.Expr
