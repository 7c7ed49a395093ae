import Mathlib
import RationalAlgebra.Proofs.Normal.Coefficients

/-!
# Sums are linear combinations

The normal form of a sum depends only on the coefficients of the addends taken together. A sum of
multiples is therefore a linear combination of the expressions that are multiplied: the order of the
addends does not matter, nor how they are grouped, and two multiples of one expression are one
multiple of it. Expressions without a value are no exception, as they are merged by their normal
forms alone.

Main statement: `normalize_linear`.
-/

namespace RationalAlgebra.Expr

/-- The sum of some expressions, each multiplied by a rational. -/
def weightedSum (terms : List (Rat × Expr)) : Expr :=
  sum (terms.map fun t => product t.1 [] [t.2])

/-- A multiple has the multiples of all coefficients. -/
theorem coefficients_normalize_multiple (k : Rat) (e : Expr) :
    (product k [] [e]).normalize.coefficients = k • e.normalize.coefficients := by
  by_cases hk : k = 0
  · rw [hk, normalize, if_pos rfl, zero_smul, coefficients_zero]
  · rw [normalize_multiple hk, coefficients_scale k (canonical_normalize e)]

/-- Sums whose addends have the same coefficients together have the same normal form. -/
theorem normalize_sum_of_coefficients {es fs : List Expr}
    (h : (es.map fun e => e.normalize.coefficients).sum =
      (fs.map fun e => e.normalize.coefficients).sum) :
    (sum es).normalize = (sum fs).normalize := by
  apply (canonical_normalize _).ext_coefficients (canonical_normalize _)
  rw [coefficients_normalize_sum, coefficients_normalize_sum, h]

/-- The addends of a sum may be exchanged. -/
theorem normalize_sum_perm {es fs : List Expr} (h : es.Perm fs) :
    (sum es).normalize = (sum fs).normalize :=
  normalize_sum_of_coefficients (h.map _).sum_eq

/-- A sum among the addends is as good as its own addends. -/
theorem normalize_sum_group (as bs cs : List Expr) :
    (sum (as ++ [sum bs] ++ cs)).normalize = (sum (as ++ bs ++ cs)).normalize := by
  apply normalize_sum_of_coefficients
  simp only [List.map_append, List.sum_append, List.map_cons, List.map_nil, List.sum_cons,
    List.sum_nil, add_zero, coefficients_normalize_sum]

/-- Two multiples of one expression may be put together, wherever they stand. -/
theorem normalize_weightedSum_merge (r s t : List (Rat × Expr)) (k k' : Rat) (e : Expr) :
    (weightedSum (r ++ (k, e) :: s ++ (k', e) :: t)).normalize =
      (weightedSum (r ++ (k + k', e) :: s ++ t)).normalize := by
  apply normalize_sum_of_coefficients
  simp only [List.map_append, List.sum_append, List.map_cons, List.sum_cons,
    coefficients_normalize_multiple, add_smul]
  abel

/-- An expression taken from itself leaves zero. -/
theorem normalize_sub_self (e : Expr) : (sub e e).normalize = zero := by
  apply (canonical_normalize _).ext_coefficients (canonical_const 0)
  rw [coefficients_normalize_sub, sub_self]
  exact coefficients_zero.symm

/-- A sum of multiples is a linear combination. Its normal form stays the same when its addends are
permuted, when some that follow each other are put into a sum of their own (as often as one likes,
since any expressions may stand among the addends), and when two multiples of one expression are
replaced by one. What is subtracted from itself is zero. -/
theorem normalize_linear :
    (∀ s t : List (Rat × Expr), s.Perm t →
        (weightedSum s).normalize = (weightedSum t).normalize) ∧
      (∀ as bs cs : List Expr,
        (sum (as ++ [sum bs] ++ cs)).normalize = (sum (as ++ bs ++ cs)).normalize) ∧
      (∀ (r s t : List (Rat × Expr)) (k k' : Rat) (e : Expr),
        (weightedSum (r ++ (k, e) :: s ++ (k', e) :: t)).normalize =
          (weightedSum (r ++ (k + k', e) :: s ++ t)).normalize) ∧
      ∀ e : Expr, (sub e e).normalize = zero := by
  refine ⟨?_, normalize_sum_group, normalize_weightedSum_merge, normalize_sub_self⟩
  intro s t h
  exact normalize_sum_perm (h.map _)

/-- Multiples of a quotient by zero, of a sum and of a variable, in two orders, and what they are
normalized to. -/
theorem normalize_linear_of_three_multiples :
    [((2 : Rat), fraction (var "x") zero), (-1, sum [var "y", one]), (3, var "x")].Perm
        [(3, var "x"), (2, fraction (var "x") zero), (-1, sum [var "y", one])] ∧
      (weightedSum
          [(2, fraction (var "x") zero), (-1, sum [var "y", one]), (3, var "x")]).normalize =
        (weightedSum
          [(3, var "x"), (2, fraction (var "x") zero), (-1, sum [var "y", one])]).normalize ∧
      (weightedSum
          [(2, fraction (var "x") zero), (-1, sum [var "y", one]), (3, var "x")]).normalize =
        sum [const (-1), product 3 ["x"] [], product 2 [] [fraction (var "x") zero],
          product (-1) ["y"] []] := by
  have hperm : [((2 : Rat), fraction (var "x") zero), (-1, sum [var "y", one]), (3, var "x")].Perm
      [(3, var "x"), (2, fraction (var "x") zero), (-1, sum [var "y", one])] :=
    @List.perm_append_comm _ [_, _] [_]
  exact ⟨hperm, normalize_linear.1 _ _ hperm, by cbv⟩

end RationalAlgebra.Expr
