import Mathlib
import RationalAlgebra.Proofs.Linear.Elimination

/-!
# Elimination and matrices

A square system is a matrix with a vector of constants, and its solutions are the vectors that the
matrix takes to the constants. Lists of a given length are vectors, so what elimination does with
the rows is read as a statement about the matrix: there is an answer exactly if there is one
solution, for whatever constants exactly if the determinant is not zero.

Main statements: `solve_eq_only_solution` and `solve_eq_none_iff_det_eq_zero`.
-/

namespace RationalAlgebra.Linear

variable {n : Nat} {A : Matrix (Fin n) (Fin n) Rat} {b : Fin n → Rat}

/-- The equations of a matrix and its constants, row by row. -/
def matrixRows (A : Matrix (Fin n) (Fin n) Rat) (b : Fin n → Rat) : List Row :=
  List.ofFn fun i => ⟨List.ofFn (A i), b i⟩

theorem isSquare_matrixRows (A : Matrix (Fin n) (Fin n) Rat) (b : Fin n → Rat) :
    IsSquare n (matrixRows A b) := by
  constructor
  · rw [matrixRows, List.length_ofFn]
  · rw [matrixRows, List.forall_mem_ofFn_iff]
    intro i
    exact List.length_ofFn

/-- The product of lists is that of the vectors they are made from. -/
theorem dot_ofFn (a x : Fin n → Rat) : dot (List.ofFn a) (List.ofFn x) = a ⬝ᵥ x := by
  induction n with
  | zero => simp [dot]
  | succ n ih =>
    rw [List.ofFn_succ, List.ofFn_succ, dot, ih, dotProduct, dotProduct, Fin.sum_univ_succ]

/-- The rows hold at a vector that the matrix takes to the constants. -/
theorem forall_holds_iff_mulVec {x : Fin n → Rat} :
    (∀ r ∈ matrixRows A b, r.Holds (List.ofFn x)) ↔ A.mulVec x = b := by
  rw [matrixRows, List.forall_mem_ofFn_iff, funext_iff]
  refine forall_congr' fun i => ?_
  rw [Row.Holds, dot_ofFn, Matrix.mulVec]

/-- A list with a value for each unknown is a vector. -/
theorem exists_eq_ofFn {xs : List Rat} (h : xs.length = n) :
    ∃ x : Fin n → Rat, xs = List.ofFn x := by
  subst h
  exact ⟨xs.get, (List.ofFn_get xs).symm⟩

/-- The system of a matrix has the right shape, so it is solved by elimination. -/
theorem solve_ofFn (hn : 1 ≤ n) (A : Matrix (Fin n) (Fin n) Rat) (b : Fin n → Rat) :
    solve (List.ofFn fun i => List.ofFn (A i)) (List.ofFn b) =
      .ok (eliminate n (matrixRows A b)) := by
  have hrows : List.zipWith Row.mk (List.ofFn fun i => List.ofFn (A i)) (List.ofFn b) =
      matrixRows A b := by
    apply List.ext_getElem
    · simp [matrixRows]
    · simp [matrixRows]
  have hrow : (List.ofFn fun i => List.ofFn (A i)).any (fun row => row.length ≠ n) = false := by
    rw [List.any_eq_false, List.forall_mem_ofFn_iff]
    simp
  rw [solve]
  simp only [List.length_ofFn, hrow, hrows]
  -- The checks of the input pass.
  rw [if_neg (Nat.one_le_iff_ne_zero.1 hn), if_neg (by simp), if_neg (by simp)]

/-- Elimination finds the only solution, or there is not exactly one. -/
theorem eliminate_matrixRows_cases (A : Matrix (Fin n) (Fin n) Rat) (b : Fin n → Rat) :
    (∃ x, eliminate n (matrixRows A b) = some (List.ofFn x) ∧ ∀ y, A.mulVec y = b ↔ y = x) ∨
      (eliminate n (matrixRows A b) = none ∧ ¬ ∃! x, A.mulVec x = b) := by
  have hsquare := isSquare_matrixRows A b
  cases heliminate : eliminate n (matrixRows A b) with
  | some xs =>
    obtain ⟨hlength, hunique⟩ := eliminate_eq_some hsquare heliminate
    obtain ⟨x, rfl⟩ := exists_eq_ofFn hlength
    refine Or.inl ⟨x, rfl, fun y => ?_⟩
    rw [← forall_holds_iff_mulVec, hunique _ List.length_ofFn, List.ofFn_inj]
  | none =>
    refine Or.inr ⟨rfl, ?_⟩
    rintro ⟨x, hx, hunique⟩
    -- The only vector would be the only list.
    apply not_existsUnique_of_eliminate_eq_none hsquare heliminate
    refine ⟨List.ofFn x, ⟨List.length_ofFn, forall_holds_iff_mulVec.2 hx⟩, ?_⟩
    rintro ys ⟨hlength, hholds⟩
    obtain ⟨y, rfl⟩ := exists_eq_ofFn hlength
    rw [hunique y (forall_holds_iff_mulVec.1 hholds)]

/-- A system that does not have exactly one solution has none or several. -/
theorem not_existsUnique_iff {α : Type} {p : α → Prop} :
    (¬ ∃! x, p x) ↔ (∀ x, ¬ p x) ∨ ∃ x y, p x ∧ p y ∧ x ≠ y := by
  constructor
  · intro h
    by_cases hnone : ∀ x, ¬ p x
    · exact Or.inl hnone
    · push Not at hnone
      obtain ⟨x, hx⟩ := hnone
      -- There is one, and it is not alone.
      have hother : ∃ y, p y ∧ y ≠ x := by
        by_contra hall
        push Not at hall
        exact h ⟨x, hx, hall⟩
      obtain ⟨y, hy, hne⟩ := hother
      exact Or.inr ⟨y, x, hy, hx, hne⟩
  · rintro (hnone | ⟨x, y, hx, hy, hne⟩) ⟨z, hz, hunique⟩
    · exact hnone z hz
    · exact hne ((hunique x hx).trans (hunique y hy).symm)

/-- A square system has exactly one solution if its determinant is not zero. Otherwise a vector that
the matrix takes to zero can be added to a solution. -/
theorem existsUnique_mulVec_iff (A : Matrix (Fin n) (Fin n) Rat) (b : Fin n → Rat) :
    (∃! x, A.mulVec x = b) ↔ A.det ≠ 0 := by
  constructor
  · rintro ⟨x, hx, hunique⟩ hdet
    -- A vector that is mapped to zero could be added to any solution.
    obtain ⟨y, hne, hy⟩ := Matrix.exists_mulVec_eq_zero_iff.2 hdet
    have hsum : A.mulVec (x + y) = b := by
      rw [Matrix.mulVec_add, hx, hy, add_zero]
    have hsame := hunique (x + y) hsum
    rw [add_eq_left] at hsame
    exact hne hsame
  · intro hdet
    have hunit : IsUnit A := (Matrix.isUnit_iff_isUnit_det A).2 (isUnit_iff_ne_zero.2 hdet)
    have hinjective := Matrix.mulVec_injective_iff_isUnit.2 hunit
    obtain ⟨x, hx⟩ := Matrix.mulVec_surjective_iff_isUnit.2 hunit b
    exact ⟨x, hx, fun y hy => hinjective (hy.trans hx.symm)⟩

/-- A square system has no answer exactly if its determinant is zero, whatever its constants are. -/
theorem solve_eq_none_iff_det_eq_zero (hn : 1 ≤ n) (A : Matrix (Fin n) (Fin n) Rat)
    (b : Fin n → Rat) :
    solve (List.ofFn fun i => List.ofFn (A i)) (List.ofFn b) = .ok none ↔ A.det = 0 := by
  have hunique := existsUnique_mulVec_iff A b
  rw [solve_ofFn hn]
  rcases eliminate_matrixRows_cases A b with ⟨x, hsome, hx⟩ | ⟨hnone, hnot⟩
  · have hone : ∃! x, A.mulVec x = b := ⟨x, (hx x).2 rfl, fun y hy => (hx y).1 hy⟩
    simp [hsome, hunique.1 hone]
  · rw [hunique, not_not] at hnot
    simp [hnone, hnot]

/-- The rows of a square system are those of a matrix. -/
theorem exists_rows_eq_ofFn {rows : List (List Rat)} (hlength : rows.length = n)
    (hrow : ∀ row ∈ rows, row.length = n) :
    ∃ A : Matrix (Fin n) (Fin n) Rat, rows = List.ofFn fun i => List.ofFn (A i) := by
  have hrows : ∀ i : Fin n, ∃ a : Fin n → Rat, rows.get (i.cast hlength.symm) = List.ofFn a :=
    fun i => exists_eq_ofFn (hrow _ (List.get_mem _ _))
  choose A hA using hrows
  refine ⟨A, ?_⟩
  simp only [← hA]
  subst hlength
  exact (List.ofFn_get rows).symm

/-- Whether a system has an answer does not depend on its constants. -/
theorem exists_solve_of_solve {rows : List (List Rat)} {constants constants' xs : List Rat}
    (h : solve rows constants = .ok (some xs)) (hlength : constants'.length = constants.length) :
    ∃ ys, solve rows constants' = .ok (some ys) := by
  obtain ⟨hn, hrows, hrow, _⟩ := shape_of_solve h
  obtain ⟨A, rfl⟩ := exists_rows_eq_ofFn hrows hrow
  obtain ⟨b, hb⟩ := exists_eq_ofFn (rfl : constants.length = constants.length)
  obtain ⟨b', hb'⟩ := exists_eq_ofFn hlength
  -- That a system has exactly one solution depends on the matrix alone.
  have hdet : A.det ≠ 0 := by
    rw [Ne, ← solve_eq_none_iff_det_eq_zero hn A b, ← hb, h]
    simp
  rw [hb']
  cases heliminate : eliminate constants.length (matrixRows A b') with
  | some ys => exact ⟨ys, by rw [solve_ofFn hn, heliminate]⟩
  | none =>
    refine absurd ?_ hdet
    rw [← solve_eq_none_iff_det_eq_zero hn A b', solve_ofFn hn, heliminate]

/-- A square system is solved exactly if it has one solution, and it is solved by that; it has no
answer exactly if it has no solution or more than one. -/
theorem solve_eq_only_solution (hn : 1 ≤ n) (A : Matrix (Fin n) (Fin n) Rat) (b : Fin n → Rat) :
    (∀ xs : List Rat, solve (List.ofFn fun i => List.ofFn (A i)) (List.ofFn b) = .ok (some xs) ↔
        ∃ x, xs = List.ofFn x ∧ A.mulVec x = b ∧ ∀ y, A.mulVec y = b → y = x) ∧
      (solve (List.ofFn fun i => List.ofFn (A i)) (List.ofFn b) = .ok none ↔
        (∀ x, A.mulVec x ≠ b) ∨ ∃ x y, A.mulVec x = b ∧ A.mulVec y = b ∧ x ≠ y) := by
  rw [← not_existsUnique_iff, solve_ofFn hn]
  rcases eliminate_matrixRows_cases A b with ⟨x, hsome, hunique⟩ | ⟨hnone, hnot⟩
  · rw [hsome]
    refine ⟨fun xs => ?_, ?_⟩
    · rw [Except.ok.injEq, Option.some.injEq]
      constructor
      · rintro rfl
        exact ⟨x, rfl, (hunique x).2 rfl, fun y hy => (hunique y).1 hy⟩
      · rintro ⟨y, rfl, hy, _⟩
        rw [(hunique y).1 hy]
    · have hone : ∃! x, A.mulVec x = b := ⟨x, (hunique x).2 rfl, fun y hy => (hunique y).1 hy⟩
      simp [hone]
  · rw [hnone]
    refine ⟨fun xs => ?_, by simp [hnot]⟩
    constructor
    · intro h
      cases h
    · rintro ⟨x, _, hx, hunique⟩
      exact absurd ⟨x, hx, hunique⟩ hnot

/-- In the first system the second row is the pivot; the rows of the second are multiples of each
other. -/
theorem solve_eq_only_solution_of_two_rows :
    1 ≤ 2 ∧
    (solve [[0, 2], [3, 1]] [4, 5] = .ok (some [1, 2]) ∧
      ∃ x, [1, 2] = List.ofFn x ∧ (!![0, 2; 3, 1] : Matrix (Fin 2) (Fin 2) Rat).mulVec x = ![4, 5] ∧
        ∀ y, (!![0, 2; 3, 1] : Matrix (Fin 2) (Fin 2) Rat).mulVec y = ![4, 5] → y = x) ∧
    solve [[1, 2], [2, 4]] [3, 6] = .ok none ∧
      ((∀ x, (!![1, 2; 2, 4] : Matrix (Fin 2) (Fin 2) Rat).mulVec x ≠ ![3, 6]) ∨
        ∃ x y, (!![1, 2; 2, 4] : Matrix (Fin 2) (Fin 2) Rat).mulVec x = ![3, 6] ∧
          (!![1, 2; 2, 4] : Matrix (Fin 2) (Fin 2) Rat).mulVec y = ![3, 6] ∧ x ≠ y) := by
  have hsome : solve [[0, 2], [3, 1]] [4, 5] = .ok (some [1, 2]) := by
    cbv
  have hnone : solve [[1, 2], [2, 4]] [3, 6] = .ok none := by
    cbv
  have hfirst := (solve_eq_only_solution (by decide) !![0, 2; 3, 1] ![4, 5]).1 [1, 2]
  have hsecond := (solve_eq_only_solution (by decide) !![1, 2; 2, 4] ![3, 6]).2
  exact ⟨by decide, ⟨hsome, hfirst.1 hsome⟩, hnone, hsecond.1 hnone⟩

end RationalAlgebra.Linear
