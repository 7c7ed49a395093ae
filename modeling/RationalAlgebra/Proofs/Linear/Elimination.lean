import Mathlib
import RationalAlgebra.Linear.Elimination

/-!
# Elimination is exact

Elimination has an answer exactly if the system has one solution, and that is the answer. Values
that satisfy the pivot's equation satisfy another one exactly if they satisfy it with the leading
unknown cleared, so a system is the equation of its pivot together with a smaller system, which is
solved by induction on the number of unknowns. A system without a pivot says nothing about its first
unknown.

Main statements: `eliminate_eq_some` and `not_existsUnique_of_eliminate_eq_none`.
-/

namespace RationalAlgebra.Linear

/-- Values of the unknowns at which the equation of a row holds. -/
def Row.Holds (r : Row) (xs : List Rat) : Prop :=
  dot r.coefficients xs = r.constant

/-- The first coefficient and the others; a row without coefficients counts as zeros. -/
theorem dot_cons (as : List Rat) (x : Rat) (xs : List Rat) :
    dot as (x :: xs) = as.headD 0 * x + dot as.tail xs := by
  cases as with
  | nil => simp [dot]
  | cons a as => simp [dot]

/-- The sums of products of a difference, in which every second place is a multiple. -/
theorem dot_zipWith_sub (factor : Rat) {as bs : List Rat} (h : as.length = bs.length)
    (xs : List Rat) : dot (List.zipWith (fun a b => a - b * factor) as bs) xs =
      dot as xs - dot bs xs * factor := by
  induction as generalizing bs xs with
  | nil =>
    rw [List.length_nil, eq_comm, List.length_eq_zero_iff] at h
    simp [h, dot]
  | cons a as ih =>
    cases bs with
    | nil => cases h
    | cons b bs =>
      cases xs with
      | nil => simp [dot]
      | cons x xs =>
        rw [List.zipWith_cons_cons, dot, dot, dot, ih (Nat.succ.inj h)]
        ring

/-- The pivot is one of the rows and has a nonzero leading coefficient, and the others are the
others. -/
theorem findPivot?_eq_some {rows others : List Row} {pivot : Row}
    (h : findPivot? rows = some (pivot, others)) :
    pivot.leading ≠ 0 ∧ rows.Perm (pivot :: others) := by
  induction rows generalizing others with
  | nil => cases h
  | cons r rows ih =>
    rw [findPivot?] at h
    split at h
    · -- The first row with the unknown is the pivot row, and those before it stay where they are.
      rename_i hne
      cases h
      exact ⟨hne, List.Perm.refl _⟩
    · obtain ⟨⟨pivot', others'⟩, hfound, heq⟩ := Option.map_eq_some_iff.1 h
      cases heq
      obtain ⟨hne, hperm⟩ := ih hfound
      exact ⟨hne, (hperm.cons r).trans (List.Perm.swap _ _ _)⟩

/-- The pivot's equation is solved for its leading unknown. -/
theorem Row.holds_cons_iff {pivot : Row} (hne : pivot.leading ≠ 0) {x : Rat} {xs : List Rat} :
    pivot.Holds (x :: xs) ↔ x = pivot.solveLeading xs := by
  rw [Row.Holds, dot_cons, Row.solveLeading, eq_div_iff hne, eq_sub_iff_add_eq, mul_comm x]
  rfl

/-- Where the pivot's equation holds, another one holds exactly if it does without the leading
unknown. -/
theorem Row.holds_clear_iff {pivot r : Row} (hne : pivot.leading ≠ 0)
    (hlength : r.coefficients.length = pivot.coefficients.length) {x : Rat} {xs : List Rat}
    (hpivot : pivot.Holds (x :: xs)) : (pivot.clear r).Holds xs ↔ r.Holds (x :: xs) := by
  have htrailing : r.trailing.length = pivot.trailing.length := by
    simp [Row.trailing, hlength]
  have hpivot' : pivot.leading * x + dot pivot.trailing xs = pivot.constant := by
    rwa [Row.Holds, dot_cons] at hpivot
  have hfactor : r.leading / pivot.leading * pivot.leading = r.leading := div_mul_cancel₀ _ hne
  have hr : dot r.coefficients (x :: xs) = r.leading * x + dot r.trailing xs := dot_cons _ _ _
  simp only [Row.Holds, Row.clear, dot_zipWith_sub _ htrailing, hr, ← hpivot']
  -- The cleared row is the row less a multiple of the pivot row, which holds.
  constructor
  · intro h
    linear_combination h - x * hfactor
  · intro h
    linear_combination h + x * hfactor

/-- Without a pivot no row holds the first unknown. -/
theorem findPivot?_eq_none {rows : List Row} (h : findPivot? rows = none) :
    ∀ r ∈ rows, r.leading = 0 := by
  induction rows with
  | nil => simp
  | cons r rows ih =>
    rw [findPivot?] at h
    split at h
    · cases h
    · rename_i hzero
      rw [Option.map_eq_none_iff] at h
      exact List.forall_mem_cons.2 ⟨not_not.1 hzero, ih h⟩

/-- A row without the first unknown says nothing about it. -/
theorem Row.holds_cons_of_leading_eq_zero {r : Row} (h : r.leading = 0) {x : Rat} {xs : List Rat} :
    r.Holds (x :: xs) ↔ dot r.trailing xs = r.constant := by
  have hdot : dot r.coefficients (x :: xs) = r.leading * x + dot r.trailing xs := dot_cons _ _ _
  rw [Row.Holds, hdot, h, zero_mul, zero_add]

/-! ## Square systems -/

/-- As many rows as unknowns, and a coefficient for each unknown in every row. -/
structure IsSquare (n : Nat) (rows : List Row) : Prop where
  length_eq : rows.length = n
  coefficients_eq : ∀ r ∈ rows, r.coefficients.length = n

theorem exists_of_mem_zipWith {α β γ : Type} {f : α → β → γ} {as : List α} {bs : List β} {c : γ}
    (h : c ∈ List.zipWith f as bs) : ∃ a ∈ as, ∃ b, c = f a b := by
  rw [← List.map_uncurry_zip_eq_zipWith] at h
  obtain ⟨⟨a, b⟩, hab, heq⟩ := List.mem_map.1 h
  exact ⟨a, (List.of_mem_zip hab).1, b, heq.symm⟩

/-- Rows and constants that are given in matching numbers make a square system. -/
theorem isSquare_zipWith {rows : List (List Rat)} {constants : List Rat}
    (hrows : rows.length = constants.length) (hrow : ∀ row ∈ rows, row.length = constants.length) :
    IsSquare constants.length (List.zipWith Row.mk rows constants) := by
  constructor
  · simp [hrows]
  · intro r hr
    obtain ⟨row, hmem, c, rfl⟩ := exists_of_mem_zipWith hr
    exact hrow row hmem

/-- Without the pivot and the leading unknown a square system is a smaller square system. -/
theorem IsSquare.clear {n : Nat} {rows others : List Row} {pivot : Row}
    (h : IsSquare (n + 1) rows) (hperm : rows.Perm (pivot :: others)) :
    IsSquare n (others.map pivot.clear) := by
  have hlengths : ∀ r ∈ pivot :: others, r.coefficients.length = n + 1 :=
    fun r hr => h.coefficients_eq r (hperm.mem_iff.2 hr)
  obtain ⟨hpivot, hothers⟩ := List.forall_mem_cons.1 hlengths
  constructor
  · have hlength := hperm.length_eq
    rw [h.length_eq, List.length_cons] at hlength
    simpa using (Nat.succ.inj hlength).symm
  · rw [List.forall_mem_map]
    intro r hr
    simp [Row.clear, Row.trailing, hothers r hr, hpivot]

/-- A square system holds if the pivot's equation gives the leading unknown and the other rows hold
without it. -/
theorem IsSquare.forall_holds_iff {n : Nat} {rows others : List Row} {pivot : Row}
    (h : IsSquare n rows) (hne : pivot.leading ≠ 0) (hperm : rows.Perm (pivot :: others))
    {x : Rat} {xs : List Rat} : (∀ r ∈ rows, r.Holds (x :: xs)) ↔
      x = pivot.solveLeading xs ∧ ∀ r ∈ others.map pivot.clear, r.Holds xs := by
  have hlengths : ∀ r ∈ pivot :: others, r.coefficients.length = n :=
    fun r hr => h.coefficients_eq r (hperm.mem_iff.2 hr)
  obtain ⟨hpivot, hothers⟩ := List.forall_mem_cons.1 hlengths
  simp only [hperm.mem_iff, List.forall_mem_cons, List.forall_mem_map, ← Row.holds_cons_iff hne]
  refine and_congr_right fun hholds => forall₂_congr fun r hr => ?_
  exact (Row.holds_clear_iff hne ((hothers r hr).trans hpivot.symm) hholds).symm

/-! ## Elimination -/

/-- The answer of elimination on a square system has a value for each unknown, and the rows hold at
these values and no others. -/
theorem eliminate_eq_some {n : Nat} {rows : List Row} {xs : List Rat} (hsquare : IsSquare n rows)
    (h : eliminate n rows = some xs) :
    xs.length = n ∧
      ∀ ys : List Rat, ys.length = n → ((∀ r ∈ rows, r.Holds ys) ↔ ys = xs) := by
  -- One unknown and one row are eliminated at a time.
  induction n generalizing rows xs with
  | zero =>
    have hrows := List.length_eq_zero_iff.1 hsquare.length_eq
    rw [eliminate] at h
    cases h
    refine ⟨rfl, fun ys hys => ?_⟩
    rw [List.length_eq_zero_iff] at hys
    simp [hrows, hys]
  | succ n ih =>
    rw [eliminate] at h
    split at h
    · cases h
    · rename_i pivot others hfound
      split at h
      · cases h
      · rename_i rest hrest
        cases h
        obtain ⟨hne, hperm⟩ := findPivot?_eq_some hfound
        obtain ⟨hlength, hunique⟩ := ih (hsquare.clear hperm) hrest
        refine ⟨congrArg Nat.succ hlength, fun ys hys => ?_⟩
        cases ys with
        | nil => cases hys
        | cons y ys =>
          -- The rows hold if the first unknown is what the pivot row says, and the others solve the
          -- smaller system.
          rw [hsquare.forall_holds_iff hne hperm, hunique ys (Nat.succ.inj hys), List.cons.injEq]
          constructor
          · rintro ⟨hy, rfl⟩
            exact ⟨hy, rfl⟩
          · rintro ⟨hy, rfl⟩
            exact ⟨hy, rfl⟩

/-- Where elimination on a square system has no answer, the system does not have exactly one
solution. -/
theorem not_existsUnique_of_eliminate_eq_none {n : Nat} {rows : List Row}
    (hsquare : IsSquare n rows) (h : eliminate n rows = none) :
    ¬ ∃! xs : List Rat, xs.length = n ∧ ∀ r ∈ rows, r.Holds xs := by
  induction n generalizing rows with
  | zero => cases h
  | succ n ih =>
    rintro ⟨xs, ⟨hlength, hholds⟩, hunique⟩
    rcases xs with _ | ⟨x, xs⟩
    · cases hlength
    rw [eliminate] at h
    split at h
    · -- No row holds the first unknown, so it may have another value as well.
      rename_i hfound
      have hzero := findPivot?_eq_none hfound
      have hother : ∀ r ∈ rows, r.Holds ((x + 1) :: xs) := by
        intro r hr
        have hr' := hholds r hr
        rw [Row.holds_cons_of_leading_eq_zero (hzero r hr)] at hr' ⊢
        exact hr'
      have hsame := hunique ((x + 1) :: xs) ⟨hlength, hother⟩
      simp at hsame
    · rename_i pivot others hfound
      obtain ⟨hne, hperm⟩ := findPivot?_eq_some hfound
      split at h
      · -- A second solution of the smaller system would give a second one of the whole.
        rename_i hrest
        apply ih (hsquare.clear hperm) hrest
        refine ⟨xs, ⟨Nat.succ.inj hlength, ((hsquare.forall_holds_iff hne hperm).1 hholds).2⟩, ?_⟩
        rintro ys ⟨hys, hholds'⟩
        have hsame := hunique (pivot.solveLeading ys :: ys)
          ⟨congrArg Nat.succ hys, (hsquare.forall_holds_iff hne hperm).2 ⟨rfl, hholds'⟩⟩
        exact (List.cons.inj hsame).2
      · cases h

/-! ## Systems of the right shape -/

/-- Only a system of the right shape is solved at all, and its answer is that of elimination. -/
theorem shape_of_solve {rows : List (List Rat)} {constants : List Rat} {answer : Option (List Rat)}
    (h : solve rows constants = .ok answer) :
    1 ≤ constants.length ∧ rows.length = constants.length ∧
      (∀ row ∈ rows, row.length = constants.length) ∧
      eliminate constants.length (List.zipWith Row.mk rows constants) = answer := by
  unfold solve at h
  simp only at h
  -- The three checks of the input come first.
  split at h
  · cases h
  · rename_i hconstants
    split at h
    · cases h
    · rename_i hrows
      split at h
      · cases h
      · rename_i hlengths
        exact ⟨Nat.one_le_iff_ne_zero.2 hconstants, not_not.1 hrows, by simpa using hlengths,
          Except.ok.inj h⟩

/-- A solution comes from the elimination of a square system. -/
theorem solve_eq_some {rows : List (List Rat)} {constants xs : List Rat}
    (h : solve rows constants = .ok (some xs)) :
    IsSquare constants.length (List.zipWith Row.mk rows constants) ∧
      eliminate constants.length (List.zipWith Row.mk rows constants) = some xs := by
  obtain ⟨_, hrows, hlengths, heliminate⟩ := shape_of_solve h
  exact ⟨isSquare_zipWith hrows hlengths, heliminate⟩

end RationalAlgebra.Linear
