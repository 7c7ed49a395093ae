import RationalAlgebra.Expr.Basic

/-!
# The order of expressions

Expressions are ordered by their trees. Sums come before products and products before quotients;
sums compare as lists of addends, products by constant, then variables, then factors, and quotients
by numerator, then denominator. Of two lists, one of which begins the other, the shorter comes
first.

Main statements: `cmp_eq_iff`, `cmp_swap` and `cmp_trans` say that this is a linear order, in which
only equal trees compare equal.
-/

namespace RationalAlgebra.Expr

/-- The order of two rationals. -/
def cmpRat (p q : Rat) : Ordering :=
  if p < q then .lt else if p = q then .eq else .gt

mutual

/-- The order of two expressions. -/
def cmp : Expr → Expr → Ordering
  | sum as, sum bs => cmpList as bs
  | sum _, product _ _ _ => .lt
  | sum _, fraction _ _ => .lt
  | product _ _ _, sum _ => .gt
  | product c vs fs, product d ws gs =>
    (cmpRat c d).then ((compare vs ws).then (cmpList fs gs))
  | product _ _ _, fraction _ _ => .lt
  | fraction _ _, sum _ => .gt
  | fraction _ _, product _ _ _ => .gt
  | fraction n d, fraction m e => (cmp n m).then (cmp d e)

/-- The order of two lists of expressions. -/
def cmpList : List Expr → List Expr → Ordering
  | [], [] => .eq
  | [], _ :: _ => .lt
  | _ :: _, [] => .gt
  | a :: as, b :: bs => (cmp a b).then (cmpList as bs)

end

/-! ## The order is linear -/

theorem cmpRat_eq_iff {p q : Rat} : cmpRat p q = .eq ↔ p = q := by
  unfold cmpRat
  split
  · rename_i h
    simp only [reduceCtorEq, false_iff]
    rintro rfl
    exact Rat.lt_irrefl h
  · split <;> simp_all

theorem cmpRat_lt_iff {p q : Rat} : cmpRat p q = .lt ↔ p < q := by
  unfold cmpRat
  split
  · simp_all
  · split <;> simp_all

theorem cmpRat_swap (p q : Rat) : (cmpRat p q).swap = cmpRat q p := by
  unfold cmpRat
  by_cases hpq : p < q
  · have hqp : ¬ q < p := Rat.not_lt.2 (Rat.le_of_lt hpq)
    have hne : ¬ q = p := by
      rintro rfl
      exact hqp hpq
    simp [hpq, hqp, hne]
  · by_cases heq : p = q
    · subst heq
      rw [if_neg hpq, if_pos rfl, Ordering.swap_eq]
    · have hqp : q < p :=
        Decidable.byContradiction fun h =>
          heq (Rat.le_antisymm (Rat.not_lt.1 h) (Rat.not_lt.1 hpq))
      simp [hpq, heq, hqp]

theorem cmpRat_trans {p q r : Rat} (hpq : cmpRat p q = .lt) (hqr : cmpRat q r = .lt) :
    cmpRat p r = .lt := by
  rw [cmpRat_lt_iff] at *
  have hle : p ≤ r := Rat.le_trans (Rat.le_of_lt hpq) (Rat.le_of_lt hqr)
  refine Decidable.byContradiction fun h => ?_
  -- Were it not smaller, the two ends would be equal, and lie below each other.
  have heq : p = r := Rat.le_antisymm hle (Rat.not_lt.1 h)
  subst heq
  exact Rat.not_lt.2 (Rat.le_of_lt hpq) hqr

mutual

/-- Only equal trees compare equal. -/
theorem cmp_eq_iff : ∀ {a b : Expr}, cmp a b = .eq ↔ a = b
  | sum as, sum bs => by simp [cmp, cmpList_eq_iff]
  | sum _, product _ _ _ => by simp [cmp]
  | sum _, fraction _ _ => by simp [cmp]
  | product _ _ _, sum _ => by simp [cmp]
  | product c vs fs, product d ws gs => by
    simp [cmp, Ordering.then_eq_eq, cmpRat_eq_iff, cmpList_eq_iff]
  | product _ _ _, fraction _ _ => by simp [cmp]
  | fraction _ _, sum _ => by simp [cmp]
  | fraction _ _, product _ _ _ => by simp [cmp]
  | fraction n d, fraction m e => by
    simp [cmp, Ordering.then_eq_eq, @cmp_eq_iff n m, @cmp_eq_iff d e]

/-- Only equal lists compare equal. -/
theorem cmpList_eq_iff : ∀ {as bs : List Expr}, cmpList as bs = .eq ↔ as = bs
  | [], [] => by simp [cmpList]
  | [], _ :: _ => by simp [cmpList]
  | _ :: _, [] => by simp [cmpList]
  | a :: as, b :: bs => by
    simp [cmpList, Ordering.then_eq_eq, @cmp_eq_iff a b, @cmpList_eq_iff as bs]

end

mutual

/-- The order the other way round. -/
theorem cmp_swap : ∀ a b : Expr, (cmp a b).swap = cmp b a
  | sum as, sum bs => by simp [cmp, cmpList_swap]
  | sum _, product _ _ _ => by simp [cmp]
  | sum _, fraction _ _ => by simp [cmp]
  | product _ _ _, sum _ => by simp [cmp]
  | product c vs fs, product d ws gs => by
    rw [cmp, cmp, Ordering.swap_then, Ordering.swap_then, cmpRat_swap, cmpList_swap,
      ← Std.OrientedCmp.eq_swap]
  | product _ _ _, fraction _ _ => by simp [cmp]
  | fraction _ _, sum _ => by simp [cmp]
  | fraction _ _, product _ _ _ => by simp [cmp]
  | fraction n d, fraction m e => by
    rw [cmp, cmp, Ordering.swap_then, cmp_swap n m, cmp_swap d e]

/-- The order of lists the other way round. -/
theorem cmpList_swap : ∀ as bs : List Expr, (cmpList as bs).swap = cmpList bs as
  | [], [] => by simp [cmpList]
  | [], _ :: _ => by simp [cmpList]
  | _ :: _, [] => by simp [cmpList]
  | a :: as, b :: bs => by
    rw [cmpList, cmpList, Ordering.swap_then, cmp_swap a b, cmpList_swap as bs]

end

theorem compare_names_trans {as bs cs : List String} (hab : compare as bs = .lt)
    (hbc : compare bs cs = .lt) : compare as cs = .lt :=
  Std.TransCmp.lt_trans hab hbc

mutual

/-- What comes before a tree comes before all that comes after it. -/
theorem cmp_trans : ∀ {a b c : Expr}, cmp a b = .lt → cmp b c = .lt → cmp a c = .lt
  | sum as, b, c, hab, hbc => by
    -- Sums, products and quotients are apart: what is left are trees of one kind.
    cases b <;> cases c <;> simp only [cmp, reduceCtorEq] at hab hbc ⊢
    exact cmpList_trans hab hbc
  | product p vs fs, b, c, hab, hbc => by
    cases b <;> cases c <;> simp only [cmp, reduceCtorEq] at hab hbc ⊢
    simp only [Ordering.then_eq_lt, cmpRat_eq_iff, Std.compare_eq_iff_eq] at hab hbc ⊢
    -- The trees differ first in the constant, in the variables or in the factors, and the earlier
    -- of two such places decides.
    rcases hab with hab | ⟨rfl, hab | ⟨rfl, hab⟩⟩
    · rcases hbc with hbc | ⟨rfl, _⟩
      · exact Or.inl (cmpRat_trans hab hbc)
      · exact Or.inl hab
    · rcases hbc with hbc | ⟨rfl, hbc | ⟨rfl, _⟩⟩
      · exact Or.inl hbc
      · exact Or.inr ⟨rfl, Or.inl (compare_names_trans hab hbc)⟩
      · exact Or.inr ⟨rfl, Or.inl hab⟩
    · rcases hbc with hbc | ⟨rfl, hbc | ⟨rfl, hbc⟩⟩
      · exact Or.inl hbc
      · exact Or.inr ⟨rfl, Or.inl hbc⟩
      · exact Or.inr ⟨rfl, Or.inr ⟨rfl, cmpList_trans hab hbc⟩⟩
  | fraction n d, b, c, hab, hbc => by
    cases b <;> cases c <;> simp only [cmp, reduceCtorEq] at hab hbc ⊢
    simp only [Ordering.then_eq_lt, cmp_eq_iff] at hab hbc ⊢
    rcases hab with hab | ⟨rfl, hab⟩
    · rcases hbc with hbc | ⟨rfl, _⟩
      · exact Or.inl (cmp_trans hab hbc)
      · exact Or.inl hab
    · rcases hbc with hbc | ⟨rfl, hbc⟩
      · exact Or.inl hbc
      · exact Or.inr ⟨rfl, cmp_trans hab hbc⟩

/-- What comes before a list comes before all that comes after it. -/
theorem cmpList_trans : ∀ {as bs cs : List Expr}, cmpList as bs = .lt → cmpList bs cs = .lt →
    cmpList as cs = .lt
  | [], bs, cs, hab, hbc => by
    cases bs <;> cases cs <;> simp_all [cmpList]
  | a :: as, bs, cs, hab, hbc => by
    cases bs <;> cases cs <;> simp only [cmpList, reduceCtorEq] at hab hbc ⊢
    simp only [Ordering.then_eq_lt, cmp_eq_iff] at hab hbc ⊢
    -- Two lists differ first in their heads or in their tails, and the earlier place decides.
    rcases hab with hab | ⟨rfl, hab⟩
    · rcases hbc with hbc | ⟨rfl, _⟩
      · exact Or.inl (cmp_trans hab hbc)
      · exact Or.inl hab
    · rcases hbc with hbc | ⟨rfl, hbc⟩
      · exact Or.inl hbc
      · exact Or.inr ⟨rfl, cmpList_trans hab hbc⟩

end

/-- Trees are equal or not according to their order. -/
instance : DecidableEq Expr := fun _ _ =>
  decidable_of_iff _ cmp_eq_iff

end RationalAlgebra.Expr
