import RationalAlgebra.Expr.Order
import RationalAlgebra.Expr.Printer

/-!
# The canonical order

In a normal form the addends of a sum and the factors of a product stand in canonical order: the
constant one before all else, then by text, and by tree among expressions with the same text. An
expression is kept together with its text, so that the text is made once.

Main statements: `Keyed.cmp_eq_iff`, `Keyed.cmp_swap` and `Keyed.cmp_trans`: the order is linear.
-/

namespace RationalAlgebra

/-- An expression and its text. -/
structure Keyed where
  expr : Expr
  key : String
  key_eq : key = expr.text

namespace Keyed

/-- An expression beside its text. -/
def of (e : Expr) : Keyed :=
  ⟨e, e.text, rfl⟩

@[simp]
theorem expr_of (e : Expr) : (of e).expr = e :=
  rfl

/-- The text is that of the expression, so the expression says all. -/
@[ext]
theorem ext {a b : Keyed} (h : a.expr = b.expr) : a = b := by
  obtain ⟨e, k, hk⟩ := a
  obtain ⟨e', k', hk'⟩ := b
  simp only at h
  subst h hk hk'
  rfl

/-- An expression with its text is made again from the expression alone. -/
@[simp]
theorem of_expr (a : Keyed) : of a.expr = a :=
  ext rfl

/-- The constant one stands apart from all else. -/
def rank (a : Keyed) : Nat :=
  if a.expr.isOne then 0 else 1

/-- The canonical order. -/
def cmp (a b : Keyed) : Ordering :=
  (compare a.rank b.rank).then ((compare a.key b.key).then (a.expr.cmp b.expr))

/-- Whether an expression may stand before another. -/
def le (a b : Keyed) : Bool :=
  (cmp a b).isLE

/-! ## The order is linear -/

/-- Only equal expressions compare equal: the tree decides between those with one text. -/
theorem cmp_eq_iff {a b : Keyed} : cmp a b = .eq ↔ a = b := by
  simp only [cmp, Ordering.then_eq_eq, Expr.cmp_eq_iff]
  constructor
  · -- Equal trees are enough, and rank and text follow.
    rintro ⟨_, _, h⟩
    exact ext h
  · rintro rfl
    simp

/-- The canonical order the other way round. -/
theorem cmp_swap (a b : Keyed) : (cmp a b).swap = cmp b a := by
  rw [cmp, cmp, Ordering.swap_then, Ordering.swap_then, Expr.cmp_swap,
    ← Std.OrientedCmp.eq_swap, ← Std.OrientedCmp.eq_swap]

/-- The canonical order is transitive. -/
theorem cmp_trans {a b c : Keyed} (hab : cmp a b = .lt) (hbc : cmp b c = .lt) :
    cmp a c = .lt := by
  simp only [cmp, Ordering.then_eq_lt, Std.compare_eq_iff_eq] at hab hbc ⊢
  -- Rank, text and tree decide in this order: of the places where the two pairs differ, the earlier
  -- one is where the ends differ.
  rcases hab with hab | ⟨hab, hab' | ⟨hab', hab''⟩⟩
  · rcases hbc with hbc | ⟨hbc, _⟩
    · exact Or.inl (Std.TransCmp.lt_trans hab hbc)
    · exact Or.inl (hbc ▸ hab)
  · rcases hbc with hbc | ⟨hbc, hbc' | ⟨hbc', _⟩⟩
    · exact Or.inl (hab ▸ hbc)
    · exact Or.inr ⟨hab.trans hbc, Or.inl (Std.TransCmp.lt_trans hab' hbc')⟩
    · exact Or.inr ⟨hab.trans hbc, Or.inl (hbc' ▸ hab')⟩
  · rcases hbc with hbc | ⟨hbc, hbc' | ⟨hbc', hbc''⟩⟩
    · exact Or.inl (hab ▸ hbc)
    · exact Or.inr ⟨hab.trans hbc, Or.inl (hab' ▸ hbc')⟩
    · exact Or.inr ⟨hab.trans hbc, Or.inr ⟨hab'.trans hbc', Expr.cmp_trans hab'' hbc''⟩⟩

theorem cmp_eq_gt_iff {a b : Keyed} : cmp a b = .gt ↔ cmp b a = .lt := by
  rw [← cmp_swap a b, Ordering.swap_eq_lt]

/-- One expression may stand before another if it comes first or is the same. -/
theorem le_iff {a b : Keyed} : le a b = true ↔ cmp a b = .lt ∨ a = b := by
  rw [le, ← cmp_eq_iff, Ordering.isLE_iff_eq_lt_or_eq_eq]

theorem le_total (a b : Keyed) : (le a b || le b a) = true := by
  rw [le, le, ← cmp_swap a b]
  cases cmp a b <;> rfl

/-- What may stand before an expression may stand before all that comes after it. -/
theorem le_trans (a b c : Keyed) (hab : le a b = true) (hbc : le b c = true) :
    le a c = true := by
  rw [le_iff] at *
  rcases hab with hab | rfl
  · rcases hbc with hbc | rfl
    · exact Or.inl (cmp_trans hab hbc)
    · exact Or.inl hab
  · exact hbc

end Keyed

/-- Some expressions in canonical order. -/
def Expr.sortList (es : List Expr) : List Expr :=
  ((es.map Keyed.of).mergeSort Keyed.le).map Keyed.expr

/-- Sorting loses nothing and adds nothing. -/
theorem Expr.sortList_perm (es : List Expr) : (Expr.sortList es).Perm es := by
  have h := (List.mergeSort_perm (es.map Keyed.of) Keyed.le).map Keyed.expr
  simpa [sortList, List.map_map, Function.comp_def] using h

end RationalAlgebra
