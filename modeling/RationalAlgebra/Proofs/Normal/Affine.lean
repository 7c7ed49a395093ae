import Mathlib
import RationalAlgebra.Equation.Isolation
import RationalAlgebra.Proofs.Normal.Canonical

/-!
# Linear equations in normal form

Normalization does not raise the degree (`degree_normalize_le`), so what is linear stays linear. The
normal form of a linear equation is affine, a combination of constants and variables. Affine
expressions are determined by their values, and every computation with them here is one with values:
two polynomials with the same values everywhere have the same normal form.
-/

namespace RationalAlgebra

open RationalAlgebra.Expr

/-- The valuation that gives every name a value. -/
def Valuation.total (f : String → Rat) : Valuation := fun x => some (f x)

/-- A total valuation is read as the function it is made from. -/
@[simp]
theorem Valuation.read_total (f : String → Rat) (x : String) : (Valuation.total f).read x = f x :=
  rfl

namespace Expr

/-! ## Degrees -/

/-- A multiple has no larger degree; zero times an expression has a smaller one. -/
theorem degree_scale_le (k : Rat) (e : Expr) : (scale k e).degree ≤ e.degree := by
  have h := degree_multiply_le k [] [e]
  simpa [degreeSum, scale] using h

/-- A quotient has one degree more than its parts at most, whichever rule builds it. -/
theorem degree_divide_le (n d : Expr) : (divide n d).degree ≤ 1 + n.degree + d.degree := by
  -- One case for each rule. Those that go on divide a pair of smaller degree, or the same pair
  -- without coefficients.
  fun_induction divide n d with
  | case1 n d _ => simp [zero, const, degree, degreeSum]
  | case2 n d _ _ => rw [degree]
  | case3 n d _ k _ _ =>
    have h := degree_scale_le k⁻¹ n
    omega
  | case4 addends d _ _ ih =>
    apply Combination.degree_toExpr_le
    apply Combination.degreeLE_ofExprs
    intro e he
    obtain ⟨e', _, rfl⟩ := List.mem_map.1 he
    have hle := degree_le_of_mem e'.2
    have h := ih e'
    omega
  -- Across a quotient the two denominators, or the two outer parts, are multiplied, which adds
  -- their degrees.
  | case5 a b d _ _ ih =>
    have h := degree_multiply_le 1 [] [b, d]
    simp only [degree, degreeSum, List.length_nil] at h ⊢
    omega
  | case6 n a b _ _ _ _ ih =>
    have h := degree_multiply_le 1 [] [n, b]
    simp only [degree, degreeSum, List.length_nil] at h ⊢
    omega
  | case7 n d _ _ _ p hp _ _ ih =>
    have h := degree_cancelCommon?_lt hp
    omega
  | case8 n d _ _ _ _ _ _ _ => rw [degree]
  | case9 n d _ _ _ _ _ _ _ _ => rw [degree, degree_split, degree_split]
  | case10 n d _ _ _ _ _ _ _ _ ih =>
    rw [degree_split, degree_split] at ih
    exact (degree_scale_le _ _).trans ih

/-- A map that raises no degree raises no sum of degrees. -/
theorem degreeSum_map_le {f : Expr → Expr} {es : List Expr}
    (h : ∀ e ∈ es, (f e).degree ≤ e.degree) : degreeSum (es.map f) ≤ degreeSum es := by
  induction es with
  | nil => exact le_refl _
  | cons e es ih =>
    obtain ⟨hhead, htail⟩ := List.forall_mem_cons.1 h
    rw [List.map_cons, degreeSum, degreeSum]
    exact add_le_add hhead (ih htail)

/-- Normalization does not raise the degree. -/
theorem degree_normalize_le (e : Expr) : e.normalize.degree ≤ e.degree := by
  induction e using tree_induction with
  | sum es ih =>
    rw [normalize, normalizeList_eq]
    apply Combination.degree_toExpr_le
    apply Combination.degreeLE_ofExprs
    rw [List.forall_mem_map]
    exact fun e he => (ih e he).trans (degree_le_of_mem he)
  | product c vs fs ih =>
    rw [normalize, normalizeList_eq, degree]
    split
    · simp [zero, const, degree, degreeSum]
    · have h := degree_multiply_le c vs (fs.map normalize)
      have hle := degreeSum_map_le ih
      omega
  | fraction n d ihn ihd =>
    rw [normalize, degree]
    have h := degree_divide_le n.normalize d.normalize
    omega

/-- A multiple that is only written down has the degree of the expression. -/
theorem degree_scaled (k : Rat) (e : Expr) : (e.scaled k).degree = e.degree := by
  cases e with
  | sum es => simp [scaled, degree, degreeSum]
  | product c vs fs => simp [scaled, degree]
  | fraction n d => simp [scaled, degree, degreeSum]

/-- A term has no larger degree than the expression it is a term of. -/
theorem degree_addends_le {e t : Expr} (ht : t ∈ e.addends) : t.degree ≤ e.degree := by
  cases e with
  | sum es => exact degree_le_of_mem ht
  | product c vs fs => rw [List.mem_singleton.1 ht]
  | fraction n d => rw [List.mem_singleton.1 ht]

/-- The largest degree of a term is that of the expression. -/
theorem degree_le_of_addends {e : Expr} {n : Nat} (h : ∀ t ∈ e.addends, t.degree ≤ n) :
    e.degree ≤ n := by
  cases e with
  | sum es =>
    rw [degree]
    exact degreeMax_le_iff.2 h
  | product c vs fs => exact h _ List.mem_cons_self
  | fraction n d => exact h _ List.mem_cons_self

/-! ## Polynomials with the same values -/

/-- A polynomial expression has a value under every total valuation, since it divides by constants
only. -/
theorem IsPolynomial.defined_total {e : Expr} (h : e.IsPolynomial) (f : String → Rat) :
    e.Defined (.total f) :=
  h.defined fun _ _ => rfl

/-- The value of a variable that does not occur does not matter. -/
theorem eval_total_update {e : Expr} {x : String} (hx : x ∉ e.occurrences) (f : String → Rat)
    (q : Rat) : e.eval (.total (Function.update f x q)) = e.eval (.total f) := by
  apply eval_congr
  intro y hy
  rw [Valuation.total, Valuation.total, Function.update_of_ne (ne_of_mem_of_not_mem hy hx)]

/-- The normal form of a polynomial expression has its values. -/
theorem IsPolynomial.value_normalize {e : Expr} (h : e.IsPolynomial) (f : String → Rat) :
    e.normalize.value (.total f) = e.value (.total f) :=
  (defined_normalize (h.defined_total f)).2

/-- A multiple of a power product is a polynomial expression. -/
theorem IsPowerTerm.isPolynomial {e : Expr} (h : e.IsPowerTerm) : e.IsPolynomial := by
  obtain ⟨c, vs, rfl, _⟩ := h
  simp [IsPolynomial, AllPolynomial]

/-- A term of a polynomial that is multiplied out is a multiple of a power product. -/
theorem IsExpanded.isPowerTerm {e t : Expr} (h : e.IsExpanded) (ht : t ∈ e.addends) :
    t.IsPowerTerm := by
  rcases h.cases with hterm | ⟨es, rfl, hes⟩
  · have hsingle : e.addends = [e] := by
      obtain ⟨c, vs, rfl, _⟩ := hterm
      rfl
    rw [hsingle, List.mem_singleton] at ht
    rwa [ht]
  · exact hes t ht

/-- A polynomial that is multiplied out is a polynomial expression. -/
theorem IsExpanded.isPolynomial {e : Expr} (h : e.IsExpanded) : e.IsPolynomial := by
  rcases h.cases with hterm | ⟨es, rfl, hes⟩
  · exact hterm.isPolynomial
  · rw [IsPolynomial, allPolynomial_iff]
    exact fun t ht => (hes t ht).isPolynomial

/-- A combination is the normal form of every polynomial that has its values. -/
theorem IsExpanded.eq_normalize {e p : Expr} (h : e.IsExpanded) (hp : p.IsPolynomial)
    (heq : ∀ f, e.value (.total f) = p.value (.total f)) : p.normalize = e := by
  apply (isExpanded_normalize hp).eq_of_value_eq h
  intro f
  exact (hp.value_normalize f).trans (heq f).symm

/-- A polynomial that is multiplied out is its own normal form. -/
theorem IsExpanded.normalize_eq {e : Expr} (h : e.IsExpanded) : e.normalize = e :=
  h.eq_normalize h.isPolynomial fun _ => rfl

/-- Polynomials with the same values have the same normal form. -/
theorem IsPolynomial.normalize_eq {p q : Expr} (hp : p.IsPolynomial) (hq : q.IsPolynomial)
    (heq : ∀ f, p.value (.total f) = q.value (.total f)) : p.normalize = q.normalize := by
  apply (isExpanded_normalize hq).eq_normalize hp
  intro f
  exact (hq.value_normalize f).trans (heq f).symm

theorem isPolynomial_sum {es : List Expr} : (sum es).IsPolynomial ↔ ∀ e ∈ es, e.IsPolynomial := by
  rw [IsPolynomial, allPolynomial_iff]

/-- A multiple of a polynomial expression is polynomial. -/
theorem isPolynomial_scaled {k : Rat} {e : Expr} (h : e.IsPolynomial) :
    (e.scaled k).IsPolynomial := by
  cases e with
  | sum es => simpa [scaled, IsPolynomial, AllPolynomial] using h
  | product c vs fs => exact h
  | fraction n d => simpa [scaled, IsPolynomial, AllPolynomial] using h

/-! ## Affine expressions -/

/-- A combination of constants and variables. -/
structure IsAffine (e : Expr) : Prop where
  expanded : e.IsExpanded
  degree_le : e.degree ≤ 1

/-- A polynomial in whose normal form every addend is a constant or a multiple of a variable. -/
def IsLinear (e : Expr) : Prop :=
  e.IsPolynomial ∧
    ∀ t ∈ e.normalize.addends, (∃ c, t = const c) ∨ ∃ c x, t = product c [x] []

theorem IsAffine.isPolynomial {e : Expr} (h : e.IsAffine) : e.IsPolynomial :=
  h.expanded.isPolynomial

theorem IsAffine.normalize_eq {e : Expr} (h : e.IsAffine) : e.normalize = e :=
  h.expanded.normalize_eq

/-- A polynomial of degree one at most has an affine normal form. -/
theorem isAffine_normalize {e : Expr} (he : e.IsPolynomial) (hdegree : e.degree ≤ 1) :
    e.normalize.IsAffine :=
  ⟨isExpanded_normalize he, (degree_normalize_le e).trans hdegree⟩

/-- The addends of an affine expression are constants and multiples of variables. -/
theorem IsAffine.addends_cases {e t : Expr} (h : e.IsAffine) (ht : t ∈ e.addends) :
    (∃ c, t = const c) ∨ ∃ c x, t = product c [x] [] := by
  have hdegree := (degree_addends_le ht).trans h.degree_le
  obtain ⟨c, vs, rfl, _⟩ := h.expanded.isPowerTerm ht
  rcases vs with _ | ⟨x, _ | ⟨y, vs⟩⟩
  · exact Or.inl ⟨c, rfl⟩
  · exact Or.inr ⟨c, x, rfl⟩
  · simp [degree, degreeSum] at hdegree

/-- The linear polynomials are those with an affine normal form. -/
theorem isLinear_iff {e : Expr} : e.IsLinear ↔ e.IsPolynomial ∧ e.normalize.IsAffine := by
  constructor
  · rintro ⟨he, hterms⟩
    refine ⟨he, isExpanded_normalize he, degree_le_of_addends fun t ht => ?_⟩
    rcases hterms t ht with ⟨c, rfl⟩ | ⟨c, x, rfl⟩
    · simp [const, degree, degreeSum]
    · simp [degree, degreeSum]
  · rintro ⟨he, haffine⟩
    exact ⟨he, fun t ht => haffine.addends_cases ht⟩

theorem IsAffine.isLinear {e : Expr} (h : e.IsAffine) : e.IsLinear :=
  isLinear_iff.2 ⟨h.isPolynomial, by rwa [h.normalize_eq]⟩

end Expr

end RationalAlgebra
