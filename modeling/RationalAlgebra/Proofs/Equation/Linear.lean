import Mathlib
import RationalAlgebra.Proofs.Equation.Coefficients
import RationalAlgebra.Proofs.Equation.Polynomial

/-!
# Linear equations

In a linear equation every variable that is left can be isolated, and what it is isolated to is
affine. So is everything else that elimination makes out of linear equations: what is left of an
equation when affine bindings are put in, and what is left of a binding when a variable is
eliminated.

Main statements: `isAffine_present` and `exists_isolate_eq_ok`.
-/

namespace RationalAlgebra

open RationalAlgebra.Expr RationalAlgebra.Equations

variable {bindings : Bindings} {name : String}

namespace Expr

/-! ## Substitution -/

/-- Variables that are replaced by affine expressions bring no more degree than they take away. -/
theorem degreeSum_replacements_le (hbindings : ∀ x b, bindings.get? x = some b → b.degree ≤ 1)
    (vs : List String) :
    (unbound bindings vs).length + degreeSum (replacements bindings vs) ≤ vs.length := by
  induction vs with
  | nil => simp [unbound, replacements, degreeSum]
  | cons x vs ih =>
    rw [unbound, replacements] at ih ⊢
    cases hx : bindings.get? x with
    | none =>
      simp only [List.filterMap_cons, List.filter_cons, hx, Option.isNone_none, ↓reduceIte,
        List.length_cons]
      omega
    | some b =>
      have hb := hbindings x b hx
      simp only [List.filterMap_cons, List.filter_cons, hx, Option.isNone_some, degreeSum,
        Bool.false_eq_true, ↓reduceIte, List.length_cons]
      omega

/-- To put in expressions of degree one at most does not raise the degree. -/
theorem degree_replace_le (hbindings : ∀ x b, bindings.get? x = some b → b.degree ≤ 1)
    (e : Expr) : (e.replace bindings).degree ≤ e.degree := by
  induction e using tree_induction with
  | sum es ih =>
    rw [replace_sum, degree, degreeMax_le_iff, List.forall_mem_map]
    exact fun e he => (ih e he).trans (degree_le_of_mem he)
  | product c vs fs ih =>
    have hle := degreeSum_replacements_le hbindings vs
    have hle' := degreeSum_map_le ih
    rw [replace_product, degree, degree, degreeSum_append]
    omega
  | fraction n d ihn ihd =>
    rw [replace_fraction, degree, degree]
    omega

end Expr

namespace Equations

/-- Every bound expression is affine. -/
def AffineBindings (bindings : Bindings) : Prop :=
  ∀ x b, bindings.get? x = some b → b.IsAffine

theorem AffineBindings.expanded (h : AffineBindings bindings) : ExpandedBindings bindings :=
  fun x b hb => (h x b hb).expanded

/-- What is left of a linear equation is affine. -/
theorem isAffine_present (h : AffineBindings bindings) {e : Expr} (he : e.IsLinear) :
    (present bindings e).IsAffine := by
  obtain ⟨hpolynomial, hnormal⟩ := isLinear_iff.1 he
  rw [← h.expanded.present_normalize hpolynomial]
  apply isAffine_normalize (h.expanded.isPolynomial_replace hnormal.isPolynomial)
  exact (degree_replace_le (fun x b hb => (h x b hb).degree_le) _).trans hnormal.degree_le

/-- What is left of a linear equation has its variables from the normal form of the equation and
from the bindings. -/
theorem mem_occurrences_of_present (h : AffineBindings bindings) {e : Expr} (he : e.IsLinear)
    {x : String} (hx : x ∈ (present bindings e).occurrences) :
    x ∈ e.normalize.occurrences ∨ ∃ y b, bindings.get? y = some b ∧ x ∈ b.occurrences := by
  rw [← h.expanded.present_normalize he.1] at hx
  have hreplace := mem_occurrences_replace.1 (mem_occurrences_of_normalize hx)
  rcases hreplace with ⟨hx', _⟩ | ⟨y, _, b, hb, hx'⟩
  · exact Or.inl hx'
  · exact Or.inr ⟨y, b, hb, hx'⟩

theorem affineBindings_single {value : Expr} (hvalue : value.IsAffine) :
    AffineBindings (NameMap.empty.insert name value) := by
  intro x b hb
  obtain ⟨_, rfl⟩ := get?_single_eq_some hb
  exact hvalue

/-- A further affine expression is substituted into the others, which stay affine. -/
theorem AffineBindings.extend (h : AffineBindings bindings) {value : Expr}
    (hvalue : value.IsAffine) : AffineBindings (extend bindings name value) :=
  forall_extend h hvalue fun _ he => isAffine_present (affineBindings_single hvalue) he.isLinear

end Equations

namespace Expr

/-! ## Isolation -/

/-- The addends that mention a variable are together a multiple of it. -/
theorem exists_value_kept {terms : List Expr}
    (hterms : ∀ t ∈ terms, (∃ c, t = const c) ∨ ∃ c x, t = product c [x] []) (name : String) :
    ∃ c : Rat, ∀ f, (sum (terms.filter fun t => t.mentions name)).value (.total f) =
      c * f name := by
  induction terms with
  | nil => exact ⟨0, fun f => by simp⟩
  | cons t terms ih =>
    obtain ⟨hhead, htail⟩ := List.forall_mem_cons.1 hterms
    obtain ⟨c, hc⟩ := ih htail
    simp only [value_sum] at hc ⊢
    by_cases hmentions : t.mentions name
    · -- An affine term with the variable is a multiple of it.
      rcases hhead with ⟨k, rfl⟩ | ⟨k, x, rfl⟩
      · simp [const, mentions, occurrences, occurrencesList] at hmentions
      · have hx : name = x := by
          simpa [mentions, occurrences, occurrencesList] using hmentions
        refine ⟨k + c, fun f => ?_⟩
        rw [List.filter_cons, if_pos hmentions, List.map_cons, List.sum_cons, hc, hx]
        simp
        ring
    · refine ⟨c, fun f => ?_⟩
      rw [List.filter_cons, if_neg hmentions, hc]

/-- The addends without a variable do not mention it. -/
theorem not_mem_occurrences_moved (terms : List Expr) (name : String) :
    name ∉ (sum (terms.filter fun t => !t.mentions name)).occurrences := by
  rw [mem_occurrences_sum]
  rintro ⟨t, ht, hname⟩
  rw [List.mem_filter, mentions_iff.2 hname] at ht
  exact absurd ht.2 (by simp)

/-- Some of the addends of an affine expression make a polynomial. -/
theorem IsAffine.isPolynomial_filter {e : Expr} (h : e.IsAffine) (p : Expr → Bool) :
    (sum (e.addends.filter p)).IsPolynomial :=
  isPolynomial_sum.2 fun _ ht => (h.expanded.isPowerTerm (List.mem_of_mem_filter ht)).isPolynomial

/-- An affine expression is a multiple of a variable and an expression without it. If the variable
occurs in it, the multiple is not zero: the values would not depend on the variable, and values
determine what is affine. -/
theorem IsAffine.exists_slope {e : Expr} (h : e.IsAffine) (name : String) :
    ∃ c : Rat, (name ∈ e.occurrences → c ≠ 0) ∧
      (∀ f, (sum (e.addends.filter fun t => t.mentions name)).value (.total f) = c * f name) ∧
      ∀ f, e.value (.total f) =
        c * f name + (sum (e.addends.filter fun t => !t.mentions name)).value (.total f) := by
  obtain ⟨c, hc⟩ := exists_value_kept (fun t ht => h.addends_cases ht) name
  have hsplit : ∀ f, e.value (.total f) =
      c * f name + (sum (e.addends.filter fun t => !t.mentions name)).value (.total f) := by
    intro f
    rw [← hc, value_sum, value_sum, sum_kept_add_moved, sum_addends]
  refine ⟨c, ?_, hc, hsplit⟩
  -- With slope zero the value would not depend on the variable, which a normal form would then not
  -- have.
  rintro hname rfl
  have hmoved := h.isPolynomial_filter fun t => !t.mentions name
  have hsame := h.expanded.eq_normalize hmoved fun f => by rw [hsplit, zero_mul, zero_add]
  rw [← hsame] at hname
  exact not_mem_occurrences_moved _ _ (mem_occurrences_of_normalize hname)

theorem isExpanded_term {c : Rat} (hc : c ≠ 0) (name : String) :
    (product c [name] []).IsExpanded := by
  refine ⟨Combination.empty.insert (.of (var name)) c, ?_, ?_⟩
  · refine Combination.all_empty.insert ?_ c
    rw [Keyed.expr_of]
    exact ⟨[name], rfl, List.pairwise_singleton _ _⟩
  · rw [Combination.toExpr_empty_insert _ hc, Keyed.expr_of]
    rfl

/-- Moving terms keeps a side affine. -/
theorem isAffine_movedSide {e : Expr} (h : e.IsAffine) (name : String) :
    (movedSide name zero e.addends).IsAffine := by
  apply isAffine_normalize
  · rw [isPolynomial_sum, List.forall_mem_cons, List.forall_mem_map]
    exact ⟨isExpanded_zero.isPolynomial,
      fun t ht => isPolynomial_scaled (isPolynomial_sum.1 (h.isPolynomial_filter _) t ht)⟩
  · rw [degree, degreeMax_le_iff, List.forall_mem_cons, List.forall_mem_map]
    refine ⟨by simp [zero, const, degree, degreeSum], fun t ht => ?_⟩
    rw [degree_scaled]
    exact (degree_addends_le (List.mem_of_mem_filter ht)).trans h.degree_le

/-- To divide by a coefficient is to multiply by its inverse. -/
theorem isAffine_normalize_fraction {e : Expr} (h : e.IsAffine) {c : Rat} (hc : c ≠ 0) :
    (fraction e (const c)).normalize.IsAffine := by
  have hquotient := isPolynomial_fraction_const h.isPolynomial hc
  have hscaled := isPolynomial_scaled (k := c⁻¹) h.isPolynomial
  have hsame : (fraction e (const c)).normalize = (e.scaled c⁻¹).normalize := by
    apply hquotient.normalize_eq hscaled
    intro f
    rw [value_fraction, value_const, value_scaled, div_eq_inv_mul]
  rw [hsame]
  apply isAffine_normalize hscaled
  rw [degree_scaled]
  exact h.degree_le

/-- A variable of an affine equation can be isolated, to something affine. -/
theorem exists_isolate_eq_ok {e : Expr} (h : e.IsAffine) (hname : name ∈ e.occurrences) :
    ∃ value, e.isolate name = .ok value ∧ value.IsAffine := by
  obtain ⟨c, hslope, hkept, _⟩ := h.exists_slope name
  have hc := hslope hname
  -- The addends with the variable become one term, in which the coefficient can be read.
  have hkeptSide : keptSide name e.addends = product c [name] [] := by
    apply (isExpanded_term hc name).eq_normalize (h.isPolynomial_filter _)
    intro f
    rw [hkept]
    simp
  have hcoefficient : (keptSide name e.addends).coefficientOf? name = some c := by
    rw [hkeptSide, coefficientOf?_product hc]
  refine ⟨(fraction (movedSide name zero e.addends) (const c)).normalize, ?_, ?_⟩
  · have he : e.Canonical := h.normalize_eq ▸ canonical_normalize e
    rw [isolate, h.normalize_eq]
    exact isolateIn_of_coefficientOf? he (mem_occurrences_addends.2 hname) hcoefficient
  · exact isAffine_normalize_fraction (isAffine_movedSide h name) hc

end Expr

end RationalAlgebra
