import Mathlib
import RationalAlgebra.Proofs.Normal.Termination

/-!
# Products of terms

A term is a product of a coefficient, some variables and some quotients. Multiplying terms
multiplies their coefficients and puts their variables and quotients side by side; if nothing
cancels among them and they are in order, the product is one term again.

Main statements: `multiply_ofTerm`, `scale_ofTerm` and `InOrder.multiply_eq`.
-/

namespace RationalAlgebra

open RationalAlgebra.Expr

namespace Expr

/-! ## Products of terms -/

/-- A term is written as a product, except that a quotient with coefficient one stands for itself.
-/
theorem ofTerm_monomial_cases (c : Rat) (vs : List String) {fs : List Expr}
    (h : ∀ f ∈ fs, f.IsFraction) :
    (∃ n d, c = 1 ∧ vs = [] ∧ fs = [fraction n d] ∧
        ofTerm c (monomial vs fs) = fraction n d) ∨
      ofTerm c (monomial vs fs) = product c vs fs := by
  by_cases hsingle : vs = [] ∧ ∃ f, fs = [f]
  · obtain ⟨rfl, f, rfl⟩ := hsingle
    have hf := h f List.mem_cons_self
    cases f with
    | sum es => exact absurd hf id
    | product k ws gs => exact absurd hf id
    | fraction n d =>
      -- A single quotient is written alone only if no coefficient stands before it.
      by_cases hc : c = 1
      · exact Or.inl ⟨n, d, hc, rfl, rfl, by simp [monomial, ofTerm, hc]⟩
      · exact Or.inr (by simp [monomial, ofTerm, hc])
  · rw [monomial_eq_product hsingle]
    exact Or.inr rfl

theorem not_isSum_ofTerm_monomial (c : Rat) (vs : List String) {fs : List Expr}
    (h : ∀ f ∈ fs, f.IsFraction) : ¬ (ofTerm c (monomial vs fs)).IsSum := by
  rcases ofTerm_monomial_cases c vs h with ⟨n, d, _, _, _, heq⟩ | heq
  · rw [heq]
    exact id
  · rw [heq]
    exact id

/-- A quotient is a term by itself. -/
theorem ofTerm_singleton {f : Expr} (h : f.IsFraction) : ofTerm 1 (monomial [] [f]) = f := by
  cases f with
  | sum es => exact absurd h id
  | product c vs fs => exact absurd h id
  | fraction n d => rfl

/-- A term multiplies by its coefficient, its variables and its quotients. -/
theorem times_ofTerm (p : Factors) (c : Rat) (vs : List String) {fs : List Expr}
    (h : ∀ f ∈ fs, f.IsFraction) :
    p.times (ofTerm c (monomial vs fs)) =
      ⟨p.coefficient * c, p.names ++ vs, p.quotients ++ fs⟩ := by
  rcases ofTerm_monomial_cases c vs h with ⟨n, d, rfl, rfl, rfl, heq⟩ | heq
  · rw [heq, Factors.times, mul_one, List.append_nil]
    simp
  · rw [heq]
    rfl

/-- The product of two terms is that of all their parts. -/
theorem multiply_ofTerm (c d : Rat) (vs ws : List String) {fs gs : List Expr}
    (hfs : ∀ f ∈ fs, f.IsFraction) (hgs : ∀ g ∈ gs, g.IsFraction) :
    multiply 1 [] [ofTerm c (monomial vs fs), ofTerm d (monomial ws gs)] =
      multiply (c * d) (vs ++ ws) (fs ++ gs) := by
  have hterms : ∀ e ∈ [ofTerm c (monomial vs fs), ofTerm d (monomial ws gs)], ¬ e.IsSum := by
    simpa using ⟨not_isSum_ofTerm_monomial c vs hfs, not_isSum_ofTerm_monomial d ws hgs⟩
  have hall : ∀ f ∈ fs ++ gs, f.IsFraction := List.forall_mem_append.2 ⟨hfs, hgs⟩
  rw [multiply, multiply, Factors.gather_of_not_isSum _ hterms, Factors.gather_of_isFraction hall]
  simp only [List.foldl_cons, List.foldl_nil, times_ofTerm _ _ _ hfs, times_ofTerm _ _ _ hgs,
    one_mul, List.nil_append]

/-- A multiple of a term. -/
theorem scale_ofTerm (k c : Rat) (vs : List String) {fs : List Expr}
    (hfs : ∀ f ∈ fs, f.IsFraction) :
    scale k (ofTerm c (monomial vs fs)) = multiply (k * c) vs fs := by
  have hterms : ∀ e ∈ [ofTerm c (monomial vs fs)], ¬ e.IsSum := by
    simpa using not_isSum_ofTerm_monomial c vs hfs
  rw [scale, multiply, multiply, Factors.gather_of_not_isSum _ hterms,
    Factors.gather_of_isFraction hfs]
  simp only [List.foldl_cons, List.foldl_nil, times_ofTerm _ _ _ hfs, List.nil_append]

/-! ## Parts in order -/

/-- Variables in order and quotients in order, among which nothing cancels. -/
structure InOrder (vs : List String) (fs : List Expr) : Prop where
  names : vs.Pairwise (· ≤ ·)
  apart : ∀ f ∈ fs, Apart vs f
  quotients : fs.Pairwise fun f g => Keyed.le (.of f) (.of g)

/-- Parts of what is in order are in order. -/
theorem InOrder.sublist {vs ws : List String} {fs gs : List Expr} (h : InOrder vs fs)
    (hws : ws.Sublist vs) (hgs : gs.Sublist fs) : InOrder ws gs :=
  ⟨h.names.sublist hws, fun f hf => (h.apart f (hgs.subset hf)).mono hws.subset,
    h.quotients.sublist hgs⟩

/-- What stands in order beside variables are quotients. -/
theorem InOrder.isFraction {vs : List String} {fs : List Expr} (h : InOrder vs fs) :
    ∀ f ∈ fs, f.IsFraction :=
  fun f hf => (h.apart f hf).isFraction

/-- Parts in order multiply to the term they make up. -/
theorem InOrder.multiply_eq {vs : List String} {fs : List Expr} (h : InOrder vs fs) {c : Rat}
    (hc : c ≠ 0) : multiply c vs fs = ofTerm c (monomial vs fs) :=
  multiply_of_apart hc h.names h.apart h.quotients

/-! ## Constants, variables and negatives -/

theorem normalize_const (q : Rat) : (const q).normalize = const q :=
  normalize_of_canonical (canonical_const q)

theorem normalize_var (x : String) : (var x).normalize = var x :=
  normalize_of_canonical (by simp [var, canonical_product, Shape])

/-- The normal form of a multiple is the multiple of the normal form. -/
theorem normalize_multiple {k : Rat} (hk : k ≠ 0) (e : Expr) :
    (product k [] [e]).normalize = scale k e.normalize := by
  simp [normalize, normalizeList, scale, hk]

theorem normalize_neg (e : Expr) : (neg e).normalize = scale (-1) e.normalize :=
  normalize_multiple (by norm_num) e

theorem scale_const (k q : Rat) : scale k (const q) = const (k * q) := by
  rw [const, scale_product k q [] (by simp)]
  by_cases hzero : k * q = 0
  · simp [hzero, multiply, Factors.gather, zero]
  · exact multiply_of_canonical hzero (canonical_const _)

/-- To divide by a constant is to multiply by its inverse. -/
theorem divide_constant {k : Rat} (hk : k ≠ 0) (n : Expr) : divide n (const k) = scale k⁻¹ n := by
  have hconst : (const k).asConstant? = some k := rfl
  rw [divide.eq_def, hconst]
  split
  · rename_i hzero
    have hscale := scale_const k⁻¹ 0
    rw [mul_zero] at hscale
    rw [eq_zero_iff_isZero.1 hzero]
    exact hscale.symm
  · simp only [if_neg hk]

end Expr

end RationalAlgebra
