import Mathlib
import RationalAlgebra.Proofs.Normal.Polynomial

/-!
# Normal forms of polynomials are canonical

Two polynomials have the same normal form exactly when they have the same value everywhere. A
combination of power products is read as a polynomial in the sense of `MvPolynomial`, with the same
values. Polynomials over the rationals that agree everywhere have the same coefficients, and the
coefficients determine the terms of the combination; their order is the canonical one, so the
combinations are the same list, written as the same tree.

Main statement: `normalize_eq_iff_eval_eq`.
-/

namespace RationalAlgebra

open RationalAlgebra.Expr

namespace Expr

/-! ## Exponents -/

/-- How often each variable occurs in a product, apart from its factors. -/
noncomputable def exponents : Expr → String →₀ ℕ
  | product _ vs _ => Multiset.toFinsupp (vs : Multiset String)
  | _ => 0

/-- A power product is determined by its exponents. -/
theorem IsPowerProduct.eq_of_exponents {m m' : Expr} (h : m.IsPowerProduct)
    (h' : m'.IsPowerProduct) (heq : m.exponents = m'.exponents) : m = m' := by
  obtain ⟨vs, rfl, hvs⟩ := h
  obtain ⟨vs', rfl, hvs'⟩ := h'
  have hperm : vs.Perm vs' := Multiset.coe_eq_coe.1 (Multiset.toFinsupp.injective heq)
  have hsame : vs = vs' := hperm.eq_of_pairwise (fun _ _ _ _ => String.le_antisymm) hvs hvs'
  rw [hsame]

/-- The value of a monomial whose exponents count the variables of a list. -/
theorem eval_monomial_toFinsupp (f : String → Rat) (c : Rat) (vs : List String) :
    MvPolynomial.eval f (MvPolynomial.monomial (Multiset.toFinsupp (vs : Multiset String)) c) =
      c * (vs.map f).prod := by
  induction vs with
  | nil => simp
  | cons x xs ih =>
    rw [← Multiset.cons_coe, ← Multiset.singleton_add, Multiset.toFinsupp_add,
      Multiset.toFinsupp_singleton, MvPolynomial.monomial_single_add, map_mul, ih, pow_one,
      MvPolynomial.eval_X, List.map_cons, List.prod_cons]
    ring

/-- The monomial of a power product has the value of the power product. -/
theorem IsPowerProduct.eval_monomial {m : Expr} (h : m.IsPowerProduct) (f : String → Rat)
    (c : Rat) :
    MvPolynomial.eval f (MvPolynomial.monomial m.exponents c) =
      c * m.value fun x => some (f x) := by
  obtain ⟨vs, rfl, _⟩ := h
  have hread : ∀ vs : List String, vs.map (Valuation.read fun x => some (f x)) = vs.map f := by
    intro vs
    exact List.map_congr_left fun x _ => rfl
  rw [exponents, eval_monomial_toFinsupp, value_product, hread]
  simp

end Expr

/-! ## Combinations as polynomials -/

namespace Combination

/-- The polynomial with these terms. -/
noncomputable def polynomialOf (terms : List Term) : MvPolynomial String Rat :=
  (terms.map fun t => MvPolynomial.monomial t.monomial.expr.exponents t.coefficient).sum

/-- The polynomial of some terms has the value of the terms. -/
theorem eval_polynomialOf {terms : List Term} (h : ∀ t ∈ terms, t.monomial.expr.IsPowerProduct)
    (f : String → Rat) :
    MvPolynomial.eval f (polynomialOf terms) = valueTerms (fun x => some (f x)) terms := by
  rw [polynomialOf, map_list_sum, List.map_map, valueTerms]
  exact congrArg List.sum (List.map_congr_left fun t ht => (h t ht).eval_monomial f _)

/-- The first term contributes its coefficient at its exponents, and nothing elsewhere. -/
theorem coeff_polynomialOf_cons (s : String →₀ ℕ) (t : Term) (terms : List Term) :
    MvPolynomial.coeff s (polynomialOf (t :: terms)) =
      (if t.monomial.expr.exponents = s then t.coefficient else 0) +
        MvPolynomial.coeff s (polynomialOf terms) := by
  rw [polynomialOf, List.map_cons, List.sum_cons, MvPolynomial.coeff_add,
    MvPolynomial.coeff_monomial, polynomialOf]

/-- Exponents that no term has get the coefficient zero. -/
theorem coeff_polynomialOf_of_forall_ne {s : String →₀ ℕ} {terms : List Term}
    (h : ∀ t ∈ terms, t.monomial.expr.exponents ≠ s) :
    MvPolynomial.coeff s (polynomialOf terms) = 0 := by
  induction terms with
  | nil => simp [polynomialOf]
  | cons t terms ih =>
    obtain ⟨hhead, htail⟩ := List.forall_mem_cons.1 h
    rw [coeff_polynomialOf_cons, if_neg hhead, ih htail, add_zero]

/-- Where all exponents differ, a term has its coefficient in the polynomial. -/
theorem coeff_polynomialOf_of_mem {terms : List Term}
    (h : terms.Pairwise fun s t => s.monomial.expr.exponents ≠ t.monomial.expr.exponents)
    {t : Term} (ht : t ∈ terms) :
    MvPolynomial.coeff t.monomial.expr.exponents (polynomialOf terms) = t.coefficient := by
  induction terms with
  | nil => cases ht
  | cons u terms ih =>
    obtain ⟨hhead, htail⟩ := List.pairwise_cons.1 h
    rw [coeff_polynomialOf_cons]
    rcases List.mem_cons.1 ht with rfl | ht
    · rw [if_pos rfl, coeff_polynomialOf_of_forall_ne fun u hu => (hhead u hu).symm, add_zero]
    · rw [if_neg (hhead t ht), ih htail ht, zero_add]

/-- The terms of a combination differ in their exponents, since power products with the same
exponents are the same. -/
theorem pairwise_exponents_ne {a : Combination} (ha : a.All IsPowerProduct) :
    a.terms.Pairwise fun s t => s.monomial.expr.exponents ≠ t.monomial.expr.exponents := by
  apply a.sorted.imp_of_mem
  intro s t hs ht hlt heq
  have hsame := (ha s hs).eq_of_exponents (ha t ht) heq
  rw [Keyed.ext hsame, Keyed.cmp_eq_iff.2 rfl] at hlt
  cases hlt

/-- A term of one combination is a term of every other with the same polynomial. -/
theorem mem_terms_of_polynomialOf_eq {a b : Combination} (ha : a.All IsPowerProduct)
    (hb : b.All IsPowerProduct) (h : polynomialOf a.terms = polynomialOf b.terms) {t : Term}
    (ht : t ∈ a.terms) : t ∈ b.terms := by
  have hcoeff := coeff_polynomialOf_of_mem (pairwise_exponents_ne ha) ht
  by_cases hfound : ∃ u ∈ b.terms, u.monomial.expr.exponents = t.monomial.expr.exponents
  · -- A term with these exponents has the same coefficient, and so is the term.
    obtain ⟨u, hu, hexponents⟩ := hfound
    have hmonomial := Keyed.ext ((hb u hu).eq_of_exponents (ha t ht) hexponents)
    have hcoeff' := coeff_polynomialOf_of_mem (pairwise_exponents_ne hb) hu
    rw [hexponents, ← h, hcoeff] at hcoeff'
    have hsame : t = u := by
      cases t
      cases u
      simp only [Term.mk.injEq]
      exact ⟨hmonomial.symm, hcoeff'⟩
    rwa [hsame]
  · -- Then the coefficient would be zero.
    push Not at hfound
    rw [h, coeff_polynomialOf_of_forall_ne hfound] at hcoeff
    exact absurd hcoeff.symm (a.nonzero t ht)

/-- Combinations of power products with the same values are the same. -/
theorem eq_of_value_eq {a b : Combination} (ha : a.All IsPowerProduct)
    (hb : b.All IsPowerProduct)
    (h : ∀ f : String → Rat, a.value (fun x => some (f x)) = b.value fun x => some (f x)) :
    a = b := by
  have hpolynomial : polynomialOf a.terms = polynomialOf b.terms := by
    -- Over an infinite field a polynomial is determined by its values.
    apply MvPolynomial.funext
    intro f
    rw [eval_polynomialOf ha, eval_polynomialOf hb]
    exact h f
  -- The terms are distinct and in order, so it is enough that the same terms occur.
  have hnodup : ∀ c : Combination, c.terms.Nodup := by
    intro c
    apply c.sorted.imp
    intro s t hlt heq
    rw [heq, Keyed.cmp_eq_iff.2 rfl] at hlt
    cases hlt
  have hperm : a.terms.Perm b.terms := by
    rw [List.perm_ext_iff_of_nodup (hnodup a) (hnodup b)]
    intro t
    constructor
    · exact mem_terms_of_polynomialOf_eq ha hb hpolynomial
    · exact mem_terms_of_polynomialOf_eq hb ha hpolynomial.symm
  have hterms : a.terms = b.terms := by
    refine hperm.eq_of_pairwise (fun s t _ _ hst hts => ?_) a.sorted b.sorted
    -- Two terms cannot each come before the other.
    have hself := Keyed.cmp_trans hst hts
    rw [Keyed.cmp_eq_iff.2 rfl] at hself
    cases hself
  cases a
  cases b
  simpa using hterms

end Combination

namespace Expr

/-! ## Equal values and equal normal forms -/

theorem IsPowerProduct.monic {m : Expr} (h : m.IsPowerProduct) : m.Monic := by
  obtain ⟨vs, rfl, _⟩ := h
  rfl

/-- Combinations of power products that have the same values are written alike. -/
theorem IsExpanded.eq_of_value_eq {e e' : Expr} (he : e.IsExpanded) (he' : e'.IsExpanded)
    (h : ∀ f : String → Rat, e.value (fun x => some (f x)) = e'.value fun x => some (f x)) :
    e = e' := by
  -- Both are written from combinations, and it is these that are compared.
  obtain ⟨a, ha, rfl⟩ := he
  obtain ⟨b, hb, rfl⟩ := he'
  have hvalue : ∀ f : String → Rat,
      a.value (fun x => some (f x)) = b.value fun x => some (f x) := by
    intro f
    rw [← Combination.value_toExpr fun t ht => (ha t ht).monic,
      ← Combination.value_toExpr fun t ht => (hb t ht).monic]
    exact h f
  rw [Combination.eq_of_value_eq ha hb hvalue]

/-- A polynomial is evaluated to the value of its normal form. -/
theorem IsPolynomial.eval_eq {e : Expr} (h : e.IsPolynomial) {v : Valuation}
    (hv : ∀ x ∈ e.occurrences, (v x).isSome) : e.eval v = .ok (e.normalize.value v) := by
  have hdefined := h.defined hv
  rw [hdefined.eval_eq, (defined_normalize hdefined).2]

/-- What two expressions evaluate to under all finite assignments of their variables they evaluate
to under all total ones. -/
theorem eval_eq_of_forall_nameMap {a b : Expr}
    (h : ∀ v : NameMap Rat, (∀ x, x ∈ a.occurrences ∨ x ∈ b.occurrences → (v.get? x).isSome) →
      a.eval v.get? = b.eval v.get?) (f : String → Rat) :
    a.eval (fun x => some (f x)) = b.eval fun x => some (f x) := by
  have hget : ∀ x, x ∈ a.occurrences ∨ x ∈ b.occurrences →
      (NameMap.ofList ((a.occurrences ++ b.occurrences).map fun x => (x, f x))).get? x =
        some (f x) := by
    intro x hx
    exact NameMap.get?_ofList_map f (List.mem_append.2 hx)
  have hsame := h _ fun x hx => by rw [hget x hx]; rfl
  rwa [eval_congr fun x hx => hget x (Or.inl hx),
    eval_congr fun x hx => hget x (Or.inr hx)] at hsame

/-- Two polynomials have the same normal form exactly when they have the same value under every
assignment of their variables. -/
theorem normalize_eq_iff_eval_eq {a b : Expr} (ha : a.IsPolynomial) (hb : b.IsPolynomial) :
    a.normalize = b.normalize ↔
      ∀ v : NameMap Rat, (∀ x, x ∈ a.occurrences ∨ x ∈ b.occurrences → (v.get? x).isSome) →
        a.eval v.get? = b.eval v.get? := by
  constructor
  · intro h v hv
    rw [ha.eval_eq fun x hx => hv x (Or.inl hx), hb.eval_eq fun x hx => hv x (Or.inr hx), h]
  · intro h
    apply (isExpanded_normalize ha).eq_of_value_eq (isExpanded_normalize hb)
    intro f
    have hsame := eval_eq_of_forall_nameMap h f
    rw [ha.eval_eq fun _ _ => rfl, hb.eval_eq fun _ _ => rfl] at hsame
    exact Except.ok.inj hsame

/-- Half of the product of x + 1 and x - 1, and the same multiplied out. -/
theorem normalize_multiplied_out :
    IsPolynomial (fraction (prod [sum [var "x", one], sub (var "x") one]) (const 2)) ∧
    IsPolynomial (sum [product (1 / 2) ["x", "x"] [], const (-1 / 2)]) ∧
    normalize (fraction (prod [sum [var "x", one], sub (var "x") one]) (const 2)) =
      normalize (sum [product (1 / 2) ["x", "x"] [], const (-1 / 2)]) ∧
    ∀ v : NameMap Rat,
      (∀ x, x ∈ occurrences (fraction (prod [sum [var "x", one], sub (var "x") one]) (const 2)) ∨
          x ∈ occurrences (sum [product (1 / 2) ["x", "x"] [], const (-1 / 2)]) →
        (v.get? x).isSome) →
      eval v.get? (fraction (prod [sum [var "x", one], sub (var "x") one]) (const 2)) =
        eval v.get? (sum [product (1 / 2) ["x", "x"] [], const (-1 / 2)]) := by
  have ha : IsPolynomial (fraction (prod [sum [var "x", one], sub (var "x") one]) (const 2)) := by
    -- The quotient has a constant denominator, which is not zero.
    refine ⟨?_, ?_, rfl, 2, by cbv, by norm_num⟩
    · simp [prod, sub, neg, var, one, const, IsPolynomial, AllPolynomial]
    · simp [const, IsPolynomial, AllPolynomial]
  have hb : IsPolynomial (sum [product (1 / 2) ["x", "x"] [], const (-1 / 2)]) := by
    simp [const, IsPolynomial, AllPolynomial]
  have heq : normalize (fraction (prod [sum [var "x", one], sub (var "x") one]) (const 2)) =
      normalize (sum [product (1 / 2) ["x", "x"] [], const (-1 / 2)]) := by
    cbv
  exact ⟨ha, hb, heq, (normalize_eq_iff_eval_eq ha hb).1 heq⟩

end Expr

end RationalAlgebra
