import Mathlib
import RationalAlgebra.Proofs.Normal.Expansion

/-!
# Division

What each rule of division does, and what it does to coefficients. A quotient of a sum has the
coefficients of the quotients of its addends, so it is enough to look at terms. The coefficients of
a term and of a denominator are taken out of their quotient (`Separates`) in all cases but two: a
quotient over a denominator with a coefficient, and a product with a coefficient over a quotient.

Main statements: `coefficients_divide`, `separates_of_product` and `divide_product_fraction`.
-/

namespace RationalAlgebra.Expr

/-! ## Terms -/

theorem IsProduct.not_isSum {e : Expr} (h : e.IsProduct) : ¬ e.IsSum := by
  obtain ⟨c, vs, fs, rfl⟩ := h.exists_eq
  exact id

/-- A term is a product or a quotient. -/
theorem isProduct_or_isFraction {e : Expr} (h : ¬ e.IsSum) : e.IsProduct ∨ e.IsFraction := by
  cases e with
  | sum es => exact absurd trivial h
  | product c vs fs => exact Or.inl trivial
  | fraction a b => exact Or.inr trivial

/-- Only products have a coefficient other than one, sums apart. -/
theorem isProduct_of_split_fst {e : Expr} (hsum : ¬ e.IsSum) (h : e.split.1 ≠ 1) :
    e.IsProduct := by
  cases e with
  | sum es => exact absurd trivial hsum
  | product c vs fs => trivial
  | fraction a b => exact absurd rfl h

theorem split_of_isSum {e : Expr} (h : e.IsSum) : e.split = (1, e) := by
  obtain ⟨es, rfl⟩ := h.exists_eq
  rfl

theorem split_of_isFraction {e : Expr} (h : e.IsFraction) : e.split = (1, e) := by
  obtain ⟨a, b, rfl⟩ := h.exists_eq
  rfl

theorem IsSum.asConstant?_eq_none {e : Expr} (h : e.IsSum) : e.asConstant? = none := by
  obtain ⟨es, rfl⟩ := h.exists_eq
  rfl

theorem IsSum.ne_zero {e : Expr} (h : e.IsSum) : e ≠ zero := by
  rintro rfl
  exact h

theorem IsMonomial.ne_zero {m : Expr} (h : m.IsMonomial) : m ≠ zero := by
  rintro rfl
  exact zero_ne_one h.monic

theorem IsMonomial.split_eq {m : Expr} (h : m.IsMonomial) : m.split = (1, m) := by
  have hsplit := (h.ofTerm one_ne_zero).2.2
  rwa [ofTerm_one h.monic] at hsplit

/-! ## The rules of division -/

theorem divide_zero_left (d : Expr) : divide zero d = zero := by
  rw [divide.eq_def, if_pos (eq_zero_iff_isZero.2 rfl)]

/-- A quotient inside a numerator is multiplied across. -/
theorem divide_fraction_left (a b : Expr) {d : Expr} (hconst : d.asConstant? = none) :
    divide (fraction a b) d = divide a (multiply 1 [] [b, d]) := by
  rw [divide.eq_def, if_neg (by simp [isZero, asConstant?]), hconst]

/-- A quotient inside a denominator is multiplied across, unless the numerator is one itself. -/
theorem divide_fraction_right {n : Expr} (hne : n ≠ zero) (hproduct : n.IsProduct) (a b : Expr) :
    divide n (fraction a b) = divide (multiply 1 [] [n, b]) a := by
  obtain ⟨c, vs, fs, rfl⟩ := hproduct.exists_eq
  rw [divide.eq_def, if_neg (by simpa [eq_zero_iff_isZero] using hne)]
  simp [asConstant?]

/-- Over anything but a quotient common variables are cancelled first, and then coefficients are
taken out. -/
theorem divide_of_isProduct {n d : Expr} (hne : n ≠ zero) (hproduct : n.IsProduct)
    (hconst : d.asConstant? = none) (hfraction : ¬ d.IsFraction) :
    divide n d =
      match cancelCommon? n d with
      | some p => divide p.1 p.2
      | none =>
        if n.split.1 = 1 ∧ d.split.1 = 1 then fraction n d
        else if d.split.1 = 0 then fraction n.split.2 d.split.2
        else scale (n.split.1 / d.split.1) (divide n.split.2 d.split.2) := by
  obtain ⟨c, vs, fs, rfl⟩ := hproduct.exists_eq
  rw [divide.eq_def, if_neg (by simpa [eq_zero_iff_isZero] using hne), hconst]
  -- A product over a product is the last case of the definition; sums and constants below were set
  -- apart.
  cases d with
  | sum es => rfl
  | fraction a b => exact absurd trivial hfraction
  | product k ws gs =>
    simp only
    split
    · rename_i p hp
      rw [hp]
    · rename_i hnone
      rw [hnone]
      rfl

/-- Where variables cancel, what is left of both parts is divided. -/
theorem divide_of_cancelCommon {n d n' d' : Expr} (hne : n ≠ zero) (hconst : d.asConstant? = none)
    (h : cancelCommon? n d = some (n', d')) : divide n d = divide n' d' := by
  -- Cancelling asks for products above and below.
  have hproduct : n.IsProduct := by
    cases n with
    | sum es => cases h
    | product c vs fs => trivial
    | fraction a b => cases h
  have hfraction : ¬ d.IsFraction := by
    intro hd
    obtain ⟨a, b, rfl⟩ := hd.exists_eq
    cases n <;> cases h
  rw [divide_of_isProduct hne hproduct hconst hfraction, h]

/-- Coefficients are taken out where no variable cancels. -/
theorem divide_of_coefficients {n d : Expr} (hne : n ≠ zero) (hproduct : n.IsProduct)
    (hconst : d.asConstant? = none) (hfraction : ¬ d.IsFraction)
    (hcommon : cancelCommon? n d = none)
    (hcoefficients : ¬ (n.split.1 = 1 ∧ d.split.1 = 1)) (hd : d.split.1 ≠ 0) :
    divide n d = scale (n.split.1 / d.split.1) (divide n.split.2 d.split.2) := by
  rw [divide_of_isProduct hne hproduct hconst hfraction, hcommon]
  simp only [if_neg hcoefficients, if_neg hd]

/-- A product without a coefficient stays over a sum as it is. -/
theorem divide_sum_right {vs : List String} {fs : List Expr} (hne : product 1 vs fs ≠ zero)
    {d : Expr} (hd : d.IsSum) : divide (product 1 vs fs) d = fraction (product 1 vs fs) d := by
  apply divide_of_lowest hne
  refine ⟨⟨vs, fs, rfl, ?_⟩, Or.inl hd⟩
  obtain ⟨es, rfl⟩ := hd.exists_eq
  exact List.disjoint_nil_right vs

/-! ## Cancelling -/

/-- Cancelling does not see the coefficient of a numerator, and leaves a denominator without one. -/
theorem cancelCommon?_split {t d t' d' : Expr} (ht : t.Canonical) (hne : t ≠ zero)
    (h : cancelCommon? t d = some (t', d')) :
    cancelCommon? t.split.2 d = some (t'.split.2, d') ∧ t'.split.1 = t.split.1 ∧ ¬ t'.IsSum ∧
      d'.split.1 = 1 ∧ ¬ d'.IsFraction := by
  unfold cancelCommon? at h
  split at h
  · rename_i c vs fs
    split at h
    · cases h
    · rename_i names hnames
      simp only at h
      split at h
      · rename_i hlength
        cases h
        obtain ⟨⟨hzero, hvs, hapart, hsorted, _⟩, hfs⟩ := canonical_product.1 ht
        have hc : c ≠ 0 := split_fst_ne_zero ht hne
        -- Something cancelled, so the term has a variable and is not a single factor.
        have hmany : ¬ (vs = [] ∧ ∃ f, fs = [f]) := by
          rintro ⟨rfl, _⟩
          simp at hlength
        have hsub := Factors.cancel_fst_sublist vs names
        have hmonomial : (monomial (Factors.cancel vs names).1 fs).IsMonomial :=
          isMonomial_monomial (hvs.sublist hsub)
            (fun f hf => ⟨hfs f hf, (hapart f hf).mono hsub.subset⟩) hsorted
        obtain ⟨_, hsum, hsplit⟩ := hmonomial.ofTerm hc
        refine ⟨?_, ?_, hsum, rfl, id⟩
        · rw [split, monomial_eq_product hmany, hsplit]
          simp only [cancelCommon?, hnames, if_pos hlength, ofTerm_one hmonomial.monic]
        · rw [hsplit]
          rfl
      · cases h
  · cases h

/-- Nothing cancels against a denominator with a coefficient, as its variables do not stand alone.
-/
theorem cancelCommon?_eq_none (t : Expr) {d : Expr} (h : d.split.1 ≠ 1) :
    cancelCommon? t d = none := by
  cases t with
  | sum es => rfl
  | fraction a b => rfl
  | product c vs fs =>
    cases hnames : Factors.pureVariables? d with
    | none => simp [cancelCommon?, hnames]
    | some names =>
      rw [Factors.pureVariables?_eq_some hnames] at h
      exact absurd rfl h

/-! ## Quotients of sums -/

/-- A quotient of a sum is the sum of the quotients of its addends. -/
theorem coefficients_divide {n d : Expr} (hn : n.Canonical) (hd : d.Canonical) (hzero : d ≠ zero) :
    (divide n d).coefficients = (n.addends.map fun t => (divide t d).coefficients).sum := by
  by_cases hsum : n.IsSum
  · obtain ⟨es, rfl⟩ := hsum.exists_eq
    have hes := hn.addends
    -- A constant divides as a multiple; anything else divides the addends one by one.
    cases hconst : d.asConstant? with
    | some k =>
      have heq := eq_const_of_asConstant? hconst
      have hk : k ≠ 0 := fun hk => hzero (heq.trans (congrArg const hk))
      have hsame : ∀ t ∈ es, (divide t (const k)).coefficients = k⁻¹ • t.coefficients := by
        intro t ht
        rw [divide_constant hk, coefficients_scale _ (hes t ht).1]
      rw [heq, divide_constant hk, coefficients_scale _ hn, Expr.addends,
        List.map_congr_left hsame, coefficients_sum fun t ht => (hes t ht).2.1, List.smul_sum,
        List.map_map]
      rfl
    | none =>
      have hdivide : divide (sum es) d =
          (Combination.ofExprs (es.map fun t => divide t d)).toExpr := by
        rw [divide.eq_def, if_neg (by simp [isZero, asConstant?]), hconst]
        simp
      have hcanonical : ∀ t ∈ es.map fun t => divide t d, t.Canonical := by
        rw [List.forall_mem_map]
        exact fun t ht => canonical_divide (hes t ht).1 hd
      rw [hdivide, coefficients_toExpr (Combination.isMonomial_ofExprs hcanonical),
        coefficients_ofExprs, List.map_map, Expr.addends]
      rfl
  · rw [addends_of_not_isSum hsum, List.map_singleton, List.sum_singleton]

/-- A multiple of a numerator is taken out of a quotient if it is taken out for each addend. -/
theorem divide_scale_of_addends {k : Rat} (hk : k ≠ 0) {n d : Expr} (hn : n.Canonical)
    (hd : d.Canonical) (hzero : d ≠ zero)
    (h : ∀ t ∈ n.addends, divide (scale k t) d = scale k (divide t d)) :
    divide (scale k n) d = scale k (divide n d) := by
  have hscale := canonical_scale k hn
  have hquotient := canonical_divide hn hd
  -- Both sides are normal forms, so it is enough to compare coefficients, and these add up over the
  -- addends.
  apply (canonical_divide hscale hd).ext_coefficients (canonical_scale k hquotient)
  rw [coefficients_divide hscale hd hzero, addends_scale hk hn, coefficients_scale k hquotient,
    coefficients_divide hn hd hzero, List.smul_sum, List.map_map, List.map_map]
  congr 1
  apply List.map_congr_left
  intro t ht
  have hterm := canonical_divide (hn.forall_addends t ht).1 hd
  simp only [Function.comp_apply, h t ht, coefficients_scale k hterm]

/-- So is a multiple of a denominator. -/
theorem divide_scale_right_of_addends {k : Rat} (hk : k ≠ 0) {n d : Expr} (hn : n.Canonical)
    (hd : d.Canonical) (hzero : d ≠ zero)
    (h : ∀ t ∈ n.addends, divide t (scale k d) = scale k⁻¹ (divide t d)) :
    divide n (scale k d) = scale k⁻¹ (divide n d) := by
  have hscale := canonical_scale k hd
  have hquotient := canonical_divide hn hd
  have hscaled : scale k d ≠ zero := mt (scale_eq_zero_iff hk hd).1 hzero
  apply (canonical_divide hn hscale).ext_coefficients (canonical_scale k⁻¹ hquotient)
  rw [coefficients_divide hn hscale hscaled, coefficients_scale k⁻¹ hquotient,
    coefficients_divide hn hd hzero, List.smul_sum, List.map_map]
  congr 1
  apply List.map_congr_left
  intro t ht
  have hterm := canonical_divide (hn.forall_addends t ht).1 hd
  simp only [Function.comp_apply, h t ht, coefficients_scale k⁻¹ hterm]

/-! ## Terms whose coefficients are taken out -/

/-- The coefficients of a term and of a denominator are taken out of their quotient. -/
def Separates (t d : Expr) : Prop :=
  divide t d = scale (t.split.1 / d.split.1) (divide t.split.2 d.split.2)

variable {t d : Expr}

/-- Without coefficients there is nothing to take out. -/
theorem separates_of_split_eq_one (ht : t.Canonical) (hd : d.Canonical) (ht' : t.split.1 = 1)
    (hd' : d.split.1 = 1) : Separates t d := by
  rw [Separates, ht', hd', div_one, split_snd_of_monic ht ht', split_snd_of_monic hd hd',
    scale_one (canonical_divide ht hd)]

theorem separates_zero (hd : d.Canonical) : Separates zero d := by
  have hone : zero.split.2.Canonical := canonical_const 1
  have hcoefficient : zero.split.1 = 0 := rfl
  rw [Separates, divide_zero_left, hcoefficient, zero_div,
    scale_zero_left (canonical_divide hone hd.split_snd)]

/-- Every term separates from a constant. -/
theorem separates_const (ht : t.Canonical) (hsum : ¬ t.IsSum) {k : Rat} (hk : k ≠ 0) :
    Separates t (const k) := by
  have hmonomial := ht.split_snd
  have hone : (const k).split.2 = const 1 := rfl
  rw [Separates, divide_constant hk, hone, divide_constant one_ne_zero, inv_one,
    scale_one hmonomial, div_eq_inv_mul, ← scale_scale _ _ hmonomial, ht.scale_split hsum]
  rfl

/-- The coefficient of a term is taken out over a denominator without one, which is no quotient. -/
theorem separates_of_monic (ht : t.Canonical) (hsum : ¬ t.IsSum) (hd : d.Canonical)
    (hone : d.split.1 = 1) (hfraction : ¬ d.IsFraction) : Separates t d := by
  -- Cancelling leaves a pair of smaller degree, which the induction is on.
  induction hdegree : t.degree + d.degree using Nat.strong_induction_on generalizing t d with
  | _ n ih =>
    by_cases hcoefficient : t.split.1 = 1
    · exact separates_of_split_eq_one ht hd hcoefficient hone
    by_cases hzero : t = zero
    · rw [hzero]
      exact separates_zero hd
    have hproduct := isProduct_of_split_fst hsum hcoefficient
    cases hconst : d.asConstant? with
    | some k =>
      have hd' := eq_const_of_asConstant? hconst
      have hk : k = 1 := by rwa [hd'] at hone
      rw [hd', hk]
      exact separates_const ht hsum one_ne_zero
    | none =>
      cases hcommon : cancelCommon? t d with
      | none =>
        apply divide_of_coefficients hzero hproduct hconst hfraction hcommon
        · exact fun h => hcoefficient h.1
        · rw [hone]
          exact one_ne_zero
      | some p =>
        -- What is left of the term and of its monomial differ in the coefficient alone.
        obtain ⟨hcommon', hsplit, hsum', hone', hfraction'⟩ := cancelCommon?_split ht hzero hcommon
        obtain ⟨ht', hd'⟩ := canonical_cancelCommon hcommon ht hd hzero
        have hmonomial := (ht.split hsum).1.ne_zero
        have hsmaller := degree_cancelCommon?_lt hcommon
        have hrest := ih _ (hdegree ▸ hsmaller) ht' hsum' hd' hone' hfraction' rfl
        rw [Separates, divide_of_cancelCommon hzero hconst hcommon, hrest, hsplit, hone', hone,
          split_snd_of_monic hd hone, split_snd_of_monic hd' hone',
          divide_of_cancelCommon hmonomial hconst hcommon']

/-- Both coefficients are taken out of a product over anything but a quotient. -/
theorem separates_of_product (ht : t.Canonical) (hproduct : t.IsProduct) (hd : d.Canonical)
    (hd' : d ≠ zero) (hfraction : ¬ d.IsFraction) : Separates t d := by
  have hsum := hproduct.not_isSum
  by_cases hone : d.split.1 = 1
  · exact separates_of_monic ht hsum hd hone hfraction
  by_cases hzero : t = zero
  · rw [hzero]
    exact separates_zero hd
  cases hconst : d.asConstant? with
  | some k =>
    have heq := eq_const_of_asConstant? hconst
    rw [heq] at hd' ⊢
    exact separates_const ht hsum fun hk => hd' (congrArg const hk)
  | none =>
    apply divide_of_coefficients hzero hproduct hconst hfraction (cancelCommon?_eq_none t hone)
    · exact fun h => hone h.2
    · exact split_fst_ne_zero hd hd'

/-- A product without a coefficient separates from every denominator but zero. -/
theorem separates_of_monic_product (ht : t.Canonical) (hproduct : t.IsProduct)
    (hone : t.split.1 = 1) (hd : d.Canonical) (hd' : d ≠ zero) : Separates t d := by
  by_cases hfraction : d.IsFraction
  · exact separates_of_split_eq_one ht hd hone (by rw [split_of_isFraction hfraction])
  · exact separates_of_product ht hproduct hd hd' hfraction

/-! ## Multiples of terms -/

/-- What separates in a term and in its multiple lets a constant out of the numerator. -/
theorem Separates.divide_scale_left {k : Rat} (hk : k ≠ 0) (h : Separates t d)
    (h' : Separates (scale k t) d) (ht : t.Canonical) (hsum : ¬ t.IsSum) (hd : d.Canonical) :
    divide (scale k t) d = scale k (divide t d) := by
  by_cases hzero : t = zero
  · rw [hzero, scale_zero, divide_zero_left, scale_zero]
  · have hsplit := (ht.split_scale hsum (mul_ne_zero hk (split_fst_ne_zero ht hzero))).2
    rw [Separates] at h h'
    rw [h', h, hsplit, scale_scale _ _ (canonical_divide ht.split_snd hd.split_snd), mul_div_assoc]

/-- What separates from a denominator and from its multiple lets a constant out of the denominator.
-/
theorem Separates.divide_scale_right {k : Rat} (hk : k ≠ 0) (h : Separates t d)
    (h' : Separates t (scale k d)) (ht : t.Canonical) (hd : d.Canonical) (hsum : ¬ d.IsSum)
    (hzero : d ≠ zero) : divide t (scale k d) = scale k⁻¹ (divide t d) := by
  have hsplit := (hd.split_scale hsum (mul_ne_zero hk (split_fst_ne_zero hd hzero))).2
  rw [Separates] at h h'
  rw [h', h, hsplit, scale_scale _ _ (canonical_divide ht.split_snd hd.split_snd),
    ← div_eq_inv_mul, div_div, mul_comm k]

/-- Over a product without a coefficient, multiples of any numerator are taken out. -/
theorem divide_scale_of_monic {k : Rat} (hk : k ≠ 0) {n : Expr} (hn : n.Canonical)
    (hd : d.Canonical) (hone : d.split.1 = 1) (hfraction : ¬ d.IsFraction) :
    divide (scale k n) d = scale k (divide n d) := by
  have hzero : d ≠ zero := by
    rintro rfl
    exact zero_ne_one hone
  apply divide_scale_of_addends hk hn hd hzero
  intro t ht
  obtain ⟨ht', hsum⟩ := hn.forall_addends t ht
  exact (separates_of_monic ht' hsum hd hone hfraction).divide_scale_left hk
    (separates_of_monic (canonical_scale k ht') (not_isSum_scale k ht' hsum) hd hone hfraction)
    ht' hsum hd

/-- Over a sum the coefficient of a term is taken out. -/
theorem divide_isSum_right (ht : t.Canonical) (hsum : ¬ t.IsSum) (hd : d.Canonical)
    (hd' : d.IsSum) : divide t d = scale t.split.1 (divide t.split.2 d) := by
  have hsplit := split_of_isSum hd'
  have hseparates := separates_of_monic ht hsum hd (by rw [hsplit])
    fun hfraction => hfraction.not_isSum hd'
  rwa [Separates, hsplit, div_one] at hseparates

/-- Over a quotient, a product is multiplied across without its coefficient. -/
theorem divide_product_fraction {a b : Expr} (ht : t.Canonical) (hproduct : t.IsProduct)
    (hzero : t ≠ zero) (hd : (fraction a b).Canonical) :
    divide t (fraction a b) = scale t.split.1 (divide (multiply 1 [] [t.split.2, b]) a) := by
  obtain ⟨hshape, ha, hb⟩ := canonical_fraction.1 hd
  have hcoefficient := split_fst_ne_zero ht hzero
  have hfactors : ∀ e ∈ [t.split.2, b], e.Canonical := by
    simpa using ⟨ht.split_snd, hb⟩
  -- Multiplied across, the coefficient stands in front of the product.
  have hmultiple : multiply 1 [] [t, b] = scale t.split.1 (multiply 1 [] [t.split.2, b]) := by
    have hscale := multiply_scale hcoefficient 1 [] [] [b] hfactors
    rwa [ht.scale_split hproduct.not_isSum] at hscale
  rw [divide_fraction_right hzero hproduct, hmultiple]
  rcases hshape.2 with rfl | hlowest
  · -- Over zero nothing is left of the numerator.
    rw [multiply_eq_zero 1 [] hfactors (by simp), scale_zero, divide_zero_left, scale_zero]
  · obtain ⟨ws, gs, rfl, _⟩ := hlowest.1
    exact divide_scale_of_monic hcoefficient (canonical_multiply 1 [] hfactors) ha rfl id

end RationalAlgebra.Expr
