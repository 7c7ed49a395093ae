import Mathlib
import RationalAlgebra.Proofs.Normal.Division

/-!
# Coefficients of quotients

A quotient of two terms can keep a coefficient inside. A sum has no coefficient that could be taken
out, so it absorbs what it is multiplied by (`Absorbs`). And a quotient over a quotient may be
multiplied across in two ways, of which one is chosen when the first has no coefficient and the
other when it has one (`Contested`). A term is `Entangled` with a denominator if one of the two
happens at the one point where it matters, and only then the coefficients of the two stay inside
(`separates_iff`). From this follows exactly when a multiple of a term, or of what it is divided by,
has the multiple of the quotient for a normal form.

Main statements: `separates_iff`, `divide_scale_left_iff`, `divide_scale_right_iff` and
`normalize_quotient_of_multiple`.
-/

namespace RationalAlgebra.Expr

variable {t d : Expr}

/-! ## Terms whose coefficients stay -/

/-- What a term is divided by in the end: a monomial that is a quotient has a denominator of its
own. -/
def jointDenominator (t d : Expr) : Expr :=
  match t.split.2 with
  | fraction _ b => multiply 1 [] [b, d]
  | _ => d

/-- The term is divided by a sum or by zero, which have no coefficient that could be taken out. -/
def Absorbs (t d : Expr) : Prop :=
  t ≠ zero ∧ d.asConstant? = none ∧
    ((jointDenominator t d).IsSum ∨ jointDenominator t d = zero)

/-- A quotient is divided by a quotient, and it matters which of the two is multiplied across
first. It need not: `x / y` by `z / y` is `x / z` either way, while `1 / y` by `x / z` is
`1 / (y (x / z))` or `(z (1 / y)) / x`.

The condition is exact. For each term, `divide_scale_left_iff` and `divide_scale_right_iff` say that
coefficients leave the quotient if and only if nothing of this kind is in their way. -/
def Contested (t d : Expr) : Prop :=
  ∃ a b p q, t.split.2 = fraction a b ∧ d.split.2 = fraction p q ∧
    divide a (multiply 1 [] [b, fraction p q]) ≠ divide (multiply 1 [] [fraction a b, q]) p

/-- The quotient has another form than its monomials have without their coefficients. A quotient
without a coefficient is multiplied across before coefficients are taken out; one with a coefficient
is a product, and gives way to a denominator that is a quotient. -/
def Entangled (t d : Expr) : Prop :=
  (t.split.1 = 1 ∧ d.split.1 ≠ 1 ∧ Absorbs t d) ∨
    (t.split.1 ≠ 1 ∧ d.split.1 = 1 ∧ Contested t d)

/-- A quotient is divided by joining the two denominators. -/
theorem jointDenominator_fraction (a b d : Expr) :
    jointDenominator (fraction a b) d = multiply 1 [] [b, d] :=
  rfl

/-- Any other term is divided by the denominator itself. -/
theorem jointDenominator_of_not_isFraction (h : ¬ t.split.2.IsFraction) (d : Expr) :
    jointDenominator t d = d := by
  rw [jointDenominator]
  split
  · rename_i a b heq
    rw [heq] at h
    exact absurd trivial h
  · rfl

/-- The coefficient of a term does not matter to the joint denominator. -/
theorem jointDenominator_split (ht : t.Canonical) (hsum : ¬ t.IsSum) (d : Expr) :
    jointDenominator t.split.2 d = jointDenominator t d := by
  rw [jointDenominator, jointDenominator, (ht.split hsum).1.split_eq]

/-- Nor does it matter to whether a coefficient is absorbed. -/
theorem Absorbs.split (h : Absorbs t d) (ht : t.Canonical) (hsum : ¬ t.IsSum) :
    Absorbs t.split.2 d := by
  rw [Absorbs, jointDenominator_split ht hsum]
  exact ⟨(ht.split hsum).1.ne_zero, h.2⟩

/-- A denominator that absorbs coefficients is left as it is. -/
theorem Absorbs.isFraction_divide (h : Absorbs t d) (ht : t.Canonical) (hsum : ¬ t.IsSum)
    (hone : t.split.1 = 1) (hd : d.Canonical) (hd' : d ≠ zero) : (divide t d).IsFraction := by
  obtain ⟨hzero, hconst, hjoint⟩ := h
  cases t with
  | sum es => exact absurd trivial hsum
  | fraction a b =>
    obtain ⟨⟨ha, hlowest⟩, _, hb⟩ := canonical_fraction.1 ht
    rw [jointDenominator_fraction] at hjoint
    rw [divide_fraction_left a b hconst]
    rcases hjoint with hjoint | hjoint
    · rcases hlowest with rfl | hlowest
      · rw [multiply_eq_zero 1 [] (by simpa using ⟨hb, hd⟩) (by simp)] at hjoint
        exact absurd hjoint id
      · -- The joint denominator is a sum, which stays below the numerator as it is.
        obtain ⟨vs, fs, rfl, _⟩ := hlowest.1
        rw [divide_sum_right ha hjoint]
        trivial
    · rw [hjoint, divide_zero_right ha]
      trivial
  | product c vs fs =>
    have hc : c = 1 := hone
    subst hc
    -- A product is divided by the denominator alone, which must be the sum.
    have hmonomial : ¬ (product 1 vs fs).split.2.IsFraction := by
      rw [split_snd_of_monic ht hone]
      exact id
    rw [jointDenominator_of_not_isFraction hmonomial] at hjoint
    rw [divide_sum_right hzero (hjoint.resolve_right hd')]
    trivial

/-- The quotient keeps the coefficient of the term, and takes none from the denominator. -/
theorem Absorbs.split_divide (h : Absorbs t d) (ht : t.Canonical) (hsum : ¬ t.IsSum)
    (hd : d.Canonical) (hd' : d ≠ zero) (hcoefficient : t.split.1 = 1 ∨ d.IsSum) :
    ¬ (divide t d).IsSum ∧ (divide t d).split.1 = t.split.1 := by
  by_cases hone : t.split.1 = 1
  · have hquotient := h.isFraction_divide ht hsum hone hd hd'
    exact ⟨hquotient.not_isSum, by rw [split_of_isFraction hquotient, hone]⟩
  · -- The coefficient comes out of a quotient by a sum, and the rest is the case without one.
    have hdsum := hcoefficient.resolve_left hone
    have hmonomial := (ht.split hsum).1
    have hquotient : (divide t.split.2 d).IsFraction :=
      (h.split ht hsum).isFraction_divide hmonomial.canonical hmonomial.not_isSum
        (by rw [hmonomial.split_eq]) hd hd'
    have hcanonical := canonical_divide hmonomial.canonical hd
    have hne : t.split.1 * (divide t.split.2 d).split.1 ≠ 0 := by
      rw [split_of_isFraction hquotient, mul_one]
      exact split_fst_ne_zero ht h.1
    obtain ⟨hscaleSum, hscaleSplit⟩ := hcanonical.split_scale hquotient.not_isSum hne
    rw [divide_isSum_right ht hsum hd hdsum]
    exact ⟨hscaleSum, by rw [hscaleSplit, split_of_isFraction hquotient, mul_one]⟩

theorem asConstant?_scale {k : Rat} (hk : k ≠ 0) (hd : d.Canonical)
    (hconst : d.asConstant? = none) : (scale k d).asConstant? = none := by
  cases hscale : (scale k d).asConstant? with
  | none => rfl
  | some l =>
    have hback : scale k⁻¹ (scale k d) = d := by
      rw [scale_scale _ _ hd, inv_mul_cancel₀ hk, scale_one hd]
    rw [eq_const_of_asConstant? hscale, scale_const] at hback
    rw [← hback] at hconst
    cases hconst

/-- A multiple of the denominator gives the multiple of the joint one. -/
theorem jointDenominator_scale {k : Rat} (hk : k ≠ 0) (ht : t.Canonical) (hd : d.Canonical) :
    jointDenominator t (scale k d) = scale k (jointDenominator t d) := by
  have hmonomial := ht.split_snd
  unfold jointDenominator
  split
  · rename_i a b heq
    rw [heq] at hmonomial
    have hb := (canonical_fraction.1 hmonomial).2.2
    exact multiply_scale hk 1 [] [b] [] (by simpa using ⟨hb, hd⟩)
  · rfl

theorem canonical_jointDenominator (ht : t.Canonical) (hd : d.Canonical) :
    (jointDenominator t d).Canonical := by
  have hmonomial := ht.split_snd
  unfold jointDenominator
  split
  · rename_i a b heq
    rw [heq] at hmonomial
    have hb := (canonical_fraction.1 hmonomial).2.2
    exact canonical_multiply 1 [] (by simpa using ⟨hb, hd⟩)
  · exact hd

/-- A denominator absorbs exactly if its multiples do. -/
theorem absorbs_scale_iff {k : Rat} (hk : k ≠ 0) (ht : t.Canonical) (hd : d.Canonical)
    (hconst : d.asConstant? = none) : Absorbs t (scale k d) ↔ Absorbs t d := by
  have hjoint := canonical_jointDenominator ht hd
  rw [Absorbs, Absorbs, jointDenominator_scale hk ht hd, isSum_scale_iff hk hjoint,
    scale_eq_zero_iff hk hjoint, asConstant?_scale hk hd hconst, hconst]

/-- A multiple of a denominator is taken out of a quotient that does not absorb it. -/
theorem divide_scale_right_of_isFraction {k : Rat} (hk : k ≠ 0) (ht : t.Canonical)
    (hfraction : t.IsFraction) (hd : d.Canonical) (hconst : d.asConstant? = none)
    (h : ¬ Absorbs t d) : divide t (scale k d) = scale k⁻¹ (divide t d) := by
  obtain ⟨a, b, rfl⟩ := hfraction.exists_eq
  obtain ⟨⟨_, hlowest⟩, ha, hb⟩ := canonical_fraction.1 ht
  have hne : fraction a b ≠ zero := by simp [zero, const]
  have hfactors : ∀ e ∈ [b, d], e.Canonical := by simpa using ⟨hb, hd⟩
  -- Nothing is absorbed, so the joint denominator is a term other than zero.
  have hjoint : ¬ (multiply 1 [] [b, d]).IsSum ∧ multiply 1 [] [b, d] ≠ zero :=
    not_or.1 fun hjoint => h ⟨hne, hconst, hjoint⟩
  have hcanonical := canonical_multiply 1 [] hfactors
  have hscale := jointDenominator_scale hk ht hd
  rw [jointDenominator_fraction, jointDenominator_fraction] at hscale
  rw [divide_fraction_left a b hconst, divide_fraction_left a b (asConstant?_scale hk hd hconst),
    hscale]
  rcases hlowest with rfl | hlowest
  · exact absurd (multiply_eq_zero 1 [] hfactors (by simp)) hjoint.2
  · -- The numerator is a product without a coefficient, and the joint denominator a term.
    obtain ⟨vs, fs, rfl, _⟩ := hlowest.1
    have hleft := separates_of_monic_product ha trivial rfl hcanonical hjoint.2
    have hright := separates_of_monic_product ha trivial rfl (canonical_scale k hcanonical)
      (mt (scale_eq_zero_iff hk hcanonical).1 hjoint.2)
    exact hleft.divide_scale_right hk hright ha hcanonical hjoint.1 hjoint.2

/-! ## When coefficients are taken out -/

/-- Where a quotient absorbs coefficients, the coefficient of its denominator stays. -/
theorem separates_iff_of_isFraction (ht : t.Canonical) (hfraction : t.IsFraction)
    (hd : d.Canonical) (hd' : d ≠ zero) (hone : d.split.1 ≠ 1) :
    Separates t d ↔ ¬ Absorbs t d := by
  -- A sum has coefficient one, so the denominator is a term.
  have hdsum : ¬ d.IsSum := by
    intro hsum
    rw [split_of_isSum hsum] at hone
    exact hone rfl
  have htsplit := split_of_isFraction hfraction
  cases hconst : d.asConstant? with
  | some k =>
    have heq := eq_const_of_asConstant? hconst
    constructor
    · rintro - ⟨_, hnone, _⟩
      rw [hconst] at hnone
      cases hnone
    · rintro -
      rw [heq] at hd' ⊢
      exact separates_const ht hfraction.not_isSum fun hk => hd' (congrArg const hk)
  | none =>
    have hcoefficient := split_fst_ne_zero hd hd'
    have hmonomial := (hd.split hdsum).1
    -- The denominator is a multiple of its monomial; what is to be shown is when this constant can
    -- be taken out.
    have hmultiple := hd.scale_split hdsum
    have hmonomialConst : d.split.2.asConstant? = none := by
      cases hconst' : d.split.2.asConstant? with
      | none => rfl
      | some k =>
        rw [eq_const_of_asConstant? hconst', scale_const] at hmultiple
        rw [← hmultiple] at hconst
        cases hconst
    have habsorbs : Absorbs t d ↔ Absorbs t d.split.2 := by
      conv_lhs => rw [← hmultiple]
      exact absorbs_scale_iff hcoefficient ht hmonomial.canonical hmonomialConst
    constructor
    · -- A quotient that is left as it is has no coefficient.
      intro hseparates h
      have hquotient := (habsorbs.1 h).isFraction_divide ht hfraction.not_isSum
        (by rw [htsplit]) hmonomial.canonical hmonomial.ne_zero
      have hleft := split_of_isFraction
        (h.isFraction_divide ht hfraction.not_isSum (by rw [htsplit]) hd hd')
      have hright := (canonical_divide ht hmonomial.canonical).split_scale hquotient.not_isSum
        (k := 1 / d.split.1) (by simpa [split_of_isFraction hquotient] using hcoefficient)
      rw [Separates, htsplit] at hseparates
      rw [hseparates, hright.2, split_of_isFraction hquotient, Prod.mk.injEq, mul_one,
        one_div, inv_eq_one] at hleft
      exact hone hleft.1
    · intro h
      have hdivide := divide_scale_right_of_isFraction hcoefficient ht hfraction
        hmonomial.canonical hmonomialConst (mt habsorbs.2 h)
      rw [hmultiple] at hdivide
      rw [Separates, hdivide, htsplit, one_div]

/-- A product with a coefficient and its monomial are divided by a quotient in different ways. -/
theorem separates_iff_of_isProduct (ht : t.Canonical) (hproduct : t.IsProduct) (hzero : t ≠ zero)
    (hd : d.Canonical) (hfraction : d.IsFraction) : Separates t d ↔ ¬ Contested t d := by
  obtain ⟨p, q, rfl⟩ := hfraction.exists_eq
  obtain ⟨_, hp, hq⟩ := canonical_fraction.1 hd
  have hmonomial := (ht.split hproduct.not_isSum).1
  have hacross : (divide (multiply 1 [] [t.split.2, q]) p).Canonical :=
    canonical_divide (canonical_multiply 1 [] (by simpa using ⟨hmonomial.canonical, hq⟩)) hp
  -- Both sides carry the coefficient of the term in front, so it may be dropped.
  have hiff : Separates t (fraction p q) ↔
      divide (multiply 1 [] [t.split.2, q]) p = divide t.split.2 (fraction p q) := by
    rw [Separates, split_of_isFraction hfraction, div_one,
      divide_product_fraction ht hproduct hzero hd]
    constructor
    · exact scale_injective (split_fst_ne_zero ht hzero) hacross
        (canonical_divide hmonomial.canonical hd)
    · exact congrArg _
  rw [hiff]
  by_cases hquotient : t.split.2.IsFraction
  · obtain ⟨a, b, hm⟩ := hquotient.exists_eq
    rw [hm, divide_fraction_left a b rfl]
    constructor
    · rintro heq ⟨a', b', p', q', hm', hd', hne⟩
      rw [hm] at hm'
      cases hm'
      cases hd'
      exact hne heq.symm
    · intro h
      by_contra hne
      exact h ⟨a, b, p, q, hm, rfl, Ne.symm hne⟩
  · -- The monomial is a product as well, and is multiplied across in the same way.
    have hmproduct := (isProduct_or_isFraction hmonomial.not_isSum).resolve_right hquotient
    rw [divide_product_fraction hmonomial.canonical hmproduct hmonomial.ne_zero hd,
      hmonomial.split_eq, scale_one hacross]
    constructor
    · rintro - ⟨a, b, p', q', hm, _⟩
      rw [hm] at hquotient
      exact hquotient trivial
    · exact fun _ => rfl

/-- Without a quotient above or a sum below no coefficient is absorbed. -/
theorem not_absorbs_of_not_isFraction (h : ¬ t.split.2.IsFraction) (hsum : ¬ d.IsSum)
    (hd' : d ≠ zero) : ¬ Absorbs t d := by
  rintro ⟨_, _, hjoint⟩
  rw [jointDenominator_of_not_isFraction h] at hjoint
  exact hjoint.elim hsum hd'

/-- Only a quotient below can be contested. -/
theorem not_contested_of_not_isFraction (h : ¬ d.split.2.IsFraction) : ¬ Contested t d := by
  rintro ⟨a, b, p, q, _, hd, _⟩
  rw [hd] at h
  exact h trivial

/-- The coefficients of a term and a denominator are taken out unless the two are entangled. -/
theorem separates_iff (ht : t.Canonical) (hsum : ¬ t.IsSum) (hd : d.Canonical) (hd' : d ≠ zero) :
    Separates t d ↔ ¬ Entangled t d := by
  -- A product over a quotient can be contested, and a quotient over a coefficient absorbed; in all
  -- other cases the parts separate.
  rcases isProduct_or_isFraction hsum with hproduct | hfraction
  · by_cases hquotient : d.IsFraction
    · have hone : d.split.1 = 1 := by rw [split_of_isFraction hquotient]
      by_cases ht' : t.split.1 = 1
      · simp [Entangled, ht', hone, separates_of_split_eq_one ht hd ht' hone]
      by_cases hzero : t = zero
      · have hnot : ¬ Contested t d := by
          rintro ⟨a, b, p, q, hm, _⟩
          rw [hzero] at hm
          cases hm
        have hseparates : Separates t d := by
          rw [hzero]
          exact separates_zero hd
        simp [Entangled, ht', hnot, hseparates]
      · simp [Entangled, ht', hone, separates_iff_of_isProduct ht hproduct hzero hd hquotient]
    · have hseparates := separates_of_product ht hproduct hd hd' hquotient
      simp only [hseparates, true_iff]
      rintro (⟨ht', hone, h⟩ | ⟨ht', hone, h⟩)
      · refine not_absorbs_of_not_isFraction ?_ ?_ hd' h
        · rw [split_snd_of_monic ht ht']
          exact fun hfraction => hfraction.not_isProduct hproduct
        · intro hdsum
          rw [split_of_isSum hdsum] at hone
          exact hone rfl
      · refine not_contested_of_not_isFraction ?_ h
        rwa [split_snd_of_monic hd hone]
  · have ht' : t.split.1 = 1 := by rw [split_of_isFraction hfraction]
    by_cases hone : d.split.1 = 1
    · simp [Entangled, ht', hone, separates_of_split_eq_one ht hd ht' hone]
    · simp [Entangled, ht', hone, separates_iff_of_isFraction ht hfraction hd hd' hone]

/-- A multiple of a term leaves its quotient if the two are entangled with the denominator or
neither is. -/
theorem divide_scale_left_iff {k : Rat} (hk : k ≠ 0) (ht : t.Canonical) (hsum : ¬ t.IsSum)
    (hd : d.Canonical) (hd' : d ≠ zero) :
    divide (scale k t) d = scale k (divide t d) ↔ (Entangled t d ↔ Entangled (scale k t) d) := by
  by_cases hzero : t = zero
  · simp [hzero, scale_zero, divide_zero_left]
  have hcoefficient := split_fst_ne_zero ht hzero
  obtain ⟨hscaleSum, hscaleSplit⟩ := ht.split_scale hsum (mul_ne_zero hk hcoefficient)
  have hscale := canonical_scale k ht
  have hleft := separates_iff ht hsum hd hd'
  have hright := separates_iff hscale hscaleSum hd hd'
  have hquotient := canonical_divide ht hd
  have hmonomials := canonical_divide ht.split_snd hd.split_snd
  constructor
  · intro heq
    -- The equation says that the multiple separates exactly if the term does.
    have hiff : Separates t d ↔ Separates (scale k t) d := by
      rw [Separates, Separates, heq, hscaleSplit, mul_div_assoc, ← scale_scale _ _ hmonomials]
      constructor
      · exact congrArg _
      · exact scale_injective hk hquotient (canonical_scale _ hmonomials)
    rw [← not_iff_not, ← hleft, ← hright, hiff]
  · intro hiff
    by_cases hentangled : Entangled t d
    · have hentangled' := hiff.1 hentangled
      rw [Entangled, hscaleSplit] at hentangled'
      rcases hentangled with ⟨hone, hdone, _⟩ | ⟨hne, hdone, a, b, p, q, hm, hdsplit, _⟩
      · -- Neither has a coefficient, so the multiple is none.
        have hk1 : k = 1 := by
          have h := (hentangled'.resolve_right fun h => hdone h.2.1).1
          rwa [hone, mul_one] at h
        rw [hk1, scale_one ht, scale_one hquotient]
      · -- Both have a coefficient, and are divided in the same way.
        have hne' := (hentangled'.resolve_left fun h => h.2.1 hdone).1
        rw [split_snd_of_monic hd hdone] at hdsplit
        subst hdsplit
        have hproduct := isProduct_of_split_fst hsum hne
        have hproduct' := isProduct_of_split_fst hscaleSum (by rwa [hscaleSplit])
        have hfactors : ∀ e ∈ [t.split.2, q], e.Canonical := by
          simpa using ⟨ht.split_snd, (canonical_fraction.1 hd).2.2⟩
        rw [divide_product_fraction ht hproduct hzero hd,
          divide_product_fraction hscale hproduct' (mt (scale_eq_zero_iff hk ht).1 hzero) hd,
          hscaleSplit, scale_scale]
        exact canonical_divide (canonical_multiply 1 [] hfactors) (canonical_fraction.1 hd).2.1
    · exact (hleft.2 hentangled).divide_scale_left hk (hright.2 (mt hiff.2 hentangled)) ht hsum hd

/-- Nothing is entangled with a sum, which has no coefficient to take out. -/
theorem not_entangled_of_isSum (h : d.IsSum) : ¬ Entangled t d := by
  rw [Entangled, split_of_isSum h]
  rintro (⟨_, hne, _⟩ | ⟨_, _, hcontested⟩)
  · exact hne rfl
  · refine not_contested_of_not_isFraction ?_ hcontested
    rw [split_of_isSum h]
    exact fun hfraction => hfraction.not_isSum h

/-- A sum keeps its coefficients unless it is multiplied by a denominator and becomes a term. -/
theorem divide_scale_right_iff_of_isSum {k : Rat} (hk : k ≠ 0) (hk1 : k ≠ 1) (ht : t.Canonical)
    (hsum : ¬ t.IsSum) (hd : d.Canonical) (hdsum : d.IsSum) :
    divide t (scale k d) = scale k⁻¹ (divide t d) ↔ ¬ Absorbs t d := by
  have hscale := canonical_scale k hd
  have hscaleSum := (isSum_scale_iff hk hd).2 hdsum
  have hmonomial := ht.split_snd
  constructor
  · -- Both quotients keep the coefficient of the term.
    intro heq habsorbs
    have hscaled := (absorbs_scale_iff hk ht hd hdsum.asConstant?_eq_none).2 habsorbs
    obtain ⟨hquotient, hcoefficient⟩ :=
      habsorbs.split_divide ht hsum hd hdsum.ne_zero (Or.inr hdsum)
    obtain ⟨_, hcoefficient'⟩ :=
      hscaled.split_divide ht hsum hscale hscaleSum.ne_zero (Or.inr hscaleSum)
    have hc := split_fst_ne_zero ht habsorbs.1
    have hsplit := (canonical_divide ht hd).split_scale hquotient (k := k⁻¹)
      (mul_ne_zero (inv_ne_zero hk) (by rwa [hcoefficient]))
    rw [heq, hsplit.2, hcoefficient] at hcoefficient'
    have hinv : k⁻¹ = 1 := mul_right_cancel₀ hc (hcoefficient'.trans (one_mul _).symm)
    exact hk1 (inv_eq_one.1 hinv)
  · intro h
    by_cases hzero : t = zero
    · rw [hzero, divide_zero_left, divide_zero_left, scale_zero]
    have habsorbs : ¬ Absorbs t.split.2 d := by
      rw [Absorbs, jointDenominator_split ht hsum]
      exact fun h' => h ⟨hzero, h'.2⟩
    by_cases hfraction : t.split.2.IsFraction
    · -- Nothing is absorbed: the sum joins the denominator of the monomial, whose quotient releases
      -- the constant.
      rw [divide_isSum_right ht hsum hscale hscaleSum, divide_isSum_right ht hsum hd hdsum,
        divide_scale_right_of_isFraction hk hmonomial hfraction hd hdsum.asConstant?_eq_none
          habsorbs, scale_scale _ _ (canonical_divide hmonomial hd),
        scale_scale _ _ (canonical_divide hmonomial hd), mul_comm]
    · refine absurd ⟨hzero, hdsum.asConstant?_eq_none, Or.inl ?_⟩ h
      rwa [jointDenominator_of_not_isFraction hfraction]

/-- A multiple of a denominator is taken out of the quotient if it is one, or if neither the
denominator nor its multiple is entangled with the term, and no sum absorbs it. -/
def Releases (k : Rat) (t d : Expr) : Prop :=
  k = 1 ∨ (¬ Entangled t d ∧ ¬ Entangled t (scale k d) ∧ ¬ (d.IsSum ∧ Absorbs t d))

/-- A constant comes out of a denominator exactly if the denominator releases it. -/
theorem divide_scale_right_iff {k : Rat} (hk : k ≠ 0) (ht : t.Canonical) (hsum : ¬ t.IsSum)
    (hd : d.Canonical) (hd' : d ≠ zero) :
    divide t (scale k d) = scale k⁻¹ (divide t d) ↔ Releases k t d := by
  by_cases hk1 : k = 1
  · simp [Releases, hk1, scale_one hd, scale_one (canonical_divide ht hd)]
  have hscale := canonical_scale k hd
  by_cases hdsum : d.IsSum
  · have hscaleSum := (isSum_scale_iff hk hd).2 hdsum
    simp [Releases, hk1, hdsum, not_entangled_of_isSum hdsum, not_entangled_of_isSum hscaleSum,
      divide_scale_right_iff_of_isSum hk hk1 ht hsum hd hdsum]
  have hscale' : scale k d ≠ zero := mt (scale_eq_zero_iff hk hd).1 hd'
  have hcoefficient := mul_ne_zero hk (split_fst_ne_zero hd hd')
  have hscaleSplit := (hd.split_scale hdsum hcoefficient).2
  have hleft := separates_iff ht hsum hd hd'
  have hright := separates_iff ht hsum hscale hscale'
  have hmonomials := canonical_divide ht.split_snd hd.split_snd
  -- The sums and the constant one are done: what is left to show is that neither pair is entangled.
  have hreleases : Releases k t d ↔ ¬ Entangled t d ∧ ¬ Entangled t (scale k d) := by
    simp [Releases, hk1, hdsum]
  rw [hreleases]
  constructor
  · intro heq
    have hiff : Separates t d ↔ Separates t (scale k d) := by
      have hquotient : t.split.1 / (k * d.split.1) = k⁻¹ * (t.split.1 / d.split.1) := by
        rw [← div_eq_inv_mul, div_div, mul_comm k]
      rw [Separates, Separates, heq, hscaleSplit, hquotient, ← scale_scale _ _ hmonomials]
      constructor
      · exact congrArg _
      · exact scale_injective (inv_ne_zero hk) (canonical_divide ht hd)
          (canonical_scale _ hmonomials)
    rw [hleft, hright, not_iff_not] at hiff
    by_contra hnot
    have hentangled : Entangled t d := by
      by_contra h
      exact hnot ⟨h, mt hiff.2 h⟩
    have hentangled' := hiff.1 hentangled
    rw [Entangled, hscaleSplit] at hentangled'
    rcases hentangled with ⟨hone, _, habsorbs⟩ | ⟨hne, hdone, _⟩
    · -- Neither quotient has a coefficient, but one is a multiple of the other.
      have habsorbs' := (hentangled'.resolve_right fun h => h.1 hone).2.2
      have hquotient := habsorbs.isFraction_divide ht hsum hone hd hd'
      have hquotient' := habsorbs'.isFraction_divide ht hsum hone hscale hscale'
      have hsplit := (canonical_divide ht hd).split_scale hquotient.not_isSum (k := k⁻¹)
        (by simpa [split_of_isFraction hquotient] using hk)
      have hinv := congrArg Prod.fst (split_of_isFraction hquotient')
      rw [heq, hsplit.2, split_of_isFraction hquotient, mul_one] at hinv
      exact hk1 (inv_eq_one.1 hinv)
    · have hone := (hentangled'.resolve_left fun h => hne h.1).2.1
      rw [hdone, mul_one] at hone
      exact hk1 hone
  · rintro ⟨h, h'⟩
    exact (hleft.2 h).divide_scale_right hk (hright.2 h') ht hd hdsum hd'

/-! ## Normal forms of quotients -/

/-- A multiple of a numerator and a multiple of a denominator are taken out of a quotient, addend by
addend, as far as nothing is entangled and no sum absorbs the coefficient. -/
theorem normalize_quotient_of_multiple {k : Rat} (hk : k ≠ 0) (n : Expr) {d : Expr}
    (hd : d.normalize ≠ zero) :
    ((∀ t ∈ n.normalize.addends, (Entangled t d.normalize ↔ Entangled (scale k t) d.normalize)) →
        (fraction (product k [] [n]) d).normalize = (product k [] [fraction n d]).normalize) ∧
      ((∀ t ∈ n.normalize.addends, Releases k t d.normalize) →
        (fraction n (product k [] [d])).normalize = (product k⁻¹ [] [fraction n d]).normalize) := by
  have hn' := canonical_normalize n
  have hd' := canonical_normalize d
  have hquotient : ∀ a b : Expr, (fraction a b).normalize = divide a.normalize b.normalize :=
    fun a b => by rw [normalize]
  simp only [normalize_multiple hk, normalize_multiple (inv_ne_zero hk), hquotient]
  constructor
  · intro h
    -- A sum is divided addend by addend, so the condition is asked of every addend.
    apply divide_scale_of_addends hk hn' hd' hd
    intro t ht
    obtain ⟨hcanonical, hsum⟩ := hn'.forall_addends t ht
    exact (divide_scale_left_iff hk hcanonical hsum hd' hd).2 (h t ht)
  · intro h
    apply divide_scale_right_of_addends hk hn' hd' hd
    intro t ht
    obtain ⟨hcanonical, hsum⟩ := hn'.forall_addends t ht
    exact (divide_scale_right_iff hk hcanonical hsum hd' hd).2 (h t ht)

/-- Three times a quotient, and a quotient by a multiple; the divisor is a product, and then a
quotient. -/
theorem normalize_quotient_of_multiple_three :
    ((fraction (product 3 [] [fraction one (var "y")]) (product 2 ["y"] [])).normalize =
          (product 3 [] [fraction (fraction one (var "y")) (product 2 ["y"] [])]).normalize ∧
        (fraction (fraction one (var "y")) (product 3 [] [product 2 ["y"] []])).normalize =
          (product 3⁻¹ [] [fraction (fraction one (var "y")) (product 2 ["y"] [])]).normalize) ∧
      ((fraction (product 3 [] [fraction (var "x") (var "y")]) (fraction (var "z") (var "y"))).normalize =
          (product 3 [] [fraction (fraction (var "x") (var "y"))
            (fraction (var "z") (var "y"))]).normalize ∧
        (fraction (fraction (var "x") (var "y")) (product 3 [] [fraction (var "z") (var "y")])).normalize =
          (product 3⁻¹ [] [fraction (fraction (var "x") (var "y"))
            (fraction (var "z") (var "y"))]).normalize) ∧
      (product 3 [] [fraction (fraction (var "x") (var "y")) (fraction (var "z") (var "y"))]).normalize =
        product 3 [] [fraction (var "x") (var "z")] := by
  refine ⟨?_, ?_, by cbv⟩
  · have hn : (fraction one (var "y")).normalize.addends = [fraction one (var "y")] := by cbv
    have hd : (product 2 ["y"] []).normalize = product 2 ["y"] [] := by cbv
    have hscale : scale 3 (fraction one (var "y")) = product 3 [] [fraction one (var "y")] := by cbv
    have hscale' : scale 3 (product 2 ["y"] []) = product 6 ["y"] [] := by cbv
    have hjoint : jointDenominator (fraction one (var "y")) (product 2 ["y"] []) =
        product 2 ["y", "y"] [] := by cbv
    have hjoint' : jointDenominator (fraction one (var "y")) (product 6 ["y"] []) =
        product 6 ["y", "y"] [] := by cbv
    have hrest := normalize_quotient_of_multiple three_ne_zero (fraction one (var "y"))
      (d := product 2 ["y"] []) (by simp [hd, zero, const])
    rw [hn, hd] at hrest
    refine ⟨hrest.1 ?_, hrest.2 ?_⟩
    · simp [hscale, Entangled, Absorbs, hjoint, split, IsSum, zero, const]
    · simp [hscale', Releases, Entangled, Absorbs, hjoint, hjoint', split, IsSum, zero, const]
  · have hn : (fraction (var "x") (var "y")).normalize.addends =
        [fraction (var "x") (var "y")] := by cbv
    have hd : (fraction (var "z") (var "y")).normalize = fraction (var "z") (var "y") := by cbv
    have hscale : scale 3 (fraction (var "x") (var "y")) =
        product 3 [] [fraction (var "x") (var "y")] := by cbv
    have hscale' : scale 3 (fraction (var "z") (var "y")) =
        product 3 [] [fraction (var "z") (var "y")] := by cbv
    have hjoint : jointDenominator (fraction (var "x") (var "y"))
        (product 3 [] [fraction (var "z") (var "y")]) = product 3 ["z"] [] := by cbv
    -- Multiplied across in either way, the quotients make the same one.
    have hacross : divide (var "x") (multiply 1 [] [var "y", fraction (var "z") (var "y")]) =
        divide (multiply 1 [] [fraction (var "x") (var "y"), var "y"]) (var "z") := by cbv
    have hrest := normalize_quotient_of_multiple three_ne_zero (fraction (var "x") (var "y"))
      (d := fraction (var "z") (var "y")) (by simp [hd, zero, const])
    rw [hn, hd] at hrest
    refine ⟨hrest.1 ?_, hrest.2 ?_⟩
    · simp [hscale, Entangled, Contested, split, monomial, hacross]
    · simp [hscale', Releases, Entangled, Absorbs, hjoint, split, IsSum, zero, const]

/-- A sum takes up the coefficient of the variable it is multiplied by. So the quotient `1 / (x +
1)` by `2 x` is `1 / (2 x + 2 x x)`, but three times the quotient by `2 x` is `3/2` of `1 / (x + x
x)`. And `1 / y` by `x / z` is `1 / (y (x / z))`, but three times `1 / y` by `x / z` is three times
`(z (1 / y)) / x`. -/
theorem normalize_quotient_absorbed :
    (product 2 ["x"] []).normalize ≠ zero ∧
      (fraction (product 3 [] [fraction one (sum [var "x", one])]) (product 2 ["x"] [])).normalize ≠
        (product 3 [] [fraction (fraction one (sum [var "x", one])) (product 2 ["x"] [])]).normalize ∧
      (fraction (fraction one (sum [var "x", one])) (product 3 [] [product 2 ["x"] []])).normalize ≠
        (product 3⁻¹ []
          [fraction (fraction one (sum [var "x", one])) (product 2 ["x"] [])]).normalize ∧
      (fraction (product 3 [] [fraction one (var "y")]) (fraction (var "x") (var "z"))).normalize ≠
        (product 3 [] [fraction (fraction one (var "y")) (fraction (var "x") (var "z"))]).normalize := by
  have hquotient :
      (product 3 [] [fraction (fraction one (sum [var "x", one])) (product 2 ["x"] [])]).normalize =
        product 3 [] [fraction one (sum [product 2 ["x"] [], product 2 ["x", "x"] []])] := by cbv
  have hnumerator :
      (fraction (product 3 [] [fraction one (sum [var "x", one])]) (product 2 ["x"] [])).normalize =
        product (3 / 2) [] [fraction one (sum [var "x", product 1 ["x", "x"] []])] := by cbv
  have hdenominator :
      (fraction (fraction one (sum [var "x", one])) (product 3 [] [product 2 ["x"] []])).normalize =
        fraction one (sum [product 6 ["x"] [], product 6 ["x", "x"] []]) := by cbv
  have hmultiple :
      (product 3⁻¹ [] [fraction (fraction one (sum [var "x", one])) (product 2 ["x"] [])]).normalize =
        product (1 / 3) [] [fraction one (sum [product 2 ["x"] [], product 2 ["x", "x"] []])] := by
    cbv
  have hd : (product 2 ["x"] []).normalize = product 2 ["x"] [] := by cbv
  have hright :
      (fraction (product 3 [] [fraction one (var "y")]) (fraction (var "x") (var "z"))).normalize =
        product 3 [] [fraction (product 1 ["z"] [fraction one (var "y")]) (var "x")] := by cbv
  have hleft :
      (product 3 [] [fraction (fraction one (var "y")) (fraction (var "x") (var "z"))]).normalize =
        product 3 [] [fraction one (product 1 ["y"] [fraction (var "x") (var "z")])] := by cbv
  rw [hquotient, hnumerator, hdenominator, hmultiple, hd, hright, hleft]
  refine ⟨by simp [zero, const], ?_, ?_, by simp [var, one, const]⟩
  · intro heq
    -- The two normal forms differ in the coefficient.
    have hcoefficient : (3 / 2 : Rat) = 3 := (product.inj heq).1
    norm_num at hcoefficient
  · intro heq
    cases heq

end RationalAlgebra.Expr
