import Mathlib
import RationalAlgebra.Proofs.Normal.Term

/-!
# Coefficients

A combination is determined by the coefficient of each monomial in it, which is zero where the
monomial does not occur. To insert a term, to add a combination and to add up expressions is to add
these functions, and a multiple of a normal form has the multiples of its coefficients. So
normalization is linear, and two normal forms with the same coefficients are the same.

Main statements: `coefficients_injective`, `coefficients_normalize_sum`, `coefficients_scale` and
`Canonical.ext_coefficients`.
-/

namespace RationalAlgebra

open RationalAlgebra.Expr

instance : DecidableEq Keyed :=
  fun _ _ => decidable_of_iff _ Keyed.cmp_eq_iff

namespace Combination

/-! ## Coefficients of combinations -/

/-- The coefficients of the monomials of some terms. -/
def termsCoefficients (terms : List Term) : Keyed → Rat :=
  (terms.map fun t => Pi.single t.monomial t.coefficient).sum

/-- The coefficient of each monomial. -/
def coefficients (a : Combination) : Keyed → Rat :=
  termsCoefficients a.terms

/-- The first term adds its coefficient at its monomial. -/
theorem termsCoefficients_cons (t : Term) (terms : List Term) :
    termsCoefficients (t :: terms) =
      Pi.single t.monomial t.coefficient + termsCoefficients terms := by
  rw [termsCoefficients, List.map_cons, List.sum_cons, termsCoefficients]

/-- So does a term that is put in front, also when it is left out because its coefficient is zero.
-/
theorem termsCoefficients_consTerm (m : Keyed) (c : Rat) (terms : List Term) :
    termsCoefficients (consTerm m c terms) = Pi.single m c + termsCoefficients terms := by
  unfold consTerm
  split
  · rename_i hc
    rw [hc, Pi.single_zero, zero_add]
  · exact termsCoefficients_cons _ terms

/-- And so does a term that is inserted, wherever its monomial stands. -/
theorem termsCoefficients_insertTerm (m : Keyed) (c : Rat) (terms : List Term) :
    termsCoefficients (insertTerm m c terms) = Pi.single m c + termsCoefficients terms := by
  induction terms with
  | nil => exact termsCoefficients_consTerm m c []
  | cons t terms ih =>
    rw [insertTerm]
    split
    · exact termsCoefficients_consTerm m c _
    · -- The monomial is there, and the two coefficients are added at it.
      rename_i heq
      rw [termsCoefficients_consTerm, termsCoefficients_cons, ← Keyed.cmp_eq_iff.1 heq,
        add_comm t.coefficient, Pi.single_add, add_assoc]
    · rw [termsCoefficients_cons, ih, termsCoefficients_cons]
      exact add_left_comm _ _ _

/-- A monomial that is not there has the coefficient zero. -/
theorem termsCoefficients_of_forall_ne {m : Keyed} {terms : List Term}
    (h : ∀ t ∈ terms, t.monomial ≠ m) : termsCoefficients terms m = 0 := by
  induction terms with
  | nil => rfl
  | cons t terms ih =>
    obtain ⟨ht, hrest⟩ := List.forall_mem_cons.1 h
    rw [termsCoefficients_cons, Pi.add_apply, Pi.single_eq_of_ne ht.symm, ih hrest, add_zero]

/-- Monomials of which one comes before the other are different. -/
theorem ne_of_cmp {s t : Term} (h : Keyed.cmp s.monomial t.monomial = .lt) :
    s.monomial ≠ t.monomial := by
  intro heq
  rw [Keyed.cmp_eq_iff.2 heq] at h
  cases h

/-- Where each monomial occurs once, it has the coefficient of its term. -/
theorem termsCoefficients_of_mem {terms : List Term}
    (h : terms.Pairwise fun s t => s.monomial ≠ t.monomial) {t : Term} (ht : t ∈ terms) :
    termsCoefficients terms t.monomial = t.coefficient := by
  induction terms with
  | nil => simp at ht
  | cons s terms ih =>
    obtain ⟨hfirst, hrest⟩ := List.pairwise_cons.1 h
    rw [termsCoefficients_cons, Pi.add_apply]
    -- Monomials are distinct, so only one term contributes at the monomial asked for.
    rcases List.mem_cons.1 ht with rfl | hmem
    · rw [Pi.single_eq_same,
        termsCoefficients_of_forall_ne fun u hu => (hfirst u hu).symm, add_zero]
    · rw [Pi.single_eq_of_ne (hfirst t hmem).symm, zero_add, ih hrest hmem]

theorem pairwise_monomial_ne (a : Combination) :
    a.terms.Pairwise fun s t => s.monomial ≠ t.monomial :=
  a.sorted.imp ne_of_cmp

/-- The terms of a combination are the monomials that have a coefficient in it. -/
theorem mem_terms_iff {a : Combination} {t : Term} :
    t ∈ a.terms ↔ t.coefficient ≠ 0 ∧ a.coefficients t.monomial = t.coefficient := by
  constructor
  · intro ht
    exact ⟨a.nonzero t ht, termsCoefficients_of_mem a.pairwise_monomial_ne ht⟩
  · rintro ⟨hne, hcoefficient⟩
    -- A coefficient other than zero is that of a term.
    obtain ⟨s, hs, hmonomial⟩ : ∃ s ∈ a.terms, s.monomial = t.monomial := by
      by_contra hnone
      push Not at hnone
      exact hne (hcoefficient.symm.trans (termsCoefficients_of_forall_ne hnone))
    have hsame : s.coefficient = t.coefficient := by
      rw [← termsCoefficients_of_mem a.pairwise_monomial_ne hs, hmonomial]
      exact hcoefficient
    obtain ⟨m, c⟩ := s
    obtain ⟨n, d⟩ := t
    cases hmonomial
    cases hsame
    exact hs

theorem nodup_terms (a : Combination) : a.terms.Nodup :=
  a.pairwise_monomial_ne.imp fun hne heq => hne (congrArg Term.monomial heq)

/-- A combination is determined by its coefficients. -/
theorem coefficients_injective : Function.Injective coefficients := by
  intro a b h
  have hmem : ∀ t, t ∈ a.terms ↔ t ∈ b.terms := by
    intro t
    rw [mem_terms_iff, mem_terms_iff, h]
  have hperm := (List.perm_ext_iff_of_nodup a.nodup_terms b.nodup_terms).2 hmem
  -- Both lists are sorted by the same strict order, so they are equal and not only permuted.
  refine ext_terms (hperm.eq_of_pairwise ?_ a.sorted b.sorted)
  intro s t _ _ hst hts
  exact absurd rfl (ne_of_cmp (Keyed.cmp_trans hst hts : Keyed.cmp s.monomial s.monomial = .lt))

@[simp]
theorem coefficients_empty : empty.coefficients = 0 :=
  rfl

@[simp]
theorem coefficients_insert (a : Combination) (m : Keyed) (c : Rat) :
    (a.insert m c).coefficients = a.coefficients + Pi.single m c := by
  rw [coefficients, insert, termsCoefficients_insertTerm, add_comm]
  rfl

/-- Steps that each add some coefficients add all of them together. -/
theorem coefficients_foldl {α : Type} {f : Combination → α → Combination} {g : α → Keyed → Rat}
    {xs : List α} (h : ∀ a : Combination, ∀ x ∈ xs, (f a x).coefficients = a.coefficients + g x)
    (a : Combination) : (xs.foldl f a).coefficients = a.coefficients + (xs.map g).sum := by
  induction xs generalizing a with
  | nil => simp
  | cons x xs ih =>
    rw [List.foldl_cons, ih fun b y hy => h b y (List.mem_cons_of_mem x hy),
      h a x List.mem_cons_self, List.map_cons, List.sum_cons, add_assoc]

theorem coefficients_add (a b : Combination) :
    (a.add b).coefficients = a.coefficients + b.coefficients :=
  coefficients_foldl (g := fun t : Term => Pi.single t.monomial t.coefficient)
    (fun c t _ => coefficients_insert c t.monomial t.coefficient) a

end Combination

/-! ## Coefficients of expressions -/

namespace Expr

open Combination

/-- The coefficients of the terms of an expression. -/
def coefficients (e : Expr) : Keyed → Rat :=
  (Combination.empty.addExpr e).coefficients

/-- A term has one coefficient, at its monomial. -/
theorem coefficients_of_not_isSum {e : Expr} (h : ¬ e.IsSum) :
    e.coefficients = Pi.single (.of e.split.2) e.split.1 := by
  rw [coefficients, addExpr_of_not_isSum _ h, addTerm, coefficients_insert, coefficients_empty,
    zero_add]

/-- A sum has the coefficients of its addends together. -/
theorem coefficients_sum {es : List Expr} (h : ∀ e ∈ es, ¬ e.IsSum) :
    (sum es).coefficients = (es.map coefficients).sum := by
  rw [coefficients, addExpr]
  rw [coefficients_foldl (g := coefficients), coefficients_empty, zero_add]
  intro a e he
  rw [addTerm, coefficients_insert, coefficients_of_not_isSum (h e he)]

/-- Adding an expression adds its coefficients. -/
theorem coefficients_addExpr (a : Combination) (e : Expr) :
    (a.addExpr e).coefficients = a.coefficients + e.coefficients := by
  have hterms : ∀ (b : Combination) (es : List Expr), (es.foldl addTerm b).coefficients =
      b.coefficients + (es.map fun e : Expr => Pi.single (.of e.split.2) e.split.1).sum :=
    fun b es => coefficients_foldl (g := fun e : Expr => Pi.single (.of e.split.2) e.split.1)
      (fun c e _ => coefficients_insert c (.of e.split.2) e.split.1) b
  cases e with
  | sum es => rw [coefficients, addExpr, addExpr, hterms, hterms, coefficients_empty, zero_add]
  | product c vs fs =>
    rw [coefficients_of_not_isSum id]
    exact coefficients_insert _ _ _
  | fraction n d =>
    rw [coefficients_of_not_isSum id]
    exact coefficients_insert _ _ _

/-- Expressions added up have the sums of their coefficients. -/
theorem coefficients_ofExprs (es : List Expr) :
    (ofExprs es).coefficients = (es.map coefficients).sum := by
  rw [ofExprs, coefficients_foldl (g := coefficients) fun a e _ => coefficients_addExpr a e,
    coefficients_empty, zero_add]

/-- Writing a combination as an expression keeps the coefficients. -/
theorem coefficients_toExpr {a : Combination} (ha : a.All IsMonomial) :
    a.toExpr.coefficients = a.coefficients := by
  rw [coefficients, addExpr_toExpr _ ha, coefficients_add, coefficients_empty, zero_add]

/-- A sum has the coefficients of its addends together. -/
theorem coefficients_normalize_sum (es : List Expr) :
    (sum es).normalize.coefficients = (es.map fun e => e.normalize.coefficients).sum := by
  have hcanonical : ∀ e ∈ es.map normalize, e.Canonical :=
    List.forall_mem_map.2 fun e _ => canonical_normalize e
  rw [normalize, normalizeList_eq, coefficients_toExpr (isMonomial_ofExprs hcanonical),
    coefficients_ofExprs, List.map_map]
  rfl

/-- A canonical expression is the sum of its terms. -/
theorem Canonical.toExpr_addExpr {e : Expr} (h : e.Canonical) :
    (Combination.empty.addExpr e).toExpr = e := by
  by_cases hsum : e.IsSum
  · cases e with
    | sum es =>
      have hsame : ∀ (a : Combination), ∀ e ∈ es, a.addTerm e = a.addExpr e :=
        fun a e he => (addExpr_of_not_isSum a (h.addends e he).2.1).symm
      rw [addExpr, List.foldl_ext _ _ _ hsame]
      exact toExpr_ofExprs_of_canonical h
    | product c vs fs => exact absurd hsum id
    | fraction n d => exact absurd hsum id
  · rw [addExpr_of_not_isSum _ hsum, addTerm]
    by_cases hzero : e = zero
    · -- Zero is the term that adds nothing, and the empty combination is written as zero.
      rw [hzero]
      exact congrArg toExpr (insert_zero Combination.empty _)
    · rw [toExpr_empty_insert _ (split_fst_ne_zero h hzero), Keyed.expr_of, (h.split hsum).2]

/-- Canonical expressions with the same coefficients are the same. -/
theorem Canonical.ext_coefficients {a b : Expr} (ha : a.Canonical) (hb : b.Canonical)
    (h : a.coefficients = b.coefficients) : a = b := by
  rw [← ha.toExpr_addExpr, ← hb.toExpr_addExpr, coefficients_injective h]

theorem coefficients_const (k : Rat) : (const k).coefficients = Pi.single (.of one) k :=
  coefficients_of_not_isSum id

theorem coefficients_zero : zero.coefficients = 0 :=
  (coefficients_const 0).trans (Pi.single_zero _)

/-- The term that is written from a coefficient and a monomial has them. -/
theorem coefficients_ofTerm {m : Expr} (h : m.IsMonomial) {c : Rat} (hc : c ≠ 0) :
    (ofTerm c m).coefficients = Pi.single (.of m) c := by
  obtain ⟨_, hsum, hsplit⟩ := h.ofTerm hc
  rw [coefficients_of_not_isSum hsum, hsplit]

/-! ## Multiples -/

/-- The coefficient, the variables and the quotients of a canonical term. -/
theorem Canonical.exists_split {e : Expr} (h : e.Canonical) (hsum : ¬ e.IsSum) :
    ∃ vs fs, e.split.2 = monomial vs fs ∧ InOrder vs fs := by
  cases e with
  | sum es => exact absurd trivial hsum
  | product c vs fs =>
    obtain ⟨_, hvs, hapart, hsorted, _⟩ := h.shape
    exact ⟨vs, fs, rfl, hvs, hapart, hsorted⟩
  | fraction n d =>
    refine ⟨[], [fraction n d], rfl, List.Pairwise.nil, ?_, List.pairwise_singleton _ _⟩
    simp [Apart]

/-- A multiple of a term is a term with the same monomial. -/
theorem Canonical.scale_eq_ofTerm {e : Expr} (h : e.Canonical) (hsum : ¬ e.IsSum) {k : Rat}
    (hne : k * e.split.1 ≠ 0) : scale k e = ofTerm (k * e.split.1) e.split.2 := by
  obtain ⟨vs, fs, hsplit, horder⟩ := h.exists_split hsum
  rw [hsplit, ← horder.multiply_eq hne, ← scale_ofTerm k _ vs horder.isFraction, ← hsplit,
    (h.split hsum).2]

/-- A multiple of a term has the multiple of its coefficient. -/
theorem coefficients_scale_of_not_isSum (k : Rat) {e : Expr} (h : e.Canonical)
    (hsum : ¬ e.IsSum) : (scale k e).coefficients = k • e.coefficients := by
  rw [coefficients_of_not_isSum hsum, ← Pi.single_smul, smul_eq_mul]
  by_cases hzero : k * e.split.1 = 0
  · -- A term that vanishes has no monomial left, and no coefficient anywhere.
    obtain ⟨vs, fs, hsplit, horder⟩ := h.exists_split hsum
    rw [hzero, Pi.single_zero, ← (h.split hsum).2, hsplit, scale_ofTerm k _ vs horder.isFraction,
      hzero, multiply, Factors.gather_of_isFraction horder.isFraction]
    exact coefficients_zero
  · rw [h.scale_eq_ofTerm hsum hzero, coefficients_ofTerm (h.split hsum).1 hzero]

/-- A multiple of a term is one product, with nothing to multiply out. -/
theorem scale_eq_toExpr {k : Rat} (hk : k ≠ 0) {e : Expr} (hsum : ¬ e.IsSum)
    (hne : e.split.1 ≠ 0) :
    scale k e = (Factors.expand (Factors.times ⟨k, [], []⟩ e) []).toExpr := by
  have hterm : ∀ f ∈ [e], ¬ f.IsSum := by simpa using hsum
  rw [scale, multiply, Factors.gather_of_not_isSum _ hterm]
  exact if_neg (coefficient_times_ne_zero hk hne)

/-- A multiple of a sum is multiplied out, and has the multiples of all coefficients. -/
theorem coefficients_scale_sum {k : Rat} (hk : k ≠ 0) {es : List Expr} (h : (sum es).Canonical) :
    (scale k (sum es)).coefficients = k • (sum es).coefficients := by
  have hes := h.addends
  have hempty : Factors.CanonicalQuotients ⟨k, [], []⟩ := by simp [Factors.CanonicalQuotients]
  have hsums : Factors.CanonicalSums [es] := by
    simpa [Factors.CanonicalSums] using fun e he => ⟨(hes e he).1, (hes e he).2.1⟩
  -- Each addend becomes a product of its own, which is its multiple.
  have hone : ∀ e ∈ es, (Factors.expand (Factors.times ⟨k, [], []⟩ e) []).coefficients =
      k • e.coefficients := by
    intro e he
    obtain ⟨hcanonical, hsum, hne⟩ := hes e he
    have hmonomials : (Factors.expand (Factors.times ⟨k, [], []⟩ e) []).All IsMonomial :=
      Factors.isMonomial_expand (Factors.canonicalQuotients_times hempty hcanonical hsum)
        (by simp [Factors.CanonicalSums])
    rw [← coefficients_toExpr hmonomials, ← scale_eq_toExpr hk hsum hne,
      coefficients_scale_of_not_isSum k hcanonical hsum]
  have hscale : scale k (sum es) = (Factors.expand ⟨k, [], []⟩ [es]).toExpr := if_neg hk
  rw [hscale, coefficients_toExpr (Factors.isMonomial_expand hempty hsums), Factors.expand,
    coefficients_foldl (g := fun e => k • e.coefficients), coefficients_empty, zero_add,
    coefficients_sum fun e he => (hes e he).2.1, List.smul_sum, List.map_map]
  · rfl
  · intro a e he
    rw [coefficients_add, hone e he]

/-- A multiple has the multiples of all coefficients. -/
theorem coefficients_scale (k : Rat) {e : Expr} (h : e.Canonical) :
    (scale k e).coefficients = k • e.coefficients := by
  by_cases hsum : e.IsSum
  · cases e with
    | product c vs fs => exact absurd hsum id
    | fraction n d => exact absurd hsum id
    | sum es =>
      by_cases hk : k = 0
      · rw [hk, zero_smul]
        exact coefficients_zero
      · exact coefficients_scale_sum hk h
  · exact coefficients_scale_of_not_isSum k h hsum

theorem scale_one {e : Expr} (h : e.Canonical) : scale 1 e = e := by
  apply (canonical_scale 1 h).ext_coefficients h
  rw [coefficients_scale 1 h, one_smul]

theorem scale_scale (k l : Rat) {e : Expr} (h : e.Canonical) :
    scale k (scale l e) = scale (k * l) e := by
  have hscale := canonical_scale l h
  apply (canonical_scale k hscale).ext_coefficients (canonical_scale (k * l) h)
  rw [coefficients_scale k hscale, coefficients_scale l h, coefficients_scale (k * l) h, mul_smul]

theorem scale_zero_left {e : Expr} (h : e.Canonical) : scale 0 e = zero := by
  apply (canonical_scale 0 h).ext_coefficients (canonical_const 0)
  rw [coefficients_scale 0 h, zero_smul, coefficients_const, Pi.single_zero]

theorem scale_zero (k : Rat) : scale k zero = zero := by
  rw [zero, scale_const, mul_zero]

/-- A multiple by a nonzero constant determines the normal form. -/
theorem scale_injective {k : Rat} (hk : k ≠ 0) {a b : Expr} (ha : a.Canonical)
    (hb : b.Canonical) (h : scale k a = scale k b) : a = b := by
  rw [← scale_one ha, ← scale_one hb, ← inv_mul_cancel₀ hk, ← scale_scale _ _ ha,
    ← scale_scale _ _ hb, h]

/-- A multiple by a nonzero constant is zero only for zero. -/
theorem scale_eq_zero_iff {k : Rat} (hk : k ≠ 0) {e : Expr} (h : e.Canonical) :
    scale k e = zero ↔ e = zero := by
  constructor
  · intro hzero
    rw [← scale_zero k] at hzero
    exact scale_injective hk h (canonical_const 0) hzero
  · rintro rfl
    exact scale_zero k

/-- A term with another coefficient is a term with the same monomial. -/
theorem Canonical.split_scale {e : Expr} (h : e.Canonical) (hsum : ¬ e.IsSum) {k : Rat}
    (hne : k * e.split.1 ≠ 0) :
    ¬ (scale k e).IsSum ∧ (scale k e).split = (k * e.split.1, e.split.2) := by
  rw [h.scale_eq_ofTerm hsum hne]
  exact ((h.split hsum).1.ofTerm hne).2

/-- A multiple of a term is a term. -/
theorem not_isSum_scale (k : Rat) {e : Expr} (h : e.Canonical) (hsum : ¬ e.IsSum) :
    ¬ (scale k e).IsSum := by
  by_cases hk : k = 0
  · rw [hk, scale_zero_left h]
    exact id
  · by_cases hzero : e = zero
    · rw [hzero, scale_zero]
      exact id
    · exact (h.split_scale hsum (mul_ne_zero hk (split_fst_ne_zero h hzero))).1

/-- A term is the multiple of its monomial. -/
theorem Canonical.scale_split {e : Expr} (h : e.Canonical) (hsum : ¬ e.IsSum) :
    scale e.split.1 e.split.2 = e := by
  have hmonomial := (h.split hsum).1
  by_cases hzero : e = zero
  · rw [hzero]
    exact scale_zero_left (canonical_const 1)
  · -- The monomial has coefficient one, so the multiple is by the coefficient of the term alone.
    have hone : ofTerm 1 e.split.2 = e.split.2 := ofTerm_one hmonomial.monic
    have hsplit := (hmonomial.ofTerm one_ne_zero).2.2
    rw [hone] at hsplit
    have hne : e.split.1 * e.split.2.split.1 ≠ 0 := by
      rw [hsplit, mul_one]
      exact split_fst_ne_zero h hzero
    rw [hmonomial.canonical.scale_eq_ofTerm hmonomial.not_isSum hne, hsplit, mul_one,
      (h.split hsum).2]

theorem coefficients_normalize_neg (e : Expr) :
    (neg e).normalize.coefficients = -e.normalize.coefficients := by
  rw [normalize_neg, coefficients_scale _ (canonical_normalize e), neg_one_smul]

theorem coefficients_normalize_sub (a b : Expr) :
    (sub a b).normalize.coefficients = a.normalize.coefficients - b.normalize.coefficients := by
  rw [sub, coefficients_normalize_sum]
  simp [coefficients_normalize_neg, sub_eq_add_neg]

end Expr

end RationalAlgebra
