import Mathlib
import RationalAlgebra.Equation.Isolation
import RationalAlgebra.Proofs.Normal.Coefficients

/-!
# Multiplying out

A product of normal forms has the coefficients of all the products that take one addend from each of
its factors. `Factors.expand` does this for the factors that are sums, after the others have been
gathered; the same comes out when a factor that is no sum counts as a sum of one addend
(`coefficients_multiply`). So what is true of a product of terms, one from each factor, can be
carried over to the product of the factors.

The coefficient of a product is multiplied out with it: to multiply the coefficient, or any factor,
by a rational is to multiply the result.
-/

namespace RationalAlgebra

open RationalAlgebra.Expr

/-! ## Addends -/

namespace Expr

theorem addends_of_not_isSum {e : Expr} (h : ¬ e.IsSum) : e.addends = [e] := by
  cases e with
  | sum es => exact absurd trivial h
  | product c vs fs => rfl
  | fraction n d => rfl

/-- The addends of a canonical expression, one of which it may be, are canonical terms. -/
theorem Canonical.forall_addends {e : Expr} (h : e.Canonical) :
    ∀ t ∈ e.addends, t.Canonical ∧ ¬ t.IsSum := by
  cases e with
  | sum es => exact fun t ht => ⟨(h.addends t ht).1, (h.addends t ht).2.1⟩
  | product c vs fs => exact List.forall_mem_singleton.2 ⟨h, id⟩
  | fraction n d => exact List.forall_mem_singleton.2 ⟨h, id⟩

/-- The coefficients of the addends add up to those of the normal form. -/
theorem Canonical.sum_coefficients_addends {e : Expr} (h : e.Canonical) :
    (e.addends.map coefficients).sum = e.coefficients := by
  cases e with
  | sum es => exact (coefficients_sum fun t ht => (h.addends t ht).2.1).symm
  | product c vs fs => simp [Expr.addends]
  | fraction n d => simp [Expr.addends]

end Expr

namespace Factors

/-! ## One addend after the other -/

/-- The coefficients of the single term that a product without sums is reduced to. -/
theorem coefficients_expand_nil (p : Factors) :
    (p.expand []).coefficients =
      Pi.single (.of (monomial p.reduce.names p.reduce.quotients)) p.reduce.coefficient := by
  rw [expand, Combination.coefficients_insert, Combination.coefficients_empty, zero_add]

/-- Multiplying out a sum first adds up one product for each of its addends. -/
theorem coefficients_expand_cons (p : Factors) (addends : List Expr) (sums : List (List Expr)) :
    (p.expand (addends :: sums)).coefficients =
      (addends.map fun e => ((p.times e).expand sums).coefficients).sum := by
  rw [expand, Combination.coefficients_foldl (g := fun e => ((p.times e).expand sums).coefficients),
    Combination.coefficients_empty, zero_add]
  exact fun a e _ => Combination.coefficients_add a _

/-- A sum with one addend is a factor. -/
theorem coefficients_expand_singleton (p : Factors) (e : Expr) (sums : List (List Expr)) :
    (p.expand ([e] :: sums)).coefficients = ((p.times e).expand sums).coefficients := by
  rw [coefficients_expand_cons, List.map_singleton, List.sum_singleton]

/-! ## All factors as sums -/

/-- The factors that are no sums, each as a sum of its own. -/
def singles : List Expr → List (List Expr)
  | [] => []
  | .sum _ :: es => singles es
  | e :: es => [e] :: singles es

/-- The addends of the factors that are sums. -/
def distributed : List Expr → List (List Expr)
  | [] => []
  | .sum addends :: es => addends :: distributed es
  | _ :: es => distributed es

/-- A term counts as a sum of one addend among the factors. -/
theorem singles_cons_of_not_isSum {e : Expr} (h : ¬ e.IsSum) (es : List Expr) :
    singles (e :: es) = [e] :: singles es := by
  cases e with
  | sum as => exact absurd trivial h
  | product c vs fs => rfl
  | fraction n d => rfl

theorem distributed_cons_of_not_isSum {e : Expr} (h : ¬ e.IsSum) (es : List Expr) :
    distributed (e :: es) = distributed es := by
  cases e with
  | sum as => exact absurd trivial h
  | product c vs fs => rfl
  | fraction n d => rfl

theorem singles_append (es fs : List Expr) : singles (es ++ fs) = singles es ++ singles fs := by
  induction es with
  | nil => rfl
  | cons e es ih =>
    cases e with
    | sum as => exact ih
    | product c vs gs => exact congrArg ([product c vs gs] :: ·) ih
    | fraction n d => exact congrArg ([fraction n d] :: ·) ih

theorem distributed_append (es fs : List Expr) :
    distributed (es ++ fs) = distributed es ++ distributed fs := by
  induction es with
  | nil => rfl
  | cons e es ih =>
    cases e with
    | sum as => exact congrArg (as :: ·) ih
    | product c vs gs => exact ih
    | fraction n d => exact ih

/-- The sums that are set aside are the sums among the factors, in their order. -/
theorem gather_snd (p : Factors) (es : List Expr) : (gather p es).2 = distributed es := by
  induction es generalizing p with
  | nil => rfl
  | cons e es ih =>
    cases e with
    | sum as => exact congrArg (as :: ·) (ih p)
    | product c vs fs => exact ih _
    | fraction n d => exact ih _

/-- The factors that are gathered first may as well be multiplied out first. -/
theorem coefficients_expand_gather (p : Factors) (es : List Expr) (sums : List (List Expr)) :
    ((gather p es).1.expand sums).coefficients =
      (p.expand (singles es ++ sums)).coefficients := by
  induction es generalizing p with
  | nil => rfl
  | cons e es ih =>
    cases e with
    | sum as => exact ih p
    | product c vs fs => exact (ih _).trans (coefficients_expand_singleton p _ _).symm
    | fraction n d => exact (ih _).trans (coefficients_expand_singleton p _ _).symm

/-- The factors in another order, each as a sum. -/
theorem singles_append_distributed (es : List Expr) :
    (singles es ++ distributed es).Perm (es.map addends) := by
  induction es with
  | nil => rfl
  | cons e es ih =>
    cases e with
    | sum as => exact List.perm_middle.trans (ih.cons as)
    | product c vs fs => exact ih.cons [product c vs fs]
    | fraction n d => exact ih.cons [fraction n d]

/-! ## Products without a coefficient -/

/-- What an expression adds to a product does not depend on the product. -/
theorem exists_times (e : Expr) : ∃ c vs fs, ∀ p : Factors,
    p.times e = ⟨p.coefficient * c, p.names ++ vs, p.quotients ++ fs⟩ := by
  cases e with
  | sum es => exact ⟨1, [], [sum es], fun p => by simp [times]⟩
  | product c vs fs => exact ⟨c, vs, fs, fun p => rfl⟩
  | fraction n d => exact ⟨1, [], [fraction n d], fun p => by simp [times]⟩

/-- A quotient joins a product as the same expression, whatever the product is. -/
theorem exists_timesQuotient (f : Expr) : ∃ e, ∀ p : Factors, p.timesQuotient f = p.times e := by
  cases f with
  | sum es => exact ⟨sum es, fun p => rfl⟩
  | product c vs fs => exact ⟨product c vs fs, fun p => rfl⟩
  | fraction n d =>
    by_cases hd : d.isOne = true
    · exact ⟨n, fun p => by rw [timesQuotient, if_pos hd]⟩
    · exact ⟨fraction n d, fun p => by rw [timesQuotient, if_neg hd]⟩

/-! ## Multiples of a product -/

/-- A product with a multiple of its coefficient. -/
def rescaled (k : Rat) (p : Factors) : Factors :=
  ⟨k * p.coefficient, p.names, p.quotients⟩

/-- A constant in front commutes with a further factor. -/
theorem times_rescaled (k : Rat) (p : Factors) (e : Expr) :
    (p.rescaled k).times e = (p.times e).rescaled k := by
  obtain ⟨c, vs, fs, he⟩ := exists_times e
  rw [he, he, rescaled, rescaled, mul_assoc]

theorem foldl_rescaled (k : Rat) (p : Factors) (fs : List Expr) :
    fs.foldl timesQuotient (p.rescaled k) = (fs.foldl timesQuotient p).rescaled k := by
  induction fs generalizing p with
  | nil => rfl
  | cons f fs ih =>
    obtain ⟨e, he⟩ := exists_timesQuotient f
    rw [List.foldl_cons, List.foldl_cons, he, he, times_rescaled, ih]

/-- A constant in front does not change what cancels. -/
theorem reduce_rescaled (k : Rat) (p : Factors) : (p.rescaled k).reduce = p.reduce.rescaled k := by
  fun_induction reduce p with
  | case1 p hp ih =>
    -- Whether and what a round cancels depends on variables and quotients only.
    have hcancelled : (p.rescaled k).cancelled = p.cancelled.rescaled k := by
      rw [cancelled, cancelled, ← foldl_rescaled]
      rfl
    have hcancels : (p.rescaled k).cancels = true := hp
    rw [reduce, dif_pos hcancels, hcancelled, ih]
  | case2 p hp =>
    have hcancels : ¬ (p.rescaled k).cancels = true := hp
    rw [reduce, dif_neg hcancels]
    rfl

/-- A multiple of a product is multiplied out to the multiple. -/
theorem coefficients_expand_rescaled (k : Rat) (p : Factors) (sums : List (List Expr)) :
    ((p.rescaled k).expand sums).coefficients = k • (p.expand sums).coefficients := by
  induction sums generalizing p with
  | nil =>
    rw [coefficients_expand_nil, coefficients_expand_nil, reduce_rescaled, ← Pi.single_smul]
    rfl
  | cons addends sums ih =>
    simp only [coefficients_expand_cons, times_rescaled, ih, List.smul_sum, List.map_map]
    rfl

/-- With coefficient zero nothing is left of a product. -/
theorem coefficients_expand_eq_zero {p : Factors} (hzero : p.coefficient = 0)
    (sums : List (List Expr)) : (p.expand sums).coefficients = 0 := by
  have hp : p.rescaled 0 = p := by rw [rescaled, zero_mul, ← hzero]
  rw [← hp, coefficients_expand_rescaled, zero_smul]

/-- So is a product with a multiple of a term. -/
theorem times_scale {k : Rat} (hk : k ≠ 0) (p : Factors) {e : Expr} (h : e.Canonical)
    (hsum : ¬ e.IsSum) : p.times (scale k e) = (p.times e).rescaled k := by
  obtain ⟨vs, fs, hsplit, horder⟩ := h.exists_split hsum
  by_cases hzero : e = zero
  · rw [hzero, scale_zero, rescaled, Expr.zero, const, times, mul_zero, mul_zero]
  · have hne : k * e.split.1 ≠ 0 := mul_ne_zero hk (split_fst_ne_zero h hzero)
    have htimes := times_ofTerm p e.split.1 vs horder.isFraction
    rw [← hsplit, (h.split hsum).2] at htimes
    rw [h.scale_eq_ofTerm hsum hne, hsplit, times_ofTerm p _ vs horder.isFraction, htimes, rescaled,
      mul_left_comm]

/-- A sum is multiplied addend by addend. -/
theorem coefficients_expand_map_scale {k : Rat} (hk : k ≠ 0) (p : Factors)
    {addends : List Expr} (haddends : ∀ e ∈ addends, e.Canonical ∧ ¬ e.IsSum)
    (sums sums' : List (List Expr)) :
    (p.expand (sums ++ addends.map (scale k) :: sums')).coefficients =
      k • (p.expand (sums ++ addends :: sums')).coefficients := by
  induction sums generalizing p with
  | nil =>
    rw [List.nil_append, List.nil_append, coefficients_expand_cons, coefficients_expand_cons,
      List.smul_sum, List.map_map, List.map_map]
    congr 1
    apply List.map_congr_left
    intro e he
    -- Each addend brings the constant to the front of its own product.
    obtain ⟨hcanonical, hsum⟩ := haddends e he
    simp only [Function.comp_apply, times_scale hk p hcanonical hsum, coefficients_expand_rescaled]
  -- The sums before the one that is scaled are distributed first, and leave the constant alone.
  | cons as sums ih =>
    simp only [List.cons_append, coefficients_expand_cons, ih, List.smul_sum, List.map_map]
    rfl

end Factors

namespace Expr

/-- The coefficients of a product of normal forms are those of its factors multiplied out. -/
theorem coefficients_multiply (c : Rat) (vs : List String) {es : List Expr}
    (hes : ∀ e ∈ es, e.Canonical) :
    (multiply c vs es).coefficients =
      (Factors.expand ⟨c, vs, []⟩ (Factors.singles es ++ Factors.distributed es)).coefficients := by
  have hempty : Factors.CanonicalQuotients ⟨c, vs, []⟩ := by simp [Factors.CanonicalQuotients]
  obtain ⟨hquotients, hsums⟩ := Factors.canonical_gather hempty hes
  rw [← Factors.gather_snd ⟨c, vs, []⟩, ← Factors.coefficients_expand_gather, multiply]
  split
  · rename_i hzero
    rw [Factors.coefficients_expand_eq_zero hzero, coefficients_zero]
  · exact coefficients_toExpr (Factors.isMonomial_expand hquotients hsums)

/-- A multiple of a sum has the multiples of its addends. -/
theorem scale_sum {k : Rat} (hk : k ≠ 0) {es : List Expr} (h : (sum es).Canonical) :
    scale k (sum es) = sum (es.map (scale k)) := by
  have hsplit : ∀ e ∈ es, ¬ (scale k e).IsSum ∧ (scale k e).split = (k * e.split.1, e.split.2) := by
    intro e he
    obtain ⟨hcanonical, hsum, hne⟩ := h.addends e he
    exact hcanonical.split_scale hsum (mul_ne_zero hk hne)
  obtain ⟨hlength, _, hbefore⟩ := h.shape
  -- The multiples stand in the same order, since a multiple keeps the monomial.
  have hcanonical : (sum (es.map (scale k))).Canonical := by
    refine canonical_sum.2 ⟨⟨?_, ?_, ?_⟩, ?_⟩
    · rwa [List.length_map]
    · rw [List.forall_mem_map]
      intro e he
      rw [(hsplit e he).2]
      exact ⟨(hsplit e he).1, mul_ne_zero hk (h.addends e he).2.2⟩
    · rw [List.pairwise_map]
      apply hbefore.imp_of_mem
      intro e e' he he' hlt
      rwa [Before, (hsplit e he).2, (hsplit e' he').2]
    · rw [List.forall_mem_map]
      exact fun e he => canonical_scale k (h.addends e he).1
  apply (canonical_scale k h).ext_coefficients hcanonical
  rw [coefficients_scale k h, coefficients_sum fun e he => (h.addends e he).2.1,
    coefficients_sum fun e he => ((hcanonical.addends e he).2.1), List.smul_sum, List.map_map,
    List.map_map]
  congr 1
  apply List.map_congr_left
  intro e he
  exact (coefficients_scale k (h.addends e he).1).symm

/-- A nonzero multiple is a sum exactly if the expression is. -/
theorem isSum_scale_iff {k : Rat} (hk : k ≠ 0) {e : Expr} (h : e.Canonical) :
    (scale k e).IsSum ↔ e.IsSum := by
  constructor
  · intro hsum
    by_contra hterm
    exact not_isSum_scale k h hterm hsum
  · intro hsum
    obtain ⟨es, rfl⟩ := hsum.exists_eq
    rw [scale_sum hk h]
    trivial

/-- The addends of a nonzero multiple are the multiples of the addends. -/
theorem addends_scale {k : Rat} (hk : k ≠ 0) {e : Expr} (h : e.Canonical) :
    (scale k e).addends = e.addends.map (scale k) := by
  by_cases hsum : e.IsSum
  · obtain ⟨es, rfl⟩ := hsum.exists_eq
    rw [scale_sum hk h, Expr.addends, Expr.addends]
  · rw [addends_of_not_isSum (not_isSum_scale k h hsum), addends_of_not_isSum hsum,
      List.map_singleton]

/-- To multiply one factor is to multiply the product. -/
theorem multiply_scale {k : Rat} (hk : k ≠ 0) (c : Rat) (vs : List String) (es fs : List Expr)
    {e : Expr} (hes : ∀ a ∈ es ++ e :: fs, a.Canonical) :
    multiply c vs (es ++ scale k e :: fs) = scale k (multiply c vs (es ++ e :: fs)) := by
  have he : e.Canonical := hes e (by simp)
  have hscaled : ∀ a ∈ es ++ scale k e :: fs, a.Canonical := by
    intro a ha
    rcases List.mem_append.1 ha with ha | ha
    · exact hes a (List.mem_append_left _ ha)
    · rcases List.mem_cons.1 ha with rfl | ha
      · exact canonical_scale k he
      · exact hes a (by simp [ha])
  have hproduct := canonical_multiply c vs hes
  apply (canonical_multiply c vs hscaled).ext_coefficients (canonical_scale k hproduct)
  have hexpand := fun sums sums' => Factors.coefficients_expand_map_scale hk ⟨c, vs, []⟩
    he.forall_addends sums sums'
  rw [coefficients_scale k hproduct, coefficients_multiply c vs hscaled,
    coefficients_multiply c vs hes]
  simp only [Factors.singles_append, Factors.distributed_append]
  by_cases hsum : e.IsSum
  · -- A sum is distributed over, and its addends carry the constant.
    obtain ⟨as, rfl⟩ := hsum.exists_eq
    rw [scale_sum hk he]
    simp only [Factors.singles, Factors.distributed, ← List.append_assoc]
    exact hexpand _ _
  · -- A term is treated as a sum of one addend, so that the same lemma serves.
    have haddends := addends_scale hk he
    rw [addends_of_not_isSum hsum, List.map_singleton] at haddends hexpand
    have hscale := not_isSum_scale k he hsum
    rw [Factors.singles_cons_of_not_isSum hscale, Factors.singles_cons_of_not_isSum hsum,
      Factors.distributed_cons_of_not_isSum hscale, Factors.distributed_cons_of_not_isSum hsum]
    simp only [List.append_assoc, List.cons_append]
    exact hexpand _ _

/-- A product with the factor zero is zero. -/
theorem multiply_eq_zero (c : Rat) (vs : List String) {es : List Expr}
    (hes : ∀ e ∈ es, e.Canonical) (h : zero ∈ es) : multiply c vs es = zero := by
  obtain ⟨as, bs, rfl⟩ := List.append_of_mem h
  -- As zero is twice itself, so is the product.
  have htwice := congrArg coefficients (multiply_scale two_ne_zero c vs as bs hes)
  rw [scale_zero, coefficients_scale 2 (canonical_multiply c vs hes), two_smul,
    left_eq_add] at htwice
  apply (canonical_multiply c vs hes).ext_coefficients (canonical_const 0)
  rw [htwice]
  exact coefficients_zero.symm

end Expr

end RationalAlgebra
