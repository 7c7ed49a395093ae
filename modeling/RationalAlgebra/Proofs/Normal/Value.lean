import Mathlib
import RationalAlgebra.Proofs.Expr.Value
import RationalAlgebra.Proofs.Normal.Hereditary

/-!
# The value of a normal form

Wherever an expression has a value, its normal form has the same value. Each rule of normalization
is first an equation between total values: merging like terms, multiplying out, and every way of
dividing. Two rules hold only where the parts are defined, cancelling variables and dividing across
a quotient, because there a factor is taken from a denominator; and nothing else is ever put into a
denominator than what stood in one before.

Main statement: `eval_normalize`.
-/

namespace RationalAlgebra

open RationalAlgebra.Expr

variable {v : Valuation}

/-! ## Being defined is hereditary -/

/-- To be flat and to have a value is hereditary. -/
theorem hereditary_defined (v : Valuation) :
    Hereditary (fun x => (v x).isSome) fun e => e.Flat ∧ e.Defined v where
  sum_iff := by
    simp only [Flat, flatAll_iff, defined_sum]
    grind
  product_iff := by
    simp only [Flat, flatAll_iff, defined_product]
    grind
  parts := by
    simp only [Flat, defined_fraction]
    grind
  shrink := by
    intro n xs ys h hsub
    simp only [Flat, FlatAll, defined_fraction, defined_product, value_product] at h ⊢
    refine ⟨h.1, h.2.1, ⟨fun x hx => h.2.2.1.1 x (hsub hx), by simp⟩, ?_⟩
    -- A factor of a product that is not zero is not zero.
    have hxs : (xs.map v.read).prod ≠ 0 := by simpa using h.2.2.2
    have hys : (ys.map v.read).prod ≠ 0 := by
      rw [Ne, List.prod_eq_zero_iff, List.mem_map] at hxs ⊢
      rintro ⟨x, hx, hzero⟩
      exact hxs ⟨x, hsub hx, hzero⟩
    simpa using hys

/-! ## Terms and sums -/

/-- The value of a monomial, also where it is a single factor. -/
theorem value_monomial (v : Valuation) (vs : List String) (fs : List Expr) :
    (monomial vs fs).value v = (vs.map v.read).prod * (fs.map (value v)).prod := by
  unfold monomial
  split
  · simp
  · simp

/-- A term has the value of its coefficient times its monomial. -/
theorem value_split (v : Valuation) (e : Expr) : e.split.1 * e.split.2.value v = e.value v := by
  cases e with
  | sum es => exact one_mul _
  | product c vs fs => rw [split, value_monomial, value_product, mul_assoc]
  | fraction n d => exact one_mul _

theorem value_ofTerm {m : Expr} (hm : m.Monic) (c : Rat) :
    (ofTerm c m).value v = c * m.value v := by
  unfold ofTerm
  split
  · rename_i k vs fs
    have hk : k = 1 := hm
    rw [hk, value_product, value_product]
    ring
  · split
    · rename_i hc
      rw [hc, one_mul]
    · simp

namespace Combination

/-- The sum of some terms. -/
def valueTerms (v : Valuation) (terms : List Term) : Rat :=
  (terms.map fun t => t.coefficient * t.monomial.expr.value v).sum

/-- The sum of the terms of a combination. -/
def value (v : Valuation) (a : Combination) : Rat :=
  valueTerms v a.terms

theorem value_empty (v : Valuation) : empty.value v = 0 :=
  rfl

theorem valueTerms_cons (v : Valuation) (t : Term) (terms : List Term) :
    valueTerms v (t :: terms) = t.coefficient * t.monomial.expr.value v + valueTerms v terms := by
  rw [valueTerms, List.map_cons, List.sum_cons, valueTerms]

/-- A term that is left out has the value zero. -/
theorem valueTerms_consTerm (v : Valuation) (m : Keyed) (c : Rat) (terms : List Term) :
    valueTerms v (consTerm m c terms) = c * m.expr.value v + valueTerms v terms := by
  unfold consTerm
  split
  · rename_i hc
    rw [hc, zero_mul, zero_add]
  · rw [valueTerms_cons]

/-- An insertion adds the value of what is inserted, also where two terms merge. -/
theorem valueTerms_insertTerm (v : Valuation) (m : Keyed) (c : Rat) (terms : List Term) :
    valueTerms v (insertTerm m c terms) = valueTerms v terms + c * m.expr.value v := by
  induction terms with
  | nil => rw [insertTerm, valueTerms_consTerm, add_comm]
  | cons t terms ih =>
    rw [insertTerm]
    split
    · rw [valueTerms_consTerm, add_comm]
    · -- The two terms have the same monomial, and their coefficients are added.
      rename_i heq
      rw [Keyed.cmp_eq_iff.1 heq, valueTerms_consTerm, valueTerms_cons]
      ring
    · rw [valueTerms_cons, ih, valueTerms_cons]
      ring

theorem value_insert (v : Valuation) (a : Combination) (m : Keyed) (c : Rat) :
    (a.insert m c).value v = a.value v + c * m.expr.value v :=
  valueTerms_insertTerm v m c a.terms

theorem value_addTerm (v : Valuation) (a : Combination) (e : Expr) :
    (a.addTerm e).value v = a.value v + e.value v := by
  rw [addTerm, value_insert, Keyed.expr_of, value_split]

/-- Adding things one after another adds up their values. -/
theorem value_foldl {α : Type} {f : Combination → α → Combination} {g : α → Rat} {xs : List α}
    (hf : ∀ a : Combination, ∀ x ∈ xs, (f a x).value v = a.value v + g x) (a : Combination) :
    (xs.foldl f a).value v = a.value v + (xs.map g).sum := by
  induction xs generalizing a with
  | nil => simp
  | cons x xs ih =>
    have hhead := hf a x List.mem_cons_self
    rw [List.foldl_cons, ih fun b y hy => hf b y (List.mem_cons_of_mem _ hy), hhead,
      List.map_cons, List.sum_cons, add_assoc]

/-- Adding an expression adds its value. -/
theorem value_addExpr (v : Valuation) (a : Combination) (e : Expr) :
    (a.addExpr e).value v = a.value v + e.value v := by
  unfold addExpr
  split
  · rename_i addends
    rw [value_foldl fun b t _ => value_addTerm v b t, value_sum]
  · exact value_addTerm v a e

theorem value_add (v : Valuation) (a b : Combination) :
    (a.add b).value v = a.value v + b.value v :=
  value_foldl (fun c t _ => value_insert v c t.monomial t.coefficient) a

theorem value_ofExprs (v : Valuation) (es : List Expr) :
    (ofExprs es).value v = (es.map (Expr.value v)).sum := by
  rw [ofExprs, value_foldl fun a e _ => value_addExpr v a e, value_empty, zero_add]

/-- A combination is written as an expression with its value. -/
theorem value_toExpr {a : Combination} (ha : a.All Monic) : a.toExpr.value v = a.value v := by
  have hterms : (a.terms.map Term.toExpr).map (Expr.value v) =
      a.terms.map fun t => t.coefficient * t.monomial.expr.value v := by
    rw [List.map_map]
    exact List.map_congr_left fun t ht => value_ofTerm (ha t ht) _
  rw [value, valueTerms, ← hterms]
  unfold toExpr
  split
  · -- No term, one term or a sum.
    rename_i heq
    rw [heq]
    exact value_zero v
  · rename_i e heq
    rw [heq]
    simp
  · rw [value_sum]

end Combination

/-! ## Products -/

namespace Factors

/-- The product of a coefficient, some variables and some quotients. -/
def value (v : Valuation) (p : Factors) : Rat :=
  p.coefficient * (p.names.map v.read).prod * (p.quotients.map (Expr.value v)).prod

theorem value_times (v : Valuation) (p : Factors) (e : Expr) :
    (p.times e).value v = p.value v * e.value v := by
  cases e with
  | sum es => simp [times, value, mul_assoc]
  | product c vs fs =>
    simp only [times, value, List.map_append, List.prod_append, value_product]
    ring
  | fraction n d => simp [times, value, mul_assoc]

/-- Where its quotients are defined, cancelling keeps a product: what is taken from a denominator
is not zero. -/
theorem value_cancelQuotients {vs : List String} {fs : List Expr} (hfs : ∀ f ∈ fs, f.Defined v) :
    ((cancelQuotients vs fs).1.map v.read).prod *
        ((cancelQuotients vs fs).2.map (Expr.value v)).prod =
      (vs.map v.read).prod * (fs.map (Expr.value v)).prod := by
  fun_induction cancelQuotients vs fs with
  | case1 vs => rfl
  | case2 vs fs n d names hnames left rest ih =>
    obtain ⟨hhead, htail⟩ := List.forall_mem_cons.1 hfs
    -- Both lists are what is left and what they have in common.
    obtain ⟨common, hvs, hd⟩ := exists_perm_cancel vs names
    have hvs' := (hvs.map v.read).prod_eq
    have hd' := (hd.map v.read).prod_eq
    rw [pureVariables?_eq_some hnames] at hhead ⊢
    rw [List.map_append, List.prod_append] at hvs' hd'
    -- The common part divides a denominator, so it is not zero.
    have hne := (defined_fraction.1 hhead).2.2
    simp only [value_product, List.map_nil, List.prod_nil, mul_one, one_mul, hd'] at hne
    have hcommon := right_ne_zero_of_mul hne
    have hleft := left_ne_zero_of_mul hne
    have ih' := ih htail
    simp only [List.map_cons, List.prod_cons, value_fraction, value_product, List.map_nil,
      List.prod_nil, mul_one, one_mul, hvs', hd']
    simp only [left, rest] at ih' hcommon hleft ⊢
    field_simp
    linear_combination (n.value v) * ih'
  | case3 vs fs n d _ rest ih =>
    have ih' := ih (List.forall_mem_cons.1 hfs).2
    simp only [List.map_cons, List.prod_cons, rest]
    linear_combination ((fraction n d).value v) * ih'
  | case4 vs f fs rest _ ih =>
    have ih' := ih (List.forall_mem_cons.1 hfs).2
    simp only [List.map_cons, List.prod_cons, rest]
    linear_combination (f.value v) * ih'

/-- Multiplying by a quotient multiplies the value, also where only its numerator joins. -/
theorem value_timesQuotient (v : Valuation) (p : Factors) (f : Expr) :
    (p.timesQuotient f).value v = p.value v * f.value v := by
  unfold timesQuotient
  split
  · split
    · rename_i hd
      rw [value_times, value_fraction, value_of_isOne hd, div_one]
    · rw [value_times]
  · rw [value_times]

theorem value_foldl_timesQuotient (v : Valuation) (p : Factors) (fs : List Expr) :
    (fs.foldl timesQuotient p).value v = p.value v * (fs.map (Expr.value v)).prod := by
  induction fs generalizing p with
  | nil => simp
  | cons f fs ih =>
    rw [List.foldl_cons, ih, value_timesQuotient, List.map_cons, List.prod_cons, mul_assoc]

/-- A round of cancelling keeps the value, where the quotients have values. -/
theorem value_cancelled {p : Factors} (hp : ∀ f ∈ p.quotients, f.Defined v) :
    p.cancelled.value v = p.value v := by
  rw [cancelled, value_foldl_timesQuotient, value, value, List.map_nil, List.prod_nil, mul_one,
    mul_assoc, value_cancelQuotients hp, mul_assoc]

theorem value_ordered (v : Valuation) (p : Factors) : p.ordered.value v = p.value v := by
  have hnames := ((List.mergeSort_perm p.names fun x y => decide (x ≤ y)).map v.read).prod_eq
  have hquotients := ((Expr.sortList_perm p.quotients).map (Expr.value v)).prod_eq
  simp only [value, ordered, hnames, hquotients]

theorem value_reduce {p : Factors}
    (hp : p.All (fun x => (v x).isSome) fun e => e.Flat ∧ e.Defined v) :
    p.reduce.value v = p.value v := by
  fun_induction reduce p with
  | case1 p _ ih =>
    rw [ih ((hereditary_defined v).cancelled hp), value_cancelled fun f hf => (hp.2 f hf).1.2]
  | case2 p _ => exact value_ordered v p

/-- The product of some sums. -/
def valueSums (v : Valuation) (sums : List (List Expr)) : Rat :=
  (sums.map fun addends => (addends.map (Expr.value v)).sum).prod

/-- A product multiplied out has the product of the values. -/
theorem value_expand {p : Factors}
    (hp : p.All (fun x => (v x).isSome) fun e => e.Flat ∧ e.Defined v) {sums : List (List Expr)}
    (hsums : ∀ addends ∈ sums, ∀ e ∈ addends, e.Flat ∧ e.Defined v) :
    (p.expand sums).value v = p.value v * valueSums v sums := by
  induction sums generalizing p with
  | nil =>
    have hreduce := value_reduce hp
    rw [value] at hreduce
    simp only [expand, Combination.value_insert, Combination.value_empty, Keyed.expr_of,
      value_monomial, valueSums, List.map_nil, List.prod_nil, mul_one, zero_add]
    rw [← mul_assoc, hreduce]
  | cons addends sums ih =>
    obtain ⟨hhead, htail⟩ := List.forall_mem_cons.1 hsums
    -- An addend brings in its product with everything that is still to be multiplied.
    have hstep : ∀ a : Combination, ∀ e ∈ addends,
        (a.add (expand (p.times e) sums)).value v =
          a.value v + p.value v * valueSums v sums * e.value v := by
      intro a e he
      rw [Combination.value_add, ih ((hereditary_defined v).times hp (hhead e he)) htail,
        value_times]
      ring
    rw [expand, Combination.value_foldl hstep, Combination.value_empty, List.sum_map_mul_left]
    simp only [valueSums, List.map_cons, List.prod_cons]
    ring

theorem value_gather (v : Valuation) (p : Factors) (es : List Expr) :
    (gather p es).1.value v * valueSums v (gather p es).2 =
      p.value v * (es.map (Expr.value v)).prod := by
  fun_induction gather p es with
  | case1 p => simp [valueSums]
  | case2 p addends es rest ih =>
    simp only [valueSums, List.map_cons, List.prod_cons, value_sum, rest] at ih ⊢
    linear_combination (addends.map (Expr.value v)).sum * ih
  | case3 p e es _ ih => rw [ih, value_times, List.map_cons, List.prod_cons, mul_assoc]

end Factors

namespace Expr

/-- A product of normal forms that have values has one. -/
theorem defined_multiply {c : Rat} {vs : List String} {es : List Expr}
    (hvs : ∀ x ∈ vs, (v x).isSome) (hes : ∀ e ∈ es, e.Flat ∧ e.Defined v) :
    (multiply c vs es).Flat ∧ (multiply c vs es).Defined v :=
  (hereditary_defined v).multiply hvs hes

/-- The value of a product of normal forms. -/
theorem value_multiply {c : Rat} {vs : List String} {es : List Expr}
    (hvs : ∀ x ∈ vs, (v x).isSome) (hes : ∀ e ∈ es, e.Flat ∧ e.Defined v) :
    (multiply c vs es).value v = c * (vs.map v.read).prod * (es.map (value v)).prod := by
  have hgather := Factors.value_gather v ⟨c, vs, []⟩ es
  have hparts := (hereditary_defined v).gather (p := ⟨c, vs, []⟩) ⟨hvs, by simp⟩ hes
  have hstart : Factors.value v ⟨c, vs, []⟩ = c * (vs.map v.read).prod := by
    simp [Factors.value]
  rw [← hstart, ← hgather]
  unfold multiply
  simp only
  split
  · -- The product is cut short at zero, which is its value.
    rename_i hzero
    rw [value_zero, Factors.value, hzero, zero_mul, zero_mul, zero_mul]
  · rw [Combination.value_toExpr, Factors.value_expand hparts.1 hparts.2]
    exact fun t ht => ((hereditary_defined v).expand hparts.1 hparts.2 t ht).2

/-- Adding up expressions adds their values. -/
theorem value_addUp {es : List Expr} (hes : ∀ e ∈ es, e.Flat ∧ e.Defined v) :
    (Combination.ofExprs es).toExpr.value v = (es.map (value v)).sum := by
  have hof := (hereditary_defined v).ofExprs hes
  rw [Combination.value_toExpr fun t ht => (hof t ht).2, Combination.value_ofExprs]

/-- The product of two normal forms. -/
theorem value_multiply_pair {a b : Expr} (ha : a.Flat ∧ a.Defined v) (hb : b.Flat ∧ b.Defined v) :
    ((multiply 1 [] [a, b]).Flat ∧ (multiply 1 [] [a, b]).Defined v) ∧
      (multiply 1 [] [a, b]).value v = a.value v * b.value v := by
  have hes : ∀ e ∈ [a, b], e.Flat ∧ e.Defined v := by
    simpa using ⟨ha, hb⟩
  constructor
  · exact defined_multiply (by simp) hes
  · rw [value_multiply (by simp) hes]
    simp

theorem value_scale {e : Expr} (he : e.Flat ∧ e.Defined v) (k : Rat) :
    (scale k e).value v = k * e.value v := by
  rw [scale, value_multiply (by simp) (by simpa using he)]
  simp

/-! ## Quotients -/

/-- Where a quotient is defined, cancelling the common variables of its parts keeps it. -/
theorem value_cancelCommon {n d n' d' : Expr} (h : cancelCommon? n d = some (n', d'))
    (hn : n.Flat) (hd : d.value v ≠ 0) :
    d'.value v ≠ 0 ∧ n'.value v / d'.value v = n.value v / d.value v := by
  unfold cancelCommon? at h
  split at h
  · rename_i c vs fs
    split at h
    · cases h
    · rename_i names hnames
      simp only at h
      split at h
      · -- As before, what the two lists have in common is not zero.
        obtain ⟨common, hvs, hd'⟩ := Factors.exists_perm_cancel vs names
        have hvs' := (hvs.map v.read).prod_eq
        have hd'' := (hd'.map v.read).prod_eq
        rw [List.map_append, List.prod_append] at hvs' hd''
        rw [Factors.pureVariables?_eq_some hnames] at hd ⊢
        simp only [value_product, List.map_nil, List.prod_nil, mul_one, one_mul, hd''] at hd
        have hcommon := right_ne_zero_of_mul hd
        have hleft := left_ne_zero_of_mul hd
        cases h
        rw [value_ofTerm (monic_monomial hn.1), value_monomial]
        simp only [value_product, List.map_nil, List.prod_nil, mul_one, one_mul, hvs', hd'']
        -- The common part is taken from numerator and denominator alike.
        refine ⟨hleft, ?_⟩
        field_simp
      · cases h
  · cases h

/-- An expression that is defined and has the value of the quotient of two others. -/
def IsQuotient (v : Valuation) (n d r : Expr) : Prop :=
  (r.Flat ∧ r.Defined v) ∧ r.value v = n.value v / d.value v

section Rules

variable {n d : Expr}

/-! ### One lemma for each rule -/

/-- A quotient that is left as it is. -/
theorem isQuotient_fraction (hn : n.Flat ∧ n.Defined v) (hd : d.Flat ∧ d.Defined v)
    (hne : d.value v ≠ 0) : IsQuotient v n d (fraction n d) :=
  ⟨⟨⟨hn.1, hd.1⟩, defined_fraction.2 ⟨hn.2, hd.2, hne⟩⟩, value_fraction v n d⟩

/-- A constant denominator becomes a coefficient. -/
theorem isQuotient_constant {k : Rat} (hn : n.Flat ∧ n.Defined v)
    (hconst : d.asConstant? = some k) : IsQuotient v n d (scale k⁻¹ n) := by
  refine ⟨(hereditary_defined v).scale hn _, ?_⟩
  rw [value_scale hn, eq_const_of_asConstant? hconst, value_const, div_eq_inv_mul]

/-- A sum is divided addend by addend, and the quotients are added up. -/
theorem isQuotient_sum {addends : List Expr} (h : ∀ e ∈ addends, IsQuotient v e d (divide e d)) :
    IsQuotient v (sum addends) d
      (Combination.ofExprs (addends.map fun e => divide e d)).toExpr := by
  have hall : ∀ e ∈ addends.map fun e => divide e d, e.Flat ∧ e.Defined v :=
    List.forall_mem_map.2 fun e he => (h e he).1
  have hvalues : (addends.map fun e => divide e d).map (value v) =
      addends.map fun e => e.value v * (d.value v)⁻¹ := by
    rw [List.map_map]
    exact List.map_congr_left fun e he => (h e he).2
  refine ⟨(hereditary_defined v).addUp hall, ?_⟩
  rw [value_addUp hall, value_sum, hvalues, List.sum_map_mul_right, div_eq_mul_inv]

/-- The denominator of a quotient that is divided joins the divisor. -/
theorem isQuotient_fraction_left {a b r : Expr} (hb : b.Flat ∧ b.Defined v)
    (hd : d.Flat ∧ d.Defined v) (h : IsQuotient v a (multiply 1 [] [b, d]) r) :
    IsQuotient v (fraction a b) d r := by
  refine ⟨h.1, ?_⟩
  rw [h.2, (value_multiply_pair hb hd).2, value_fraction, div_div]

/-- The denominator of a quotient that divides joins what is divided. -/
theorem isQuotient_fraction_right {a b r : Expr} (hn : n.Flat ∧ n.Defined v)
    (hb : b.Flat ∧ b.Defined v) (h : IsQuotient v (multiply 1 [] [n, b]) a r) :
    IsQuotient v n (fraction a b) r := by
  refine ⟨h.1, ?_⟩
  rw [h.2, (value_multiply_pair hn hb).2, value_fraction, div_div_eq_mul_div]

/-- Coefficients are taken out in front. -/
theorem isQuotient_split {r : Expr} (h : IsQuotient v n.split.2 d.split.2 r) :
    IsQuotient v n d (scale (n.split.1 / d.split.1) r) := by
  refine ⟨(hereditary_defined v).scale h.1 _, ?_⟩
  rw [value_scale h.1, h.2, ← value_split v n, ← value_split v d]
  exact div_mul_div_comm _ _ _ _

end Rules

/-- The quotient of two normal forms is defined where they are and the divisor is not zero, and it
has the value of the quotient. -/
theorem value_divide {n d : Expr} (hn : n.Flat ∧ n.Defined v) (hd : d.Flat ∧ d.Defined v)
    (hne : d.value v ≠ 0) : IsQuotient v n d (divide n d) := by
  have h := hereditary_defined v
  -- One lemma for each rule. That the divisor is not zero is what lets each rule keep the value.
  fun_induction divide n d with
  | case1 n d hzero =>
    refine ⟨h.zero, ?_⟩
    rw [value_zero, value_of_isZero hzero, zero_div]
  | case2 n d _ hconst =>
    -- A divisor that is the constant zero has the value zero.
    rw [eq_const_of_asConstant? hconst, value_const] at hne
    exact absurd rfl hne
  | case3 n d _ k hconst hk => exact isQuotient_constant hn hconst
  | case4 addends d _ _ ih =>
    have hparts := h.sum_iff.1 hn
    rw [List.attach_map_val (f := fun e => divide e d)]
    exact isQuotient_sum fun e he => ih ⟨e, he⟩ (hparts e he) hd hne
  | case5 a b d _ _ ih =>
    obtain ⟨ha, hb⟩ := h.parts hn
    obtain ⟨hdefined, hproduct⟩ := value_multiply_pair hb hd
    have hbne : b.value v ≠ 0 := (defined_fraction.1 hn.2).2.2
    exact isQuotient_fraction_left hb hd (ih ha hdefined (hproduct ▸ mul_ne_zero hbne hne))
  | case6 n a b _ _ _ _ ih =>
    obtain ⟨ha, hb⟩ := h.parts hd
    rw [value_fraction] at hne
    have hane : a.value v ≠ 0 := (div_ne_zero_iff.1 hne).1
    exact isQuotient_fraction_right hn hb (ih (value_multiply_pair hn hb).1 ha hane)
  | case7 n d _ _ _ p hp _ _ ih =>
    -- Common variables cancel.
    obtain ⟨hn', hd'⟩ := h.cancelCommon hp hn hd
    obtain ⟨hne', hvalue⟩ := value_cancelCommon hp hn.1 hne
    obtain ⟨hdefined, hquotient⟩ := ih hn' hd' hne'
    exact ⟨hdefined, hquotient.trans hvalue⟩
  | case8 n d _ _ _ _ _ _ _ => exact isQuotient_fraction hn hd hne
  | case9 n d _ _ _ _ _ hzero _ _ =>
    -- A divisor with coefficient zero has the value zero.
    rw [← value_split v d, hzero, zero_mul] at hne
    exact absurd rfl hne
  | case10 n d _ _ _ _ _ hk _ _ ih =>
    rw [← value_split v d] at hne
    exact isQuotient_split (ih (h.split hn).1 (h.split hd).1 (right_ne_zero_of_mul hne))

/-! ## Normal forms -/

/-- A normal form is defined where the expression is, with the same value. -/
theorem defined_normalize {e : Expr} (h : e.Defined v) :
    (e.normalize.Flat ∧ e.normalize.Defined v) ∧ e.normalize.value v = e.value v := by
  induction e using tree_induction with
  | sum es ih =>
    have hes := defined_sum.1 h
    have hall : ∀ e ∈ es.map normalize, e.Flat ∧ e.Defined v := by
      simpa using fun e he => (ih e he (hes e he)).1
    have hvalues : (es.map normalize).map (value v) = es.map (value v) := by
      simpa using fun e he => (ih e he (hes e he)).2
    rw [normalize, normalizeList_eq]
    refine ⟨(hereditary_defined v).addUp hall, ?_⟩
    rw [value_addUp hall, hvalues, value_sum]
  | product c vs fs ih =>
    obtain ⟨hvs, hfs⟩ := defined_product.1 h
    have hall : ∀ f ∈ fs.map normalize, f.Flat ∧ f.Defined v := by
      simpa using fun f hf => (ih f hf (hfs f hf)).1
    have hvalues : (fs.map normalize).map (value v) = fs.map (value v) := by
      simpa using fun f hf => (ih f hf (hfs f hf)).2
    rw [normalize, normalizeList_eq]
    split
    · -- A product with constant zero is zero, and so is its value.
      rename_i hc
      refine ⟨(hereditary_defined v).zero, ?_⟩
      rw [value_zero, value_product, hc, zero_mul, zero_mul]
    · refine ⟨defined_multiply hvs hall, ?_⟩
      rw [value_multiply hvs hall, hvalues, value_product]
  | fraction n d ihn ihd =>
    obtain ⟨hn, hd, hne⟩ := defined_fraction.1 h
    obtain ⟨hn', hnvalue⟩ := ihn hn
    obtain ⟨hd', hdvalue⟩ := ihd hd
    rw [normalize, value_fraction, ← hnvalue, ← hdvalue]
    exact value_divide hn' hd' (hdvalue ▸ hne)

/-- Normalization keeps the value of every expression that has one. -/
theorem eval_normalize {e : Expr} {q : Rat} (h : e.eval v = .ok q) :
    e.normalize.eval v = .ok q := by
  obtain ⟨hdefined, hvalue⟩ := eval_eq_ok_iff.1 h
  obtain ⟨⟨_, hnormal⟩, heq⟩ := defined_normalize hdefined
  exact eval_eq_ok_iff.2 ⟨hnormal, heq.trans hvalue⟩

/-- A product with a quotient, divided by a quotient: a variable is cancelled, a sum is divided
addend by addend, and the divisor is inverted. -/
theorem eval_normalize_compound :
    eval (NameMap.ofList [("x", 2), ("y", 3)]).get?
        (fraction
          (product 1 ["x"] [fraction (sum [var "x", var "y"]) (product 2 ["x", "y"] [])])
          (fraction one (sum [var "y", const (-1)]))) = .ok (5 / 3) ∧
      eval (NameMap.ofList [("x", 2), ("y", 3)]).get?
        (normalize (fraction
          (product 1 ["x"] [fraction (sum [var "x", var "y"]) (product 2 ["x", "y"] [])])
          (fraction one (sum [var "y", const (-1)])))) = .ok (5 / 3) := by
  have h : eval (NameMap.ofList [("x", 2), ("y", 3)]).get?
      (fraction
        (product 1 ["x"] [fraction (sum [var "x", var "y"]) (product 2 ["x", "y"] [])])
        (fraction one (sum [var "y", const (-1)]))) = .ok (5 / 3) := by cbv
  exact ⟨h, eval_normalize h⟩

end Expr

end RationalAlgebra
