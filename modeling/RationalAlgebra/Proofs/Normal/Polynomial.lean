import Mathlib
import RationalAlgebra.Proofs.Normal.Value

/-!
# The normal form of a polynomial

An expression is a polynomial if every denominator in it is free of variables and has a value other
than zero. Its normal form is a combination of power products, which are products of variables in
order. Each rule of normalization takes such combinations to such combinations: nothing can cancel,
and a denominator becomes a constant before it divides.

Main statement: `isExpanded_normalize`.
-/

namespace RationalAlgebra

open RationalAlgebra.Expr

variable {v : Valuation}

namespace Expr

/-! ## Polynomials -/

mutual

/-- Every denominator is free of variables and has a value other than zero. -/
def IsPolynomial : Expr → Prop
  | sum addends => AllPolynomial addends
  | product _ _ fs => AllPolynomial fs
  | fraction n d =>
    n.IsPolynomial ∧ d.IsPolynomial ∧ d.occurrences = [] ∧ ∃ q, d.evalClosed = .ok q ∧ q ≠ 0

/-- Some polynomials. -/
def AllPolynomial : List Expr → Prop
  | [] => True
  | e :: es => e.IsPolynomial ∧ AllPolynomial es

end

/-- Some expressions are polynomial together if each is. -/
theorem allPolynomial_iff {es : List Expr} : AllPolynomial es ↔ ∀ e ∈ es, e.IsPolynomial := by
  induction es with
  | nil => simp [AllPolynomial]
  | cons e es ih => simp [AllPolynomial, ih]

/-- A polynomial has a value wherever its variables have. -/
theorem IsPolynomial.defined {e : Expr} (h : e.IsPolynomial)
    (hv : ∀ x ∈ e.occurrences, (v x).isSome) : e.Defined v := by
  induction e using tree_induction with
  | sum es ih =>
    rw [IsPolynomial, allPolynomial_iff] at h
    rw [defined_sum]
    intro e he
    apply ih e he (h e he)
    intro x hx
    exact hv x (mem_occurrences_sum.2 ⟨e, he, hx⟩)
  | product c vs fs ih =>
    rw [IsPolynomial, allPolynomial_iff] at h
    rw [defined_product]
    constructor
    · intro x hx
      exact hv x (mem_occurrences_product.2 (Or.inl hx))
    · intro f hf
      apply ih f hf (h f hf)
      intro x hx
      exact hv x (mem_occurrences_product.2 (Or.inr ⟨f, hf, hx⟩))
  | fraction n d ihn _ =>
    rw [IsPolynomial] at h
    obtain ⟨hn, _, hclosed, q, hq, hne⟩ := h
    -- The denominator has the same value everywhere.
    have hd : d.eval v = .ok q := by
      rw [eval_eq_evalClosed hclosed, hq]
    obtain ⟨hdefined, hvalue⟩ := eval_eq_ok_iff.1 hd
    have hnumerator : n.Defined v := by
      apply ihn hn
      intro x hx
      exact hv x (mem_occurrences_fraction.2 (Or.inl hx))
    exact defined_fraction.2 ⟨hnumerator, hdefined, hvalue.symm ▸ hne⟩

/-! ## Power products -/

/-- Variables in order, multiplied with each other. -/
def IsPowerProduct (m : Expr) : Prop :=
  ∃ vs : List String, m = product 1 vs [] ∧ vs.Pairwise (· ≤ ·)

/-- A multiple of a power product. -/
def IsPowerTerm (e : Expr) : Prop :=
  ∃ (c : Rat) (vs : List String), e = product c vs [] ∧ vs.Pairwise (· ≤ ·)

/-- A combination of power products, written as an expression. -/
def IsExpanded (e : Expr) : Prop :=
  ∃ a : Combination, a.All IsPowerProduct ∧ a.toExpr = e

/-- The monomial of a multiple of a power product is a power product. -/
theorem IsPowerTerm.split {e : Expr} (h : e.IsPowerTerm) : e.split.2.IsPowerProduct := by
  obtain ⟨c, vs, rfl, hvs⟩ := h
  refine ⟨vs, ?_, hvs⟩
  cases vs <;> rfl

/-- A multiple of a power product is one, also where it is written as a term. -/
theorem IsPowerProduct.ofTerm {m : Expr} (h : m.IsPowerProduct) (c : Rat) :
    (ofTerm c m).IsPowerTerm := by
  obtain ⟨vs, rfl, hvs⟩ := h
  exact ⟨c, vs, rfl, hvs⟩

/-- A combination of power products is written as one term, or as a sum of terms. -/
theorem IsExpanded.cases {e : Expr} (h : e.IsExpanded) :
    e.IsPowerTerm ∨ ∃ es, e = sum es ∧ ∀ t ∈ es, t.IsPowerTerm := by
  obtain ⟨a, ha, rfl⟩ := h
  have hterm : ∀ t ∈ a.terms, t.toExpr.IsPowerTerm := fun t ht => (ha t ht).ofTerm _
  rcases a.toExpr_cases with heq | ⟨t, ht, heq⟩ | heq
  · exact Or.inl ⟨0, [], heq, List.Pairwise.nil⟩
  · rw [heq]
    exact Or.inl (hterm t ht)
  · refine Or.inr ⟨_, heq, ?_⟩
    rw [List.forall_mem_map]
    exact hterm

theorem isExpanded_zero : zero.IsExpanded :=
  ⟨.empty, Combination.all_empty, rfl⟩

/-! ## Sums -/

/-- Adding a polynomial that is multiplied out adds power products only. -/
theorem isPowerProduct_addExpr {a : Combination} (ha : a.All IsPowerProduct) {e : Expr}
    (he : e.IsExpanded) : (a.addExpr e).All IsPowerProduct := by
  rcases he.cases with hterm | ⟨es, rfl, hes⟩
  · obtain ⟨c, vs, rfl, hvs⟩ := hterm
    exact ha.addTerm (IsPowerTerm.split ⟨c, vs, rfl, hvs⟩)
  · exact Combination.All.foldl (fun b t ht hb => hb.addTerm (hes t ht).split) ha

theorem isPowerProduct_ofExprs {es : List Expr} (hes : ∀ e ∈ es, e.IsExpanded) :
    (Combination.ofExprs es).All IsPowerProduct :=
  Combination.All.foldl (fun _ e he hb => isPowerProduct_addExpr hb (hes e he))
    Combination.all_empty

/-! ## Products -/

/-- Without quotients nothing cancels, and the variables are put in order. -/
theorem reduce_of_no_quotients {p : Factors} (hp : p.quotients = []) :
    p.reduce.quotients = [] ∧ p.reduce.names.Pairwise (· ≤ ·) := by
  -- There is no denominator to cancel against, so the product is only put in order.
  have hcancels : p.cancels = false := by
    simp [Factors.cancels, hp, Factors.cancelQuotients]
  rw [Factors.reduce, dif_neg (by simp [hcancels])]
  constructor
  · simp [Factors.ordered, hp, sortList]
  · have htrans : ∀ x y z : String, decide (x ≤ y) = true → decide (y ≤ z) = true →
        decide (x ≤ z) = true := by
      intro x y z hxy hyz
      rw [decide_eq_true_eq] at *
      exact String.le_trans hxy hyz
    have htotal : ∀ x y : String, (decide (x ≤ y) || decide (y ≤ x)) = true := by
      intro x y
      simpa using String.le_total x y
    simpa [Factors.ordered] using List.pairwise_mergeSort htrans htotal p.names

/-- A multiple of a power product brings no quotient into a product. -/
theorem quotients_times {p : Factors} {e : Expr} (he : e.IsPowerTerm) :
    (p.times e).quotients = p.quotients := by
  obtain ⟨c, vs, rfl, _⟩ := he
  simp [Factors.times]

/-- Without quotients a product multiplies out to power products. -/
theorem isPowerProduct_expand {p : Factors} (hp : p.quotients = []) {sums : List (List Expr)}
    (hsums : ∀ addends ∈ sums, ∀ e ∈ addends, e.IsPowerTerm) :
    (p.expand sums).All IsPowerProduct := by
  induction sums generalizing p with
  | nil =>
    -- One product is left, and there is nothing in it but variables.
    obtain ⟨hquotients, hnames⟩ := reduce_of_no_quotients hp
    refine Combination.all_empty.insert ⟨p.reduce.names, ?_, hnames⟩ _
    rw [Keyed.expr_of, hquotients]
    cases p.reduce.names <;> rfl
  | cons addends sums ih =>
    obtain ⟨hhead, htail⟩ := List.forall_mem_cons.1 hsums
    have hstep : ∀ a : Combination, ∀ e ∈ addends, a.All IsPowerProduct →
        (a.add (Factors.expand (p.times e) sums)).All IsPowerProduct := by
      intro a e he ha
      have htimes : (p.times e).quotients = [] := (quotients_times (hhead e he)).trans hp
      exact ha.add (ih htimes htail)
    exact Combination.All.foldl hstep Combination.all_empty

/-- Polynomials that are multiplied out bring no quotients, alone or as addends. -/
theorem gather_of_isExpanded {p : Factors} (hp : p.quotients = []) {es : List Expr}
    (hes : ∀ e ∈ es, e.IsExpanded) :
    (Factors.gather p es).1.quotients = [] ∧
      ∀ addends ∈ (Factors.gather p es).2, ∀ e ∈ addends, e.IsPowerTerm := by
  induction es generalizing p with
  | nil => exact ⟨hp, by simp [Factors.gather]⟩
  | cons e es ih =>
    obtain ⟨hhead, htail⟩ := List.forall_mem_cons.1 hes
    rcases hhead.cases with hterm | ⟨addends, rfl, haddends⟩
    · have htimes : (p.times e).quotients = [] := (quotients_times hterm).trans hp
      obtain ⟨c, vs, rfl, _⟩ := hterm
      exact ih htimes htail
    · exact ⟨(ih hp htail).1, List.forall_mem_cons.2 ⟨haddends, (ih hp htail).2⟩⟩

/-- The product of polynomials that are multiplied out is one. -/
theorem isExpanded_multiply (c : Rat) (vs : List String) {es : List Expr}
    (hes : ∀ e ∈ es, e.IsExpanded) : (multiply c vs es).IsExpanded := by
  unfold multiply
  simp only
  split
  · exact isExpanded_zero
  · obtain ⟨hquotients, hsums⟩ := gather_of_isExpanded (p := ⟨c, vs, []⟩) rfl hes
    exact ⟨_, isPowerProduct_expand hquotients hsums, rfl⟩

/-! ## Quotients -/

theorem isExpanded_divide {n : Expr} (hn : n.IsExpanded) {k : Rat} (hk : k ≠ 0) :
    (divide n (const k)).IsExpanded := by
  rw [divide.eq_def]
  split
  · exact isExpanded_zero
  · simp only [const, asConstant?, if_neg hk]
    exact isExpanded_multiply _ _ (by simpa using hn)

/-- The only power product without variables is one. -/
theorem IsPowerProduct.eq_one {m : Expr} (h : m.IsPowerProduct) {c : Rat}
    (hclosed : (Expr.ofTerm c m).occurrences = []) : m = one := by
  obtain ⟨vs, rfl, _⟩ := h
  have hvs : vs = [] := by
    simpa [Expr.ofTerm, occurrences, occurrencesList] using hclosed
  rw [hvs]
  rfl

/-- A combination without variables is a constant. -/
theorem IsExpanded.eq_const {e : Expr} (h : e.IsExpanded) (hclosed : e.occurrences = []) :
    ∃ k, e = const k := by
  obtain ⟨⟨terms, sorted, nonzero⟩, ha, rfl⟩ := h
  -- A constant is a polynomial with one term at most.
  cases terms with
  | nil => exact ⟨0, rfl⟩
  | cons s rest =>
    cases rest with
    | nil =>
      have hs : s.monomial.expr = one := (ha s (by simp)).eq_one hclosed
      refine ⟨s.coefficient, ?_⟩
      change ofTerm s.coefficient s.monomial.expr = _
      rw [hs]
      rfl
    | cons t rest =>
      -- Both terms would have the monomial one, which occurs only once.
      have hparts : ∀ u ∈ s :: t :: rest, u.toExpr.occurrences = [] := by
        intro u hu
        rw [List.eq_nil_iff_forall_not_mem] at hclosed ⊢
        intro x hx
        exact hclosed x (mem_occurrences_sum.2 ⟨u.toExpr, List.mem_map_of_mem hu, hx⟩)
      have hs : s.monomial.expr = one := (ha s (by simp)).eq_one (hparts s (by simp))
      have ht : t.monomial.expr = one := (ha t (by simp)).eq_one (hparts t (by simp))
      have hlt := List.rel_of_pairwise_cons sorted List.mem_cons_self
      rw [Keyed.ext (hs.trans ht.symm), Keyed.cmp_eq_iff.2 rfl] at hlt
      cases hlt

/-- A polynomial without variables that has a value is normalized to that value. -/
theorem normalize_eq_const {d : Expr} (hd : d.normalize.IsExpanded) (hclosed : d.occurrences = [])
    {q : Rat} (hq : d.evalClosed = .ok q) : d.normalize = const q := by
  have hnormal : d.normalize.occurrences = [] := by
    rw [List.eq_nil_iff_forall_not_mem] at hclosed ⊢
    intro x hx
    exact hclosed x (mem_occurrences_of_normalize hx)
  obtain ⟨k, hk⟩ := hd.eq_const hnormal
  obtain ⟨hdefined, hvalue⟩ := eval_eq_ok_iff.1 hq
  have hsame := (defined_normalize hdefined).2
  rw [hk, value_const, hvalue] at hsame
  rw [hk, hsame]

/-! ## Normal forms -/

/-- The normal form of a polynomial is a combination of power products. -/
theorem isExpanded_normalize {e : Expr} (h : e.IsPolynomial) : e.normalize.IsExpanded := by
  -- Sums and products of polynomials that are multiplied out are computed on their terms.
  induction e using tree_induction with
  | sum es ih =>
    rw [IsPolynomial, allPolynomial_iff] at h
    rw [normalize, normalizeList_eq]
    refine ⟨_, isPowerProduct_ofExprs ?_, rfl⟩
    rw [List.forall_mem_map]
    exact fun e he => ih e he (h e he)
  | product c vs fs ih =>
    rw [IsPolynomial, allPolynomial_iff] at h
    rw [normalize, normalizeList_eq]
    split
    · exact isExpanded_zero
    · refine isExpanded_multiply c vs ?_
      rw [List.forall_mem_map]
      exact fun f hf => ih f hf (h f hf)
  | fraction n d ihn ihd =>
    rw [IsPolynomial] at h
    obtain ⟨hn, hd, hclosed, q, hq, hne⟩ := h
    -- The denominator is normalized to its value before it divides.
    rw [normalize, normalize_eq_const (ihd hd) hclosed hq]
    exact isExpanded_divide (ihn hn) hne

end Expr

end RationalAlgebra
