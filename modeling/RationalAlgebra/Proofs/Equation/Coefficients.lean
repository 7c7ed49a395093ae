import Mathlib
import RationalAlgebra.Proofs.Equation.Isolation
import RationalAlgebra.Proofs.Normal.Expansion

/-!
# Isolation by coefficients

A round of isolation splits the coefficients of an equation: the kept side has those of the
monomials that hold the variable, and the moved side the negatives of the others. An equation whose
normal form is a multiple of the difference between a variable and a canonical expression without it
is therefore isolated to that expression, in one round.

Main statements: `coefficients_keptSide`, `coefficients_movedSide` and `isolate_of_coefficients`.
-/

namespace RationalAlgebra.Expr

variable {name : String}

/-! ## The monomials with a variable -/

/-- The monomials that hold a variable. -/
def holding (name : String) : Set Keyed :=
  {m | name ∈ m.expr.occurrences}

/-- A term and its monomial have the same variables at the same places. -/
theorem occurrences_split (e : Expr) : e.split.2.occurrences = e.occurrences := by
  cases e with
  | sum es => rfl
  | fraction n d => rfl
  | product c vs fs =>
    have hmonomial : (monomial vs fs).occurrences = vs ++ occurrencesList fs := by
      unfold monomial
      split
      · simp [occurrencesList]
      · rw [occurrences]
    exact hmonomial

/-- A term has its coefficient at a monomial with the same variables. -/
theorem indicator_coefficients_of_not_isSum (name : String) {e : Expr} (h : ¬ e.IsSum) :
    (holding name).indicator e.coefficients = if e.mentions name then e.coefficients else 0 := by
  have hmem : Keyed.of e.split.2 ∈ holding name ↔ e.mentions name = true := by
    rw [mentions_iff, ← occurrences_split]
    rfl
  rw [coefficients_of_not_isSum h]
  funext m
  -- A term has a single monomial, so its coefficients are kept whole or dropped whole.
  by_cases hmentions : e.mentions name = true
  · rw [if_pos hmentions]
    refine Set.indicator_apply_eq_self.2 fun hm => ?_
    apply Pi.single_eq_of_ne
    rintro rfl
    exact hm (hmem.2 hmentions)
  · rw [if_neg hmentions]
    refine Set.indicator_apply_eq_zero.2 fun hm => ?_
    apply Pi.single_eq_of_ne
    rintro rfl
    exact hmentions (hmem.1 hm)

/-- The terms with a variable carry the coefficients of the monomials with the variable. -/
theorem sum_coefficients_filter {terms : List Expr} (h : ∀ t ∈ terms, ¬ t.IsSum) :
    ((terms.filter fun t => t.mentions name).map coefficients).sum =
      (holding name).indicator (terms.map coefficients).sum := by
  induction terms with
  | nil => simp
  | cons t terms ih =>
    obtain ⟨ht, hrest⟩ := List.forall_mem_cons.1 h
    rw [List.map_cons, List.sum_cons, Set.indicator_add', ← ih hrest,
      indicator_coefficients_of_not_isSum name ht, List.filter_cons]
    split
    · rw [List.map_cons, List.sum_cons]
    · rw [zero_add]

/-- An expression without a variable has no monomials with it. -/
theorem indicator_coefficients_of_not_mem {e : Expr} (h : e.Canonical)
    (hname : name ∉ e.occurrences) : (holding name).indicator e.coefficients = 0 := by
  have hnone : e.addends.filter (fun t => t.mentions name) = [] := by
    rw [List.filter_eq_nil_iff]
    intro t ht hmentions
    exact hname (mem_occurrences_addends.1 ⟨t, ht, mentions_iff.1 hmentions⟩)
  rw [← h.sum_coefficients_addends, ← sum_coefficients_filter fun t ht => (h.forall_addends t ht).2,
    hnone]
  rfl

/-! ## The two sides of a round -/

/-- The side that keeps the variable has the coefficients of the monomials that hold it. -/
theorem coefficients_keptSide {e : Expr} (h : e.Canonical) :
    (keptSide name e.addends).coefficients = (holding name).indicator e.coefficients := by
  have hterms := h.forall_addends
  have hsame : ∀ t ∈ e.addends.filter (fun t => t.mentions name),
      t.normalize.coefficients = t.coefficients := by
    intro t ht
    rw [normalize_of_canonical (hterms t (List.mem_of_mem_filter ht)).1]
  rw [keptSide, coefficients_normalize_sum, List.map_congr_left hsame,
    sum_coefficients_filter fun t ht => (hterms t ht).2, h.sum_coefficients_addends]

/-- The other side takes over the remaining coefficients, with opposite signs. -/
theorem coefficients_movedSide {right e : Expr} (hright : right.Canonical) (h : e.Canonical) :
    (movedSide name right e.addends).coefficients =
      right.coefficients - (e.coefficients - (holding name).indicator e.coefficients) := by
  have hterms := h.forall_addends
  have hnegative : ∀ t ∈ e.addends.filter (fun t => !t.mentions name),
      (t.scaled (-1)).normalize.coefficients = -t.coefficients := by
    intro t ht
    have ht' := (hterms t (List.mem_of_mem_filter ht)).1
    rw [normalize_scaled (by norm_num) ht', coefficients_scale _ ht', neg_one_smul]
  -- The terms with the variable and those without make up the expression.
  have hall : (holding name).indicator e.coefficients +
      ((e.addends.filter fun t => !t.mentions name).map coefficients).sum = e.coefficients := by
    have hperm := (List.filter_append_perm (fun t => t.mentions name) e.addends).map coefficients
    rw [List.map_append] at hperm
    have hsum := hperm.sum_eq
    rwa [List.sum_append, sum_coefficients_filter fun t ht => (hterms t ht).2,
      h.sum_coefficients_addends] at hsum
  rw [← eq_sub_iff_add_eq'] at hall
  rw [movedSide, coefficients_normalize_sum, List.map_cons, List.map_map, List.sum_cons,
    normalize_of_canonical hright, ← hall, sub_eq_add_neg, List.sum_neg, List.map_map]
  exact congrArg (fun es => right.coefficients + es.sum) (List.map_congr_left hnegative)

theorem canonical_keptSide (name : String) (terms : List Expr) :
    (keptSide name terms).Canonical :=
  canonical_normalize _

theorem canonical_movedSide (name : String) (right : Expr) (terms : List Expr) :
    (movedSide name right terms).Canonical :=
  canonical_normalize _

/-! ## Isolation in one round -/

theorem isMonomial_var (x : String) : (var x).IsMonomial :=
  ⟨by simp [var, canonical_product, Shape], rfl, id⟩

/-- The coefficient of a multiple of the variable. -/
theorem coefficientOf?_product {k : Rat} (hk : k ≠ 0) (name : String) :
    (product k [name] []).coefficientOf? name = some k := by
  have hquotient : (product k [name] []).divideByVariable? name = some (const k) := by
    simp [divideByVariable?, const]
  rw [coefficientOf?, hquotient, Option.bind_some, normalize_const]
  simp [const, asConstant?, hk]

theorem scale_inv_scale {k : Rat} (hk : k ≠ 0) {e : Expr} (h : e.Canonical) :
    scale k⁻¹ (scale k e) = e := by
  rw [scale_scale _ _ h, inv_mul_cancel₀ hk, scale_one h]

theorem coefficients_multiple {k : Rat} (hk : k ≠ 0) (name : String) :
    (product k [name] []).coefficients = k • (var name).coefficients := by
  have hmonomial := isMonomial_var name
  have hone : (var name).coefficients = Pi.single (.of (var name)) 1 :=
    coefficients_ofTerm hmonomial one_ne_zero
  rw [hone, ← Pi.single_smul, smul_eq_mul, mul_one]
  exact coefficients_ofTerm hmonomial hk

/-- A search ends where the kept side is a multiple of the variable. -/
theorem isolateIn_of_coefficientOf? {e right : Expr} {k : Rat} (he : e.Canonical)
    (hname : ∃ t ∈ e.addends, name ∈ t.occurrences)
    (hk : (keptSide name e.addends).coefficientOf? name = some k) :
    isolateIn name right e.addends =
      .ok (fraction (movedSide name right e.addends) (const k)).normalize :=
  (Rounds.isolated hname hk).isolateIn_eq he

/-- A multiple of the difference between a variable and a canonical expression without it is
isolated to that expression. -/
theorem isolate_of_coefficients {e E : Expr} {k : Rat} (hk : k ≠ 0) (hE : E.Canonical)
    (hname : name ∉ E.occurrences)
    (h : e.normalize.coefficients = k • ((var name).coefficients - E.coefficients)) :
    e.isolate name = .ok E := by
  have hnormal := canonical_normalize e
  have hzero : zero.Canonical := canonical_const 0
  have hindicator : (holding name).indicator e.normalize.coefficients =
      k • (var name).coefficients := by
    have hself := indicator_coefficients_of_not_isSum name (isMonomial_var name).not_isSum
    rw [if_pos (mentions_iff.2 (by simp [var]))] at hself
    have hsmul : ∀ f : Keyed → Rat, (holding name).indicator (k • f) =
        k • (holding name).indicator f := Set.indicator_const_smul _ k
    rw [h, hsmul, Set.indicator_sub', hself, indicator_coefficients_of_not_mem hE hname, sub_zero]
  -- After one round the multiple of the variable is left, and everything else has moved.
  have hkept : keptSide name e.normalize.addends = product k [name] [] := by
    apply (canonical_keptSide _ _).ext_coefficients ((isMonomial_var name).ofTerm hk).1
    exact (coefficients_keptSide hnormal).trans (hindicator.trans (coefficients_multiple hk _).symm)
  have hmoved : movedSide name zero e.normalize.addends = scale k E := by
    apply (canonical_movedSide _ _ _).ext_coefficients (canonical_scale k hE)
    rw [coefficients_movedSide hzero hnormal, hindicator, h, coefficients_scale k hE,
      coefficients_zero, smul_sub]
    abel
  have hcoefficient : (keptSide name e.normalize.addends).coefficientOf? name = some k := by
    rw [hkept, coefficientOf?_product hk]
  -- The variable is there, since the kept side is not zero.
  have hmem : ∃ t ∈ e.normalize.addends, name ∈ t.occurrences := by
    apply mem_occurrences_of_keptSide
    rw [hkept]
    simp
  rw [isolate, isolateIn_of_coefficientOf? hnormal hmem hcoefficient, hmoved, normalize,
    normalize_of_canonical (canonical_scale k hE), normalize_const, divide_constant hk,
    scale_inv_scale hk hE]

end RationalAlgebra.Expr
