import Mathlib
import RationalAlgebra.Expr.Eval
import RationalAlgebra.Proofs.Expr.Basic

/-!
# Values and where they exist

Evaluation either fails or gives a rational. This file takes the two apart: `Expr.value` is a total
function, in which a name without a value counts as zero and a quotient by zero is zero, and
`Expr.Defined` says that evaluation succeeds. `eval_eq_ok_iff` puts them together again, so a law
of evaluation is an equation between values and a statement about denominators.

The last two sections show that only the variables that occur matter, and at what evaluation fails.
-/

namespace RationalAlgebra

/-- The value of a name, zero if it has none. -/
def Valuation.read (v : Valuation) (x : String) : Rat :=
  (v x).getD 0

/-- Where a variable has a value, this is the value read. -/
theorem Valuation.read_of_eq_some {v : Valuation} {x : String} {q : Rat} (h : v x = some q) :
    v.read x = q := by
  rw [read, h, Option.getD_some]

/-- A name that has a value has the one that is read. -/
theorem Valuation.eq_some_read {v : Valuation} {x : String} (h : (v x).isSome) :
    v x = some (v.read x) := by
  obtain ⟨q, hq⟩ := Option.isSome_iff_exists.1 h
  rw [read_of_eq_some hq, hq]

namespace Expr

variable {v w : Valuation}

/-! ## The total value -/

mutual

/-- The value of an expression, whether or not evaluation succeeds. -/
def value (v : Valuation) : Expr → Rat
  | sum addends => valueSum v addends
  | product c vs fs => c * (vs.map v.read).prod * valueProduct v fs
  | fraction n d => n.value v / d.value v

/-- The sum of the values of some expressions. -/
def valueSum (v : Valuation) : List Expr → Rat
  | [] => 0
  | e :: es => e.value v + valueSum v es

/-- The product of the values of some expressions. -/
def valueProduct (v : Valuation) : List Expr → Rat
  | [] => 1
  | e :: es => e.value v * valueProduct v es

end

theorem valueSum_eq (v : Valuation) (es : List Expr) :
    valueSum v es = (es.map (value v)).sum := by
  induction es with
  | nil => rfl
  | cons e es ih => rw [valueSum, ih, List.map_cons, List.sum_cons]

theorem valueProduct_eq (v : Valuation) (es : List Expr) :
    valueProduct v es = (es.map (value v)).prod := by
  induction es with
  | nil => rfl
  | cons e es ih => rw [valueProduct, ih, List.map_cons, List.prod_cons]

@[simp]
theorem value_sum (v : Valuation) (es : List Expr) :
    (sum es).value v = (es.map (value v)).sum := by
  rw [value, valueSum_eq]

@[simp]
theorem value_product (v : Valuation) (c : Rat) (vs : List String) (fs : List Expr) :
    (product c vs fs).value v = c * (vs.map v.read).prod * (fs.map (value v)).prod := by
  rw [value, valueProduct_eq]

/-- The value of a quotient, where division by zero gives zero. -/
@[simp]
theorem value_fraction (v : Valuation) (n d : Expr) :
    (fraction n d).value v = n.value v / d.value v := by
  rw [value]

/-! ## Evaluation succeeds -/

/-- An expression has a value under a valuation. -/
def Defined (v : Valuation) (e : Expr) : Prop :=
  ∃ q, e.eval v = .ok q

/-- The variables of a product have a value together exactly if each has one. -/
theorem evalVariables_eq_ok_iff {c q : Rat} {vs : List String} :
    evalVariables v c vs = .ok q ↔
      (∀ x ∈ vs, (v x).isSome) ∧ c * (vs.map v.read).prod = q := by
  induction vs generalizing c with
  | nil => simp [evalVariables]
  | cons x xs ih =>
    rw [evalVariables]
    -- The first variable either stops the product or joins the constant in front.
    cases hx : v x with
    | none => simp [hx]
    | some value =>
      have hread : v.read x = value := by simp [Valuation.read, hx]
      simp [ih, hx, hread, mul_assoc]

/-- A running total that is computed is the total of the values. What is known of the addends is a
hypothesis, so that the lemma serves in the induction over trees. -/
theorem valueSum_of_eval {es : List Expr} (h : ∀ e ∈ es, ∀ q, e.eval v = .ok q → e.value v = q)
    {t q : Rat} (hq : evalSum v t es = .ok q) : t + valueSum v es = q := by
  induction es generalizing t with
  | nil =>
    rw [evalSum] at hq
    simpa [valueSum] using Except.ok.inj hq
  | cons e es ih =>
    obtain ⟨hhead, htail⟩ := List.forall_mem_cons.1 h
    rw [evalSum] at hq
    split at hq
    · cases hq
    · -- The first addend joins the total, and the rest starts from there.
      rename_i a he
      rw [valueSum, hhead a he, ← add_assoc]
      exact ih htail hq

/-- A running product that is computed is the product of the values. -/
theorem valueProduct_of_eval {es : List Expr}
    (h : ∀ e ∈ es, ∀ q, e.eval v = .ok q → e.value v = q) {t q : Rat}
    (hq : evalProduct v t es = .ok q) : t * valueProduct v es = q := by
  induction es generalizing t with
  | nil =>
    rw [evalProduct] at hq
    simpa [valueProduct] using Except.ok.inj hq
  | cons e es ih =>
    obtain ⟨hhead, htail⟩ := List.forall_mem_cons.1 h
    rw [evalProduct] at hq
    split at hq
    · cases hq
    · -- Likewise the first factor joins the product.
      rename_i a he
      rw [valueProduct, hhead a he, ← mul_assoc]
      exact ih htail hq

/-- What evaluation gives is the value. -/
theorem value_of_eval {e : Expr} {q : Rat} (h : e.eval v = .ok q) : e.value v = q := by
  induction e using tree_induction generalizing q with
  | sum es ih =>
    rw [eval] at h
    simpa [value] using valueSum_of_eval (fun e he _ => ih e he) h
  | product c vs fs ih =>
    rw [eval] at h
    split at h
    · cases h
    · rename_i a hvs
      rw [value, (evalVariables_eq_ok_iff.1 hvs).2]
      exact valueProduct_of_eval (fun f hf _ => ih f hf) h
  | fraction n d ihn ihd =>
    rw [eval] at h
    split at h
    · cases h
    · rename_i a hn
      split at h
      · cases h
      · rename_i b hd
        -- Division either fails or is the division of rationals.
        rw [value, ihn hn, ihd hd]
        unfold Number.divide at h
        split at h
        · cases h
        · exact Except.ok.inj h

/-- Evaluation gives exactly the values of expressions that have one. -/
theorem eval_eq_ok_iff {e : Expr} {q : Rat} : e.eval v = .ok q ↔ e.Defined v ∧ e.value v = q := by
  constructor
  · intro h
    exact ⟨⟨q, h⟩, value_of_eval h⟩
  · rintro ⟨⟨p, hp⟩, rfl⟩
    rw [hp, value_of_eval hp]

/-- Where an expression has a value, this is the value computed. -/
theorem Defined.eval_eq {e : Expr} (h : e.Defined v) : e.eval v = .ok (e.value v) :=
  eval_eq_ok_iff.2 ⟨h, rfl⟩

/-- A total is computed exactly if every addend has a value, whatever it starts from. -/
theorem evalSum_isOk_iff {es : List Expr} {t : Rat} :
    (∃ q, evalSum v t es = .ok q) ↔ ∀ e ∈ es, e.Defined v := by
  induction es generalizing t with
  | nil => simp [evalSum]
  | cons e es ih =>
    rw [evalSum]
    cases he : e.eval v with
    | error f => simp [Defined, he]
    | ok a => simp [Defined, he, ih]

/-- A product is computed exactly if every factor has a value. -/
theorem evalProduct_isOk_iff {es : List Expr} {t : Rat} :
    (∃ q, evalProduct v t es = .ok q) ↔ ∀ e ∈ es, e.Defined v := by
  induction es generalizing t with
  | nil => simp [evalProduct]
  | cons e es ih =>
    rw [evalProduct]
    cases he : e.eval v with
    | error f => simp [Defined, he]
    | ok a => simp [Defined, he, ih]

/-- A sum has a value where its addends have. -/
@[simp]
theorem defined_sum {es : List Expr} : (sum es).Defined v ↔ ∀ e ∈ es, e.Defined v := by
  rw [← evalSum_isOk_iff (t := 0)]
  simp only [Defined, eval]

/-- A product has a value where its variables and factors have. -/
@[simp]
theorem defined_product {c : Rat} {vs : List String} {fs : List Expr} :
    (product c vs fs).Defined v ↔ (∀ x ∈ vs, (v x).isSome) ∧ ∀ f ∈ fs, f.Defined v := by
  rw [Defined, eval]
  cases hvs : evalVariables v c vs with
  | error f =>
    -- Then some variable has no value.
    have hnot : ¬ ∀ x ∈ vs, (v x).isSome := by
      intro h
      have hok := (evalVariables_eq_ok_iff (c := c)).2 ⟨h, rfl⟩
      rw [hvs] at hok
      cases hok
    simp only [reduceCtorEq, exists_false, false_iff]
    exact fun h => hnot h.1
  | ok a =>
    have hbound := (evalVariables_eq_ok_iff.1 hvs).1
    simp only [evalProduct_isOk_iff]
    exact ⟨fun h => ⟨hbound, h⟩, fun h => h.2⟩

/-- A quotient has a value where its parts have and the denominator is not zero. -/
@[simp]
theorem defined_fraction {n d : Expr} :
    (fraction n d).Defined v ↔ n.Defined v ∧ d.Defined v ∧ d.value v ≠ 0 := by
  rw [Defined, eval]
  cases hn : n.eval v with
  | error f => simp [Defined, hn]
  | ok a =>
    cases hd : d.eval v with
    | error f => simp [Defined, hd]
    | ok b =>
      rw [value_of_eval hd]
      -- Both parts have values: what is left is the division.
      by_cases hb : b = 0
      · simp [Defined, hn, hd, hb, Number.divide]
      · simp [Defined, hn, hd, hb, Number.divide]

@[simp]
theorem defined_const (c : Rat) : (const c).Defined v := by
  simp [const]

@[simp]
theorem value_const (v : Valuation) (c : Rat) : (const c).value v = c := by
  simp [const]

theorem defined_zero : zero.Defined v :=
  defined_const 0

theorem value_zero (v : Valuation) : zero.value v = 0 :=
  value_const v 0

theorem value_of_isZero {e : Expr} (h : e.isZero = true) : e.value v = 0 := by
  rw [isZero, beq_iff_eq] at h
  rw [eq_const_of_asConstant? h, value_const]

theorem value_of_isOne {e : Expr} (h : e.isOne = true) : e.value v = 1 := by
  rw [isOne, beq_iff_eq] at h
  rw [eq_const_of_asConstant? h, value_const]

@[simp]
theorem value_scaled (v : Valuation) (k : Rat) (e : Expr) :
    (e.scaled k).value v = k * e.value v := by
  cases e with
  | sum es => simp [scaled]
  | product c vs fs =>
    rw [scaled, value_product, value_product]
    ring
  | fraction n d => simp [scaled]

/-- A multiple has a value where the expression has one, also when the multiple is zero. -/
@[simp]
theorem defined_scaled {k : Rat} {e : Expr} : (e.scaled k).Defined v ↔ e.Defined v := by
  cases e <;> simp [scaled]

/-! ## Only the variables that occur matter -/

/-- Where an expression has a value, so has each of its variables. -/
theorem Defined.isSome_of_mem {e : Expr} {x : String} (h : e.Defined v)
    (hx : x ∈ e.occurrences) : (v x).isSome := by
  induction e using tree_induction with
  | sum es ih =>
    obtain ⟨e, he, hmem⟩ := mem_occurrences_sum.1 hx
    exact ih e he (defined_sum.1 h e he) hmem
  | product c vs fs ih =>
    obtain ⟨hvs, hfs⟩ := defined_product.1 h
    rcases mem_occurrences_product.1 hx with hmem | ⟨f, hf, hmem⟩
    · exact hvs x hmem
    · exact ih f hf (hfs f hf) hmem
  | fraction n d ihn ihd =>
    obtain ⟨hn, hd, _⟩ := defined_fraction.1 h
    rcases mem_occurrences_fraction.1 hx with hmem | hmem
    · exact ihn hn hmem
    · exact ihd hd hmem

/-- Variables with the same values have the same product. -/
theorem evalVariables_congr {vs : List String} (h : ∀ x ∈ vs, v x = w x) (c : Rat) :
    evalVariables v c vs = evalVariables w c vs := by
  induction vs generalizing c with
  | nil => rfl
  | cons x xs ih =>
    obtain ⟨hhead, htail⟩ := List.forall_mem_cons.1 h
    rw [evalVariables, evalVariables, hhead]
    split
    · rfl
    · exact ih htail _

/-- Addends are added up alike where they are evaluated alike. -/
theorem evalSum_map {f : Expr → Expr} {es : List Expr}
    (h : ∀ e ∈ es, (f e).eval v = e.eval w) (t : Rat) :
    evalSum v t (es.map f) = evalSum w t es := by
  induction es generalizing t with
  | nil => rfl
  | cons e es ih =>
    obtain ⟨hhead, htail⟩ := List.forall_mem_cons.1 h
    rw [List.map_cons, evalSum, evalSum, hhead]
    split
    · rfl
    · exact ih htail _

/-- Factors are multiplied alike where they are evaluated alike. -/
theorem evalProduct_map {f : Expr → Expr} {es : List Expr}
    (h : ∀ e ∈ es, (f e).eval v = e.eval w) (t : Rat) :
    evalProduct v t (es.map f) = evalProduct w t es := by
  induction es generalizing t with
  | nil => rfl
  | cons e es ih =>
    obtain ⟨hhead, htail⟩ := List.forall_mem_cons.1 h
    rw [List.map_cons, evalProduct, evalProduct, hhead]
    split
    · rfl
    · exact ih htail _

/-- Valuations that agree on the variables of an expression evaluate it alike. -/
theorem eval_congr {e : Expr} (h : ∀ x ∈ e.occurrences, v x = w x) : e.eval v = e.eval w := by
  induction e using tree_induction with
  | sum es ih =>
    simp only [mem_occurrences_sum] at h
    -- Mapping the addends by the identity puts both valuations in the form of the lemma.
    have hsame := evalSum_map (f := id) (fun e he => ih e he fun x hx => h x ⟨e, he, hx⟩) 0
    rw [List.map_id] at hsame
    rw [eval, eval]
    exact hsame
  | product c vs fs ih =>
    simp only [mem_occurrences_product] at h
    have hsame := evalProduct_map (f := id) fun f hf => ih f hf fun x hx => h x (Or.inr ⟨f, hf, hx⟩)
    rw [List.map_id] at hsame
    rw [eval, eval, evalVariables_congr fun x hx => h x (Or.inl hx)]
    split
    · rfl
    · exact hsame _
  | fraction n d ihn ihd =>
    simp only [mem_occurrences_fraction] at h
    rw [eval, eval, ihn fun x hx => h x (Or.inl hx), ihd fun x hx => h x (Or.inr hx)]

/-- Without variables an expression has the same value everywhere. -/
theorem eval_eq_evalClosed {e : Expr} (h : e.occurrences = []) : e.eval v = e.evalClosed :=
  eval_congr (by simp [h])

/-! ## Failures -/

/-- The variables of a product fail at one of them that has no value. -/
theorem evalVariables_eq_error {c : Rat} {vs : List String} {f : Failure}
    (h : evalVariables v c vs = .error f) : ∃ x ∈ vs, v x = none ∧ f = .unboundVariable x := by
  induction vs generalizing c with
  | nil => cases h
  | cons x xs ih =>
    rw [evalVariables] at h
    split at h
    · rename_i hx
      exact ⟨x, List.mem_cons_self, hx, (Except.error.inj h).symm⟩
    · obtain ⟨y, hy, hnone, rfl⟩ := ih h
      exact ⟨y, List.mem_cons_of_mem x hy, hnone, rfl⟩

/-- The failure of a sum is that of an addend. -/
theorem evalSum_eq_error {es : List Expr} {t : Rat} {f : Failure}
    (h : evalSum v t es = .error f) : ∃ e ∈ es, e.eval v = .error f := by
  induction es generalizing t with
  | nil => cases h
  | cons e es ih =>
    rw [evalSum] at h
    split at h
    · rename_i f' he
      cases h
      exact ⟨e, List.mem_cons_self, he⟩
    · obtain ⟨e', hmem, he'⟩ := ih h
      exact ⟨e', List.mem_cons_of_mem e hmem, he'⟩

/-- The failure of a product of factors is that of a factor. -/
theorem evalProduct_eq_error {es : List Expr} {t : Rat} {f : Failure}
    (h : evalProduct v t es = .error f) : ∃ e ∈ es, e.eval v = .error f := by
  induction es generalizing t with
  | nil => cases h
  | cons e es ih =>
    rw [evalProduct] at h
    split at h
    · rename_i f' he
      cases h
      exact ⟨e, List.mem_cons_self, he⟩
    · obtain ⟨e', hmem, he'⟩ := ih h
      exact ⟨e', List.mem_cons_of_mem e hmem, he'⟩

/-- Evaluation fails at a zero divisor or at a variable that occurs and has no value. -/
theorem eval_eq_error {e : Expr} {f : Failure} (h : e.eval v = .error f) :
    f = .divisionByZero ∨ ∃ x ∈ e.occurrences, v x = none ∧ f = .unboundVariable x := by
  induction e using tree_induction with
  | sum es ih =>
    rw [eval] at h
    obtain ⟨e, hmem, he⟩ := evalSum_eq_error h
    refine (ih e hmem he).imp_right ?_
    rintro ⟨x, hx, hnone, hf⟩
    exact ⟨x, mem_occurrences_sum.2 ⟨e, hmem, hx⟩, hnone, hf⟩
  | product c vs fs ih =>
    rw [eval] at h
    split at h
    · -- The variables of the product come before its factors.
      rename_i f' hvs
      cases h
      obtain ⟨x, hx, hnone, hf⟩ := evalVariables_eq_error hvs
      exact Or.inr ⟨x, mem_occurrences_product.2 (Or.inl hx), hnone, hf⟩
    · obtain ⟨e, hmem, he⟩ := evalProduct_eq_error h
      refine (ih e hmem he).imp_right ?_
      rintro ⟨x, hx, hnone, hf⟩
      exact ⟨x, mem_occurrences_product.2 (Or.inr ⟨e, hmem, hx⟩), hnone, hf⟩
  | fraction n d ihn ihd =>
    rw [eval] at h
    split at h
    · rename_i f' hn
      cases h
      refine (ihn hn).imp_right ?_
      rintro ⟨x, hx, hnone, hf⟩
      exact ⟨x, mem_occurrences_fraction.2 (Or.inl hx), hnone, hf⟩
    · split at h
      · rename_i f' hd
        cases h
        refine (ihd hd).imp_right ?_
        rintro ⟨x, hx, hnone, hf⟩
        exact ⟨x, mem_occurrences_fraction.2 (Or.inr hx), hnone, hf⟩
      · -- Both parts have values, so it is the division that fails.
        unfold Number.divide at h
        split at h
        · exact Or.inl (Except.error.inj h).symm
        · cases h

/-- Without variables evaluation fails only at a zero divisor. -/
theorem evalClosed_eq_error {e : Expr} (hclosed : e.occurrences = []) {f : Failure}
    (h : e.evalClosed = .error f) : f = .divisionByZero := by
  rcases eval_eq_error h with hf | ⟨x, hx, _⟩
  · exact hf
  · rw [hclosed] at hx
    cases hx

end Expr

end RationalAlgebra
