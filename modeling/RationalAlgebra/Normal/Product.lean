import RationalAlgebra.Normal.Combination

/-!
# Products of normal forms

The product of a rational, some variables and some normal forms, as a linear combination. The
factors are gathered into a coefficient, variables, quotients and sums; the sums are multiplied out;
and in each product that results, variables are cancelled against quotients whose denominator is
nothing but variables. When a denominator is used up, its numerator joins the product, and
cancelling starts again.

Main definitions: `Factors.reduce` cancels, `Factors.expand` multiplies out, `Expr.multiply` is the
product as a normal form. `Expr.degree_multiply_le`: a product has no more variables and quotients
than its factors together.
-/

namespace RationalAlgebra

/-- A product taken apart: its coefficient, its variables and its quotients. -/
structure Factors where
  coefficient : Rat
  names : List String
  quotients : List Expr

namespace Factors

/-- The number of variables and quotients that are multiplied with each other. -/
def degree (p : Factors) : Nat :=
  p.names.length + Expr.degreeSum p.quotients

/-- Multiply by an expression. The parts of a product join those that are there; anything else
becomes one more quotient. -/
def times (p : Factors) : Expr → Factors
  | .product c vs fs => ⟨p.coefficient * c, p.names ++ vs, p.quotients ++ fs⟩
  | e => ⟨p.coefficient, p.names, p.quotients ++ [e]⟩

/-- The degree of a product is the sum of the degrees, for every shape of the factor. -/
theorem degree_times (p : Factors) (e : Expr) : (p.times e).degree = p.degree + e.degree := by
  unfold times
  split
  · simp only [degree, Expr.degree, List.length_append, Expr.degreeSum_append]
    omega
  · simp only [degree, Expr.degreeSum_append, Expr.degreeSum]
    omega

/-! ## Cancelling variables -/

/-- The variables of an expression that is nothing but variables, at least one. -/
def pureVariables? : Expr → Option (List String)
  | .product c (x :: xs) [] => if c = 1 then some (x :: xs) else none
  | _ => none

/-- Take variables away from the names of a denominator, each with one occurrence of its name.
What is left of either comes out. -/
def cancel : List String → List String → List String × List String
  | [], names => ([], names)
  | x :: xs, names =>
    if x ∈ names then cancel xs (names.erase x)
    else
      -- No name is left to meet this variable, which stays.
      let left := cancel xs names
      (x :: left.1, left.2)

/-- Cancelling takes as many variables from the product as from the denominator. -/
theorem length_cancel (xs names : List String) :
    (cancel xs names).1.length + names.length = (cancel xs names).2.length + xs.length := by
  induction xs generalizing names with
  | nil => simp [cancel]
  | cons x xs ih =>
    rw [cancel]
    split
    · rename_i hx
      -- The variable meets its name in the denominator, and both go.
      have hlen := List.length_erase_of_mem hx
      have hpos := List.length_pos_of_mem hx
      have := ih (names.erase x)
      simp only [List.length_cons]
      omega
    · have := ih names
      simp only [List.length_cons]
      omega

/-- Cancelling leaves no more variables than there were. -/
theorem length_cancel_le (xs names : List String) : (cancel xs names).1.length ≤ xs.length := by
  induction xs generalizing names with
  | nil => simp [cancel]
  | cons x xs ih =>
    rw [cancel]
    split
    · have := ih (names.erase x)
      simp only [List.length_cons]
      omega
    · have := ih names
      simp only [List.length_cons]
      omega

/-- Cancel variables against the denominators of quotients, from left to right. The variables that
are left come out, and the quotients with what is left of their denominators. -/
def cancelQuotients (vs : List String) : List Expr → List String × List Expr
  | [] => (vs, [])
  | f :: fs =>
    match f with
    | .fraction n d =>
      match pureVariables? d with
      | some names =>
        let left := cancel vs names
        let rest := cancelQuotients left.1 fs
        (rest.1, .fraction n (.product 1 left.2 []) :: rest.2)
      | none =>
        let rest := cancelQuotients vs fs
        (rest.1, f :: rest.2)
    | _ =>
      let rest := cancelQuotients vs fs
      (rest.1, f :: rest.2)

/-- What is nothing but variables is the product of these variables. -/
theorem pureVariables?_eq_some {d : Expr} {names : List String}
    (h : pureVariables? d = some names) : d = .product 1 names [] := by
  unfold pureVariables? at h
  split at h
  · split at h
    · rename_i hc
      cases h
      rw [hc]
    · cases h
  · cases h

/-- Cancelling against several quotients leaves no more variables than there were. -/
theorem length_cancelQuotients_le (vs : List String) (fs : List Expr) :
    (cancelQuotients vs fs).1.length ≤ vs.length := by
  fun_induction cancelQuotients vs fs with
  | case1 => exact Nat.le_refl _
  | case2 vs fs n d names _ left rest ih => exact Nat.le_trans ih (length_cancel_le _ _)
  | case3 _ _ _ _ _ _ ih => exact ih
  | case4 _ _ _ _ _ ih => exact ih

/-- The quotients lose as much degree as there are variables cancelled. -/
theorem degree_cancelQuotients (vs : List String) (fs : List Expr) :
    Expr.degreeSum (cancelQuotients vs fs).2 + vs.length =
      Expr.degreeSum fs + (cancelQuotients vs fs).1.length := by
  fun_induction cancelQuotients vs fs with
  | case1 vs => rfl
  | case2 vs fs n d names hnames left rest ih =>
    -- A denominator of variables has as many degrees as names, so the lengths count here.
    rw [pureVariables?_eq_some hnames]
    have hlen := length_cancel vs names
    simp only [Expr.degreeSum, Expr.degree, left, rest] at ih ⊢
    omega
  | case3 vs fs n d _ rest ih =>
    simp only [Expr.degreeSum, rest]
    omega
  | case4 vs f fs rest _ ih =>
    simp only [Expr.degreeSum, rest]
    omega

/-- Multiply by a quotient, which is its numerator if its denominator is one. -/
def timesQuotient (p : Factors) : Expr → Factors
  | .fraction n d => if d.isOne then p.times n else p.times (.fraction n d)
  | e => p.times e

/-- A quotient with denominator one loses a degree as it becomes its numerator; all else keeps it.
-/
theorem degree_timesQuotient_le (p : Factors) (e : Expr) :
    (p.timesQuotient e).degree ≤ p.degree + e.degree := by
  unfold timesQuotient
  split
  · split
    · rw [degree_times, Expr.degree]
      omega
    · exact Nat.le_of_eq (degree_times p _)
  · exact Nat.le_of_eq (degree_times p _)

/-- Multiplying by quotients, one after another, adds no more than their degrees. -/
theorem degree_foldl_timesQuotient_le (p : Factors) (fs : List Expr) :
    (fs.foldl timesQuotient p).degree ≤ p.degree + Expr.degreeSum fs := by
  induction fs generalizing p with
  | nil => simp [Expr.degreeSum]
  | cons f fs ih =>
    have := ih (p.timesQuotient f)
    have := degree_timesQuotient_le p f
    simp only [List.foldl_cons, Expr.degreeSum]
    omega

/-- Cancel once, and let the numerators whose denominators are used up join the product. -/
def cancelled (p : Factors) : Factors :=
  let left := cancelQuotients p.names p.quotients
  left.2.foldl timesQuotient ⟨p.coefficient, left.1, []⟩

/-- Whether a variable cancels. -/
def cancels (p : Factors) : Bool :=
  decide ((cancelQuotients p.names p.quotients).1.length < p.names.length)

/-- A round in which a variable cancels lowers the degree. This is why the rounds end. -/
theorem degree_cancelled_lt {p : Factors} (h : p.cancels = true) :
    p.cancelled.degree < p.degree := by
  have hlt := of_decide_eq_true h
  -- What the product loses in variables the quotients lose as well, and nothing comes back.
  have hdeg := degree_cancelQuotients p.names p.quotients
  have hle := degree_foldl_timesQuotient_le
    ⟨p.coefficient, (cancelQuotients p.names p.quotients).1, []⟩
    (cancelQuotients p.names p.quotients).2
  simp only [degree, Expr.degreeSum] at hle
  simp only [cancelled, degree]
  omega

/-! ## Reduced products -/

/-- The variables and quotients of a product in order. -/
def ordered (p : Factors) : Factors :=
  ⟨p.coefficient, p.names.mergeSort fun x y => decide (x ≤ y), Expr.sortList p.quotients⟩

/-- Putting a product in order does not change its degree. -/
theorem degree_ordered (p : Factors) : p.ordered.degree = p.degree := by
  simp only [degree, ordered, (List.mergeSort_perm _ _).length_eq,
    Expr.degreeSum_perm (Expr.sortList_perm p.quotients)]

/-- Cancel until nothing cancels, and put what is left in order. -/
def reduce (p : Factors) : Factors :=
  if _h : p.cancels = true then reduce p.cancelled else p.ordered
termination_by p.degree
decreasing_by exact degree_cancelled_lt _h

/-- A reduced product has no larger degree. -/
theorem degree_reduce_le (p : Factors) : p.reduce.degree ≤ p.degree := by
  fun_induction reduce p with
  | case1 p h ih => exact Nat.le_trans ih (Nat.le_of_lt (degree_cancelled_lt h))
  | case2 p _ => exact Nat.le_of_eq (degree_ordered p)

/-! ## Multiplying out -/

/-- The product of some factors and some sums, multiplied out. The addends of a sum join the
factors one at a time, those of the first sum first. -/
def expand (p : Factors) : List (List Expr) → Combination
  | [] =>
    -- Nothing is left to distribute: the product is one term.
    let q := p.reduce
    Combination.empty.insert (.of (Expr.monomial q.names q.quotients)) q.coefficient
  | addends :: sums =>
    addends.foldl (fun acc e => acc.add (expand (p.times e) sums)) Combination.empty

/-- The degrees of some sums, added up. -/
def sumsDegree : List (List Expr) → Nat
  | [] => 0
  | addends :: sums => Expr.degreeMax addends + sumsDegree sums

/-- A product multiplied out has no monomial of larger degree than its factors and the largest
addends of its sums together. -/
theorem degreeLE_expand (p : Factors) (sums : List (List Expr)) :
    (p.expand sums).DegreeLE (p.degree + sumsDegree sums) := by
  induction sums generalizing p with
  | nil =>
    refine (Combination.degreeLE_empty _).insert ?_ _
    rw [Keyed.expr_of, Expr.degree_monomial]
    exact degree_reduce_le p
  | cons addends sums ih =>
    refine Combination.DegreeLE.foldl (fun a e he ha => ha.add ?_) (Combination.degreeLE_empty _)
    have hle := Expr.degreeMax_le_iff.1 (Nat.le_refl (Expr.degreeMax addends)) e he
    -- The addend joins the factors, and has at most the degree by which its sum was counted.
    intro t ht
    have := ih (p.times e) t ht
    rw [degree_times] at this
    simp only [sumsDegree] at this ⊢
    omega

/-! ## Gathering -/

/-- Take some factors apart: sums are set aside, and all else joins the product. -/
def gather (p : Factors) : List Expr → Factors × List (List Expr)
  | [] => (p, [])
  | .sum addends :: es =>
    let rest := gather p es
    (rest.1, addends :: rest.2)
  | e :: es => gather (p.times e) es

/-- Taking factors apart changes no degree: a sum that is set aside counts as its largest addend. -/
theorem degree_gather (p : Factors) (es : List Expr) :
    (gather p es).1.degree + sumsDegree (gather p es).2 = p.degree + Expr.degreeSum es := by
  fun_induction gather p es with
  | case1 p => simp [sumsDegree, Expr.degreeSum]
  | case2 p addends es rest ih =>
    simp only [sumsDegree, Expr.degreeSum, Expr.degree, rest] at ih ⊢
    omega
  | case3 p e es _ ih =>
    rw [ih, degree_times, Expr.degreeSum]
    omega

end Factors

namespace Expr

/-- The product of a rational, some variables and some normal forms, as a normal form. A product
with coefficient zero is zero at once. -/
def multiply (c : Rat) (vs : List String) (es : List Expr) : Expr :=
  let parts := Factors.gather ⟨c, vs, []⟩ es
  if parts.1.coefficient = 0 then zero else (parts.1.expand parts.2).toExpr

/-- A multiple of a normal form, as a normal form. -/
def scale (k : Rat) (e : Expr) : Expr :=
  multiply k [] [e]

/-- A product has no more variables and quotients than its factors together. -/
theorem degree_multiply_le (c : Rat) (vs : List String) (es : List Expr) :
    (multiply c vs es).degree ≤ vs.length + degreeSum es := by
  unfold multiply
  simp only
  split
  · simp [zero, const, degree, degreeSum]
  · have h := Factors.degree_gather ⟨c, vs, []⟩ es
    refine Combination.degree_toExpr_le fun t ht => ?_
    have := Factors.degreeLE_expand _ _ t ht
    simp only [Factors.degree, degreeSum] at h this
    omega

end Expr

end RationalAlgebra
