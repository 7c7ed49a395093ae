import Mathlib
import RationalAlgebra.Proofs.Equation.Decision
import RationalAlgebra.Proofs.Linear.Elimination

/-!
# Two ways to solve linear equations

A row of coefficients with a constant is an equation in named unknowns. Elimination by rows has an
answer only if it is the one solution of its system, and by then every name occurs in an equation.
Symbolic elimination decides the same system, so it finds the same values.

Main statement: `solveWithin_linear`.
-/

namespace RationalAlgebra

open RationalAlgebra.Expr RationalAlgebra.Equations

namespace Linear

/-- The unknowns with their coefficients. -/
def Row.terms (names : List String) (r : Row) : List Expr :=
  List.zipWith (fun c x => product c [x] []) r.coefficients names

/-- The equation of a row in these unknowns, as an expression that is to be zero. -/
def Row.equation (names : List String) (r : Row) : Expr :=
  sub (sum (r.terms names)) (const r.constant)

/-- A polynomial that is everywhere the difference of the two sides of a row's equation. -/
def Row.IsEquation (names : List String) (r : Row) (e : Expr) : Prop :=
  e.IsPolynomial ∧
    ∀ f : String → Rat, e.eval (.total f) = .ok (dot r.coefficients (names.map f) - r.constant)

variable {names : List String} {r : Row} {e : Expr}

/-- The terms of a row are multiples of variables. -/
theorem Row.exists_of_mem_terms (h : e ∈ r.terms names) : ∃ c x, e = product c [x] [] := by
  obtain ⟨c, _, x, rfl⟩ := exists_of_mem_zipWith h
  exact ⟨c, x, rfl⟩

/-- The value of a row is its product with the values of the variables. -/
theorem value_terms (f : String → Rat) (cs : List Rat) (names : List String) :
    ((List.zipWith (fun c x => product c [x] []) cs names).map (value (.total f))).sum =
      dot cs (names.map f) := by
  induction cs generalizing names with
  | nil => simp [dot]
  | cons c cs ih =>
    cases names with
    | nil => simp [dot]
    | cons x names =>
      rw [List.zipWith_cons_cons, List.map_cons, List.sum_cons, List.map_cons, dot, ih]
      simp

/-- The equation that is written from a row says what the row says. -/
theorem isEquation_equation (names : List String) (r : Row) :
    r.IsEquation names (r.equation names) := by
  have hterms : ∀ e ∈ r.terms names, e.IsPolynomial := by
    intro e he
    obtain ⟨c, x, rfl⟩ := Row.exists_of_mem_terms he
    simp [IsPolynomial, AllPolynomial]
  have hpolynomial : (r.equation names).IsPolynomial := by
    simp only [Row.equation, sub, neg, const, IsPolynomial, AllPolynomial, and_true,
      allPolynomial_iff]
    exact hterms
  refine ⟨hpolynomial, fun f => ?_⟩
  rw [(hpolynomial.defined_total f).eval_eq, Row.equation, sub, value_sum, List.map_cons,
    List.sum_cons, value_sum, Row.terms, value_terms]
  simp [neg, sub_eq_add_neg]

theorem degree_equation_le (names : List String) (r : Row) : (r.equation names).degree ≤ 1 := by
  have hterms : degreeMax (r.terms names) ≤ 1 := by
    rw [degreeMax_le_iff]
    intro e he
    obtain ⟨c, x, rfl⟩ := Row.exists_of_mem_terms he
    simp [degree, degreeSum]
  simp only [Row.equation, sub, neg, const, degree, degreeMax, degreeSum, List.length_nil]
  omega

/-- The equation of a row is linear, however it is written. -/
theorem Row.IsEquation.isLinear (h : r.IsEquation names e) : e.IsLinear := by
  obtain ⟨hpolynomial, heval⟩ := isEquation_equation names r
  have hsame : e.normalize = (r.equation names).normalize := by
    apply h.1.normalize_eq hpolynomial
    intro f
    rw [value_of_eval (h.2 f), value_of_eval (heval f)]
  have haffine := isAffine_normalize hpolynomial (degree_equation_le names r)
  rw [← hsame] at haffine
  exact isLinear_iff.2 ⟨h.1, haffine⟩

/-- The equations of some rows are zero where the rows hold. -/
theorem zeroAt_iff_holds {rows : List Row} {equations : List Expr}
    (h : List.Forall₂ (Row.IsEquation names) rows equations) (f : String → Rat) :
    ZeroAt f equations ↔ ∀ r ∈ rows, r.Holds (names.map f) := by
  induction h with
  | nil => simp [ZeroAt]
  | @cons r e rows equations hhead _ ih =>
    rw [ZeroAt] at ih ⊢
    rw [List.forall_mem_cons, List.forall_mem_cons, ih, hhead.2 f, Except.ok.injEq, sub_eq_zero,
      Row.Holds]

/-- The variables of an equation are among the unknowns of its row. -/
theorem Row.IsEquation.mem_names (h : r.IsEquation names e) {x : String}
    (hx : x ∈ e.normalize.occurrences) : x ∈ names := by
  by_contra hnot
  obtain ⟨f, q, hne⟩ := h.isLinear.mem_occurrences_iff.1 hx
  have hmap : names.map (Function.update f x q) = names.map f :=
    List.map_congr_left fun y hy => Function.update_of_ne (ne_of_mem_of_not_mem hy hnot) _ _
  apply hne
  rw [value_of_eval (h.2 _), value_of_eval (h.2 _), hmap]

/-- Every equation of a system by rows is the equation of a row. -/
theorem exists_isEquation {rows : List Row} {equations : List Expr}
    (h : List.Forall₂ (Row.IsEquation names) rows equations) :
    ∀ e ∈ equations, ∃ r : Row, r.IsEquation names e := by
  induction h with
  | nil => simp
  | @cons r e rows equations hhead _ ih => exact List.forall_mem_cons.2 ⟨⟨r, hhead⟩, ih⟩

/-- Names can be given any values. -/
theorem exists_map_eq (hnodup : names.Nodup) {xs : List Rat}
    (hlength : names.length = xs.length) : ∃ f : String → Rat, names.map f = xs := by
  induction names generalizing xs with
  | nil => exact ⟨fun _ => 0, (List.length_eq_zero_iff.1 hlength.symm).symm⟩
  | cons x names ih =>
    obtain ⟨hx, hnodup⟩ := List.nodup_cons.1 hnodup
    cases xs with
    | nil => cases hlength
    | cons q xs =>
      obtain ⟨f, hf⟩ := ih hnodup (Nat.succ.inj hlength)
      refine ⟨Function.update f x q, ?_⟩
      rw [List.map_cons, Function.update_self, hnodup.map_update, if_neg hx, hf]

/-- Where elimination by rows has an answer, the equations are zero exactly where the unknowns have
its values. -/
theorem zeroAt_iff_of_solve {rows : List (List Rat)} {constants xs : List Rat}
    (hsolve : solve rows constants = .ok (some xs)) (hnames : names.length = constants.length)
    {equations : List Expr}
    (h : List.Forall₂ (Row.IsEquation names) (List.zipWith Row.mk rows constants) equations) :
    xs.length = constants.length ∧
      ∀ f : String → Rat, ZeroAt f equations ↔ names.map f = xs := by
  obtain ⟨hsquare, heliminate⟩ := solve_eq_some hsolve
  obtain ⟨hlength, hunique⟩ := eliminate_eq_some hsquare heliminate
  refine ⟨hlength, fun f => ?_⟩
  rw [zeroAt_iff_holds h, hunique _ (by rw [List.length_map, hnames])]

end Linear

namespace Equations

open RationalAlgebra.Linear

/-- Where elimination by rows has an answer, every unknown occurs in the normal form of an equation:
otherwise it could have another value. -/
theorem mem_systemVariables_iff {equations : List Expr} {names : List String} {xs : List Rat}
    (hequations : ∀ e ∈ equations, ∃ r : Row, r.IsEquation names e) (hnodup : names.Nodup)
    (hlength : names.length = xs.length)
    (hzero : ∀ f : String → Rat, ZeroAt f equations ↔ names.map f = xs) {x : String} :
    x ∈ systemVariables equations ↔ x ∈ names := by
  constructor
  · intro hx
    obtain ⟨e, he, hmem⟩ := mem_systemVariables.1 hx
    obtain ⟨r, hr⟩ := hequations e he
    exact hr.mem_names hmem
  · intro hx
    by_contra hnot
    obtain ⟨f, hf⟩ := exists_map_eq hnodup hlength
    -- A column that does not occur could be changed, but the solution is unique.
    have hother : ZeroAt (Function.update f x (f x + 1)) equations := by
      apply ((hzero f).2 hf).congr fun e he => (hequations e he).elim fun r hr => hr.1
      exact fun y hy => (Function.update_of_ne (ne_of_mem_of_not_mem hy hnot) _ _).symm
    have hsame : names.map (Function.update f x (f x + 1)) = names.map f :=
      ((hzero _).1 hother).trans hf.symm
    have hvalue := List.map_inj_left.1 hsame x hx
    rw [Function.update_self] at hvalue
    linarith

/-- A system has no other variables than the columns. -/
theorem card_systemVariables_le {equations : List Expr} {names : List String}
    (hequations : ∀ e ∈ equations, ∃ r : Row, r.IsEquation names e) :
    (systemVariables equations).card ≤ names.length := by
  have hsub : systemVariables equations ⊆ names.toFinset := by
    intro x hx
    obtain ⟨e, he, hmem⟩ := mem_systemVariables.1 hx
    obtain ⟨r, hr⟩ := hequations e he
    exact List.mem_toFinset.2 (hr.mem_names hmem)
  exact (Finset.card_le_card hsub).trans names.toFinset_card_le

/-- Values for some names, as they are paired with them and as they are read off a function. -/
theorem ofList_zip_eq_restrict {names : List String} {s : Finset String}
    (hs : ∀ x, x ∈ s ↔ x ∈ names) (f : String → Rat) :
    NameMap.ofList (names.zip (names.map f)) = restrict s f := by
  apply NameMap.ext_get?
  intro x
  rw [get?_restrict, ← List.map_prod_left_eq_zip, NameMap.ofList, List.foldl_map,
    NameMap.get?_foldl_insert]
  simp [hs x]

/-- Symbolic elimination finds the values that elimination by rows finds. -/
theorem solveWithin_of_solve {rows : List (List Rat)} {constants xs : List Rat}
    (hsolve : Linear.solve rows constants = .ok (some xs)) {names : List String}
    (hnodup : names.Nodup) (hnames : names.length = constants.length) {equations : List Expr}
    (h : List.Forall₂ (Row.IsEquation names) (List.zipWith Row.mk rows constants) equations)
    {limit : Nat} (hlimit : 2 * constants.length ≤ limit) :
    solveWithin limit equations = .ok (NameMap.ofList (names.zip xs)) := by
  have hequations := exists_isEquation h
  have hlinear : ∀ e ∈ equations, e.IsLinear :=
    fun e he => (hequations e he).elim fun r hr => hr.isLinear
  obtain ⟨hlength, hzero⟩ := zeroAt_iff_of_solve hsolve hnames h
  have hvariables : ∀ x, x ∈ systemVariables equations ↔ x ∈ names :=
    fun x => mem_systemVariables_iff hequations hnodup (hnames.trans hlength.symm) hzero
  -- The system has the solution that the matrix has, and no other.
  have hsolves : ∀ s, Solves equations s ↔ s = NameMap.ofList (names.zip xs) := by
    intro s
    rw [solves_iff fun e he => (hlinear e he).1]
    constructor
    · rintro ⟨f, hf, rfl⟩
      rw [← (hzero f).1 hf, ofList_zip_eq_restrict hvariables]
    · rintro rfl
      obtain ⟨f, hf⟩ := exists_map_eq hnodup (hnames.trans hlength.symm)
      refine ⟨f, (hzero f).2 hf, ?_⟩
      rw [← hf, ofList_zip_eq_restrict hvariables]
  -- One step for each equation and one for each variable are enough.
  have hbound : equations.length + (systemVariables equations).card ≤ limit := by
    have hcount := h.length_eq
    have hcard := card_systemVariables_le hequations
    rw [List.length_zipWith] at hcount
    omega
  rw [(decides_solveWithin hlinear hbound).unique]
  exact ⟨(hsolves _).2 rfl, fun s hs => (hsolves s).1 hs⟩

/-- Elimination decides linear systems: within as many steps as there are equations and variables
it tells whether there is no solution, one, or several, and finds the one. So it finds what
elimination by rows finds. -/
theorem solveWithin_linear :
    (∀ (equations : List Expr) (limit : Nat), (∀ e ∈ equations, e.IsLinear) →
      equations.length + (systemVariables equations).card ≤ limit →
      Decides equations (solveWithin limit equations)) ∧
    ∀ (rows : List (List Rat)) (constants xs : List Rat) (names : List String)
      (equations : List Expr) (limit : Nat), Linear.solve rows constants = .ok (some xs) →
      names.Nodup → names.length = constants.length →
      List.Forall₂ (Row.IsEquation names) (List.zipWith Row.mk rows constants) equations →
      2 * constants.length ≤ limit →
      solveWithin limit equations = .ok (NameMap.ofList (names.zip xs)) :=
  ⟨fun _ _ h hlimit => decides_solveWithin h hlimit,
    fun _ _ _ _ _ _ hsolve hnodup hnames h hlimit =>
      solveWithin_of_solve hsolve hnodup hnames h hlimit⟩

/-- The sum of two unknowns is 3 and their difference is 1. -/
theorem solveWithin_linear_sum_difference :
    Decides [Row.equation ["x", "y"] ⟨[1, 1], 3⟩, Row.equation ["x", "y"] ⟨[1, -1], 1⟩]
        (solveWithin 4
          [Row.equation ["x", "y"] ⟨[1, 1], 3⟩, Row.equation ["x", "y"] ⟨[1, -1], 1⟩]) ∧
      Linear.solve [[1, 1], [1, -1]] [3, 1] = .ok (some [2, 1]) ∧
      solveWithin 4
          [Row.equation ["x", "y"] ⟨[1, 1], 3⟩, Row.equation ["x", "y"] ⟨[1, -1], 1⟩] =
        .ok (NameMap.ofList [("x", 2), ("y", 1)]) := by
  have hrows : List.Forall₂ (Row.IsEquation ["x", "y"])
      (List.zipWith Row.mk [[1, 1], [1, -1]] [3, 1])
      [Row.equation ["x", "y"] ⟨[1, 1], 3⟩, Row.equation ["x", "y"] ⟨[1, -1], 1⟩] :=
    .cons (isEquation_equation _ _) (.cons (isEquation_equation _ _) .nil)
  have hequations := exists_isEquation hrows
  have hsolve : Linear.solve [[1, 1], [1, -1]] [3, 1] = .ok (some [2, 1]) := by
    cbv
  refine ⟨solveWithin_linear.1 _ 4 (fun e he => ?_) ?_, hsolve, ?_⟩
  · obtain ⟨r, hr⟩ := hequations e he
    exact hr.isLinear
  · exact Nat.add_le_add_left (card_systemVariables_le hequations) 2
  · exact solveWithin_linear.2 _ _ _ ["x", "y"] _ 4 hsolve (by decide) rfl hrows (by decide)

end Equations

end RationalAlgebra
