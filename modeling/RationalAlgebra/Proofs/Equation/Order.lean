import Mathlib
import RationalAlgebra.Proofs.Equation.Polynomial

/-!
# The order of the equations

A solution of a system of polynomials describes its zeros by the values of some variables
(`Describes`). No two solutions describe the same zeros. None does if elimination leaves a variable
free: the expression in which it is left has several values, so the variable that is bound to it has
several too, and still its value depends on others. What is found is therefore a matter of the zeros
alone, and the order of the equations decides only whether it is found.

Main statement: `solveWithin_of_isPolynomial`.
-/

namespace RationalAlgebra

open RationalAlgebra.Expr RationalAlgebra.Equations

namespace Equations

variable {equations equations' : List Expr} {bindings : Bindings} {s t : Solution}

/-! ## Solutions that describe the zeros -/

/-- The zeros of a system are the valuations that have the values of a solution. -/
def Describes (s : Solution) (equations : List Expr) : Prop :=
  ∀ f, ZeroAt f equations ↔ ∀ x q, s.get? x = some q → f x = q

/-- What describes the zeros of a system gives a zero of it, with any values for the other names. -/
theorem Describes.zeroAt (h : Describes s equations) (g : String → Rat) :
    ZeroAt (fun x => (s.get? x).getD (g x)) equations := by
  rw [h]
  intro x q hx
  rw [hx, Option.getD_some]

/-- A name that has a value in one description of the zeros has it in every other. -/
theorem Describes.get?_eq_some (h : Describes s equations) (h' : Describes t equations)
    {x : String} {q : Rat} (hx : s.get? x = some q) : t.get? x = some q := by
  -- If the other had no value for the name, this zero would have the wrong one.
  have hvalue := (h _).1 (h'.zeroAt fun _ => q + 1) x q hx
  cases hget : t.get? x with
  | none =>
    rw [hget, Option.getD_none] at hvalue
    linarith
  | some r =>
    rw [hget, Option.getD_some] at hvalue
    rw [hvalue]

/-- Only one assignment describes a system. -/
theorem Describes.unique (h : Describes s equations) (h' : Describes t equations) : s = t := by
  apply NameMap.ext_get?
  intro x
  apply Option.ext
  intro q
  exact ⟨fun hx => h.get?_eq_some h' hx, fun hx => h'.get?_eq_some h hx⟩

/-- An assignment describes a system in any order of its equations. -/
theorem Describes.perm (h : Describes s equations) (hperm : equations'.Perm equations) :
    Describes s equations' := by
  intro f
  rw [← h f]
  exact forall_congr' fun e => imp_congr_left hperm.mem_iff

/-! ## What a run describes -/

section LastState

variable (h : ∀ e ∈ equations, e.IsPolynomial) {n : Nat}
  (hrun : Run n (.start equations) ⟨[], bindings⟩)

include h hrun

/-- The values that are found describe the zeros. -/
theorem describes_of_resolve (hresolve : resolve bindings = .ok s) : Describes s equations := by
  intro f
  rw [zeroAt_iff_agrees h hrun]
  constructor
  · intro hagrees x q hx
    exact Option.some.inj (hagrees.of_resolve hresolve hx)
  · intro hvalues
    exact agrees_of_resolve hresolve fun x q hx => congrArg some (hvalues x q hx)

variable {y : String} {b : Expr} (hb : bindings.get? y = some b)

include hb

/-- A bound variable is part of every description: its value cannot be changed alone. -/
theorem isSome_of_describes (hs : Describes s equations) : (s.get? y).isSome := by
  by_contra hnot
  rw [Option.isSome_iff_ne_none, not_not] at hnot
  obtain ⟨f, hf, _⟩ := exists_zeroAt h hrun (fun _ => 0)
  -- Were the bound variable not described, it could be changed and the system would stay zero.
  have hother : ZeroAt (Function.update f y (f y + 1)) equations := by
    rw [hs] at hf ⊢
    intro x q hx
    have hxy : x ≠ y := by
      rintro rfl
      rw [hnot] at hx
      cases hx
    rw [Function.update_of_ne hxy]
    exact hf x q hx
  -- The bound expression has not changed its value, for the variable does not occur in it.
  have hnot_mem : y ∉ b.occurrences := by
    intro hy
    have hunbound := reduced_of_run hrun y b hb y hy
    rw [hb] at hunbound
    cases hunbound
  have hsame := eval_total_update hnot_mem f (f y + 1)
  rw [zeroAt_iff_agrees h hrun] at hf hother
  obtain ⟨q, hq, hvalue⟩ := hf y b hb
  obtain ⟨r, hr, hvalue'⟩ := hother y b hb
  rw [hsame, hvalue] at hvalue'
  cases hvalue'
  rw [Valuation.total, Option.some.injEq] at hq hr
  rw [Function.update_self, ← hq] at hr
  linarith

/-- Nothing describes the zeros where a variable is left in a binding. -/
theorem not_describes_of_mem_occurrences {x : String} (hx : x ∈ b.occurrences) :
    ¬ Describes s equations := by
  intro hs
  have hreduced := reduced_of_run hrun
  have hexpanded := (polynomialState_of_run h hrun).expanded y b hb
  obtain ⟨q, hq⟩ := Option.isSome_iff_exists.1 (isSome_of_describes h hrun hb hs)
  -- Whatever values the free variables have, the bound one has its value in the description.
  have hvalue : ∀ g, b.value (.total g) = (const q).value (.total g) := by
    intro g
    obtain ⟨f, hf, hfree⟩ := exists_zeroAt h hrun g
    have hsame : b.eval (.total f) = b.eval (.total g) :=
      hreduced.eval_congr hb fun z hz => congrArg some (hfree z hz)
    have hfy := (hs f).1 hf y q hq
    obtain ⟨r, hr, heval⟩ := (zeroAt_iff_agrees h hrun).1 hf y b hb
    rw [Valuation.total, hfy, Option.some.injEq] at hr
    rw [hsame] at heval
    rw [value_of_eval heval, value_const, hr]
  have hconst : (const q).IsPolynomial := by
    simp [const, IsPolynomial, AllPolynomial]
  rw [← hexpanded.eq_normalize hconst hvalue] at hx
  have hmem := mem_occurrences_of_normalize hx
  simp [const] at hmem

end LastState

/-! ## Results -/

/-- On polynomials elimination finds values that describe the zeros, or a contradiction if there are
no zeros, or a free variable if nothing describes them; or it goes beyond the method or the limit.
-/
theorem solveWithin_cases_of_isPolynomial (h : ∀ e ∈ equations, e.IsPolynomial) (limit : Nat) :
    (∃ s, solveWithin limit equations = .ok s ∧ Describes s equations) ∨
      (∃ left, solveWithin limit equations = .error (.inconsistent left) ∧
        ∀ f, ¬ ZeroAt f equations) ∨
      (∃ x, solveWithin limit equations = .error (.underdetermined x) ∧
        ∀ s, ¬ Describes s equations) ∨
      ∃ f, solveWithin limit equations = .error f ∧ f.isUnsupported = true := by
  obtain ⟨n, t, _, hrun, hend⟩ := eliminate_runs limit limit equations .empty
  rw [solveWithin]
  rcases hend with hend | ⟨_, hlimit⟩
  · generalize eliminate limit limit equations .empty = result at hend
    cases hend with
    | resolved bindings =>
      cases hresolve : resolve bindings with
      | ok s => exact Or.inl ⟨s, rfl, describes_of_resolve h hrun hresolve⟩
      | error failure =>
        -- A polynomial expression divides by constants only, so the resolution can fail at a free
        -- variable alone.
        have hdefined := (polynomialState_of_run h hrun).expanded.bindingsDefined fun _ => 0
        obtain ⟨x, y, b, rfl, hb, hx⟩ := resolve_eq_error hdefined hresolve
        have hnot : ∀ s, ¬ Describes s equations :=
          fun s => not_describes_of_mem_occurrences h hrun hb hx
        exact Or.inr (Or.inr (Or.inl ⟨x, rfl, hnot⟩))
    | inconsistent hclosed hzero =>
      refine Or.inr (Or.inl ⟨_, rfl, fun f hf => ?_⟩)
      exact hzero (evalClosed_present_of_holds (holds_of_run hf hrun) hclosed)
    | stuck hname hvalue =>
      obtain ⟨left, rfl⟩ := exists_unsupported_of_isolate hname hvalue
      exact Or.inr (Or.inr (Or.inr ⟨_, rfl, rfl⟩))
  · exact Or.inr (Or.inr (Or.inr ⟨_, hlimit, rfl⟩))

/-- Where the zeros can be described, elimination finds the description or gives up. -/
theorem solveWithin_of_describes (h : ∀ e ∈ equations, e.IsPolynomial)
    (hs : Describes s equations) (limit : Nat) :
    solveWithin limit equations = .ok s ∨
      ∃ f, solveWithin limit equations = .error f ∧ f.isUnsupported = true := by
  rcases solveWithin_cases_of_isPolynomial h limit with
    ⟨t, hok, ht⟩ | ⟨left, _, hnone⟩ | ⟨x, _, hnot⟩ | hunsupported
  · rw [hs.unique ht]
    exact Or.inl hok
  · exact absurd (hs.zeroAt fun _ => 0) (hnone _)
  · exact absurd hs (hnot s)
  · exact Or.inr hunsupported

/-- The values of a solution are those of variables of the system. -/
theorem occurs_of_solveWithin {limit : Nat} (h : solveWithin limit equations = .ok s) {x : String}
    {q : Rat} (hx : s.get? x = some q) : Occurs equations x := by
  obtain ⟨n, bindings, hrun, hresolve⟩ := exists_run_of_solveWithin h
  obtain ⟨e, he, _⟩ := (get?_resolve_eq_some_iff hresolve).1 hx
  exact (drawnFrom_of_run hrun).bound x e he

/-- A description of the zeros tells under which assignments of the variables a system is zero. -/
theorem Describes.eval_iff (h : Describes s equations)
    (hnames : ∀ x q, s.get? x = some q → Occurs equations x) {v : Valuation}
    (hv : ∀ x, Occurs equations x → (v x).isSome) :
    (∀ e ∈ equations, e.eval v = .ok 0) ↔ ∀ x q, s.get? x = some q → v x = some q := by
  have hread : ∀ x, Occurs equations x → v x = some (v.read x) :=
    fun x hx => Valuation.eq_some_read (hv x hx)
  have hsame : ∀ e ∈ equations, e.eval v = e.eval (.total v.read) :=
    fun e he => eval_congr fun x hx => hread x ⟨e, he, hx⟩
  have hzero : (∀ e ∈ equations, e.eval v = .ok 0) ↔ ZeroAt v.read equations :=
    forall₂_congr fun e he => by rw [hsame e he]
  rw [hzero, h]
  refine forall₂_congr fun x q => imp_congr_right fun hx => ?_
  rw [hread x (hnames x q hx), Option.some.injEq]

/-- Elimination on polynomials never divides by zero. What it finds describes the zeros of the
system: an assignment of the variables makes all equations zero if and only if it has the values
that were found. In every order of the equations, and with every limit, the same is found or the
method gives up. -/
theorem solveWithin_of_isPolynomial {limit : Nat} (h : ∀ e ∈ equations, e.IsPolynomial) :
    solveWithin limit equations ≠ .error .divisionByZero ∧
      ∀ s, solveWithin limit equations = .ok s →
        (∀ v : Valuation, (∀ e ∈ equations, ∀ x ∈ e.occurrences, (v x).isSome) →
          ((∀ e ∈ equations, e.eval v = .ok 0) ↔ ∀ x q, s.get? x = some q → v x = some q)) ∧
        ∀ equations' limit', equations'.Perm equations →
          solveWithin limit' equations' = .ok s ∨
            ∃ f, solveWithin limit' equations' = .error f ∧ f.isUnsupported = true := by
  constructor
  · intro hresult
    have hcases := solveWithin_cases_of_isPolynomial h limit
    rw [hresult] at hcases
    -- None of the four results is a division by zero.
    rcases hcases with ⟨s, heq, _⟩ | ⟨left, heq, _⟩ | ⟨x, heq, _⟩ | ⟨f, heq, hf⟩
    · cases heq
    · cases heq
    · cases heq
    · cases heq
      cases hf
  · intro s hs
    obtain ⟨n, bindings, hrun, hresolve⟩ := exists_run_of_solveWithin hs
    have hdescribes := describes_of_resolve h hrun hresolve
    constructor
    · intro v hv
      apply hdescribes.eval_iff fun x q hx => occurs_of_solveWithin hs hx
      rintro x ⟨e, he, hx⟩
      exact hv e he x hx
    · intro equations' limit' hperm
      -- Being described does not depend on the order, and decides every run that is not cut off.
      apply solveWithin_of_describes (fun e he => h e (hperm.mem_iff.1 he))
      exact hdescribes.perm hperm

/-- Half of x is 1, and x times y is 6. The other way round the method does not get past the
product. -/
theorem solveWithin_of_isPolynomial_product :
    (∀ e ∈ [sub (fraction (var "x") (const 2)) one, sub (prod [var "x", var "y"]) (const 6)],
      e.IsPolynomial) ∧
    solveWithin 4 [sub (fraction (var "x") (const 2)) one,
        sub (prod [var "x", var "y"]) (const 6)] = .ok (NameMap.ofList [("x", 2), ("y", 3)]) ∧
    (∀ v : Valuation,
      (∀ e ∈ [sub (fraction (var "x") (const 2)) one, sub (prod [var "x", var "y"]) (const 6)],
        ∀ x ∈ e.occurrences, (v x).isSome) →
      ((∀ e ∈ [sub (fraction (var "x") (const 2)) one, sub (prod [var "x", var "y"]) (const 6)],
          e.eval v = .ok 0) ↔
        ∀ x q, (NameMap.ofList [("x", (2 : Rat)), ("y", 3)]).get? x = some q → v x = some q)) ∧
    (solveWithin 4 [sub (prod [var "x", var "y"]) (const 6),
        sub (fraction (var "x") (const 2)) one] = .ok (NameMap.ofList [("x", 2), ("y", 3)]) ∨
      ∃ f, solveWithin 4 [sub (prod [var "x", var "y"]) (const 6),
        sub (fraction (var "x") (const 2)) one] = .error f ∧ f.isUnsupported = true) := by
  have hpolynomial : ∀ e ∈ [sub (fraction (var "x") (const 2)) one,
      sub (prod [var "x", var "y"]) (const 6)], e.IsPolynomial := by
    have hhalf : (fraction (var "x") (const 2)).IsPolynomial :=
      isPolynomial_fraction_const (by simp [var, IsPolynomial, AllPolynomial]) two_ne_zero
    simpa [sub, neg, prod, var, one, const, IsPolynomial, AllPolynomial] using hhalf
  have hsolution : solveWithin 4 [sub (fraction (var "x") (const 2)) one,
      sub (prod [var "x", var "y"]) (const 6)] = .ok (NameMap.ofList [("x", 2), ("y", 3)]) := by
    cbv
  have hresult := (solveWithin_of_isPolynomial hpolynomial).2 _ hsolution
  exact ⟨hpolynomial, hsolution, hresult.1, hresult.2 _ 4 (List.Perm.swap _ _ _)⟩

end Equations

end RationalAlgebra
