import Mathlib
import RationalAlgebra.Proofs.Equation.Isolable
import RationalAlgebra.Proofs.Equation.Steps
import RationalAlgebra.Proofs.Normal.LinearCombination

/-!
# Multiples of equations

An equation stays the same equation when it is multiplied by a rational other than zero, and when
its two sides are exchanged. Its normal form is then multiplied, and so is what is left of it under
any bindings (`present_scale`). A multiple has the same variables at the same places
(`occurrences_scale`), and a variable is isolated in it to the same expression, from which the
factor has cancelled (`isolate_of_scale`).

So two systems whose equations are multiples of each other go through their runs side by side: the
same variables are bound to the same expressions, and the queues stay multiples of each other
(`Alike.exists_step`, `Alike.exists_run`). They end after the same number of steps with the same
solution or with failures of the same kind, which may show different multiples of what is left of an
equation.

Main statement: `solveWithin_restated`.
-/

namespace RationalAlgebra

open RationalAlgebra.Expr

/-- Failures of one kind. They name the same variable, and may show different sides of an equation.
-/
inductive Failure.SameKind : Failure → Failure → Prop
  | refl (f : Failure) : SameKind f f
  | unsupportedIsolation (name : String) (left left' : Expr) :
      SameKind (.unsupportedIsolation name left) (.unsupportedIsolation name left')
  | inconsistent (left left' : Expr) : SameKind (.inconsistent left) (.inconsistent left')

/-- The same value, or failures of one kind. -/
inductive SameResult {α : Type} : Except Failure α → Except Failure α → Prop
  | ok (a : α) : SameResult (.ok a) (.ok a)
  | error {f f' : Failure} (h : f.SameKind f') : SameResult (.error f) (.error f')

theorem SameResult.refl {α : Type} (result : Except Failure α) : SameResult result result := by
  cases result with
  | ok a => exact SameResult.ok a
  | error f => exact SameResult.error (.refl f)

theorem SameResult.eq_ok {α : Type} {a : α} {result : Except Failure α}
    (h : SameResult (.ok a) result) : result = .ok a := by
  cases h with
  | ok a => rfl

/-- The same result as a failure is a failure of its kind. -/
theorem SameResult.exists_eq_error {α : Type} {f : Failure} {result : Except Failure α}
    (h : SameResult (.error f) result) : ∃ f', result = .error f' ∧ f.SameKind f' := by
  cases h with
  | error hkind => exact ⟨_, rfl, hkind⟩

namespace Expr

variable {name : String} {k : Rat}

/-! ## Multiples of normal forms -/

/-- The occurrences of an expression are those of the monomials of its addends. -/
theorem occurrences_eq_flatMap (e : Expr) :
    e.occurrences = e.addends.flatMap fun t => t.split.2.occurrences := by
  simp only [occurrences_split]
  cases e with
  | sum es => exact occurrencesList_eq es
  | product c vs fs => simp [addends]
  | fraction n d => simp [addends]

/-- A multiple of a canonical term, which may be zero, has the same monomial. -/
theorem split_scale (hk : k ≠ 0) {e : Expr} (h : e.Canonical) (hsum : ¬ e.IsSum) :
    (scale k e).split = (k * e.split.1, e.split.2) := by
  by_cases hzero : e = zero
  · rw [hzero, scale_zero]
    simp [zero, const, split]
  · exact (h.split_scale hsum (mul_ne_zero hk (split_fst_ne_zero h hzero))).2

/-- A multiple has the same variables at the same places. -/
theorem occurrences_scale (hk : k ≠ 0) {e : Expr} (h : e.Canonical) :
    (scale k e).occurrences = e.occurrences := by
  rw [occurrences_eq_flatMap, occurrences_eq_flatMap e, addends_scale hk h, List.flatMap_map]
  apply List.flatMap_congr
  intro t ht
  obtain ⟨hcanonical, hsum⟩ := h.forall_addends t ht
  rw [split_scale hk hcanonical hsum]

/-- The constant of a product multiplies all coefficients. -/
theorem coefficients_normalize_product (c : Rat) (vs : List String) (fs : List Expr) :
    (product c vs fs).normalize.coefficients = c • (product 1 vs fs).normalize.coefficients := by
  by_cases hc : c = 0
  · rw [hc, normalize, if_pos rfl, zero_smul, coefficients_zero]
  · have hfs : ∀ f ∈ normalizeList fs, f.Canonical := by
      rw [normalizeList_eq]
      exact List.forall_mem_map.2 fun f _ => canonical_normalize f
    have hrescaled := Factors.coefficients_expand_rescaled c ⟨1, vs, []⟩
      (Factors.singles (normalizeList fs) ++ Factors.distributed (normalizeList fs))
    rw [normalize, if_neg hc, normalize, if_neg one_ne_zero, coefficients_multiply c vs hfs,
      coefficients_multiply 1 vs hfs, ← hrescaled, Factors.rescaled, mul_one]

/-- The bindings may be put into the monomials of a canonical expression, and what is left is added
up with the coefficients. -/
theorem coefficients_present {e : Expr} (h : e.Canonical) (bindings : Bindings) :
    (e.replace bindings).normalize.coefficients = (e.addends.map fun t =>
      t.split.1 • (t.split.2.replace bindings).normalize.coefficients).sum := by
  -- A term with a coefficient is replaced as the multiple of its monomial is.
  have hterm : ∀ t : Expr, ¬ t.IsSum → (t.replace bindings).normalize.coefficients =
      t.split.1 • (t.split.2.replace bindings).normalize.coefficients := by
    intro t hsum
    cases t with
    | sum es => exact absurd trivial hsum
    | fraction n d => exact (one_smul _ _).symm
    | product c vs fs =>
      change _ = c • ((monomial vs fs).replace bindings).normalize.coefficients
      unfold monomial
      split
      · -- The monomial is a quotient, and the term a multiple of it.
        rw [replace_product]
        exact coefficients_normalize_multiple c _
      · rw [replace_product, replace_product]
        exact coefficients_normalize_product c _ _
  have hall : ∀ t ∈ e.addends, (t.replace bindings).normalize.coefficients =
      t.split.1 • (t.split.2.replace bindings).normalize.coefficients :=
    fun t ht => hterm t (h.forall_addends t ht).2
  rw [← List.map_congr_left hall]
  cases e with
  | sum es => rw [replace_sum, coefficients_normalize_sum, List.map_map]; rfl
  | product c vs fs => simp [addends]
  | fraction n d => simp [addends]

/-! ## Closed multiples -/

/-- A multiple is zero where the expression is. -/
theorem eval_scale_eq_zero (hk : k ≠ 0) {v : Valuation} {e : Expr} (h : e.Canonical)
    (hzero : e.eval v = .ok 0) : (scale k e).eval v = .ok 0 := by
  have hmultiple : (product k [] [e]).eval v = .ok 0 := by
    obtain ⟨hdefined, hvalue⟩ := eval_eq_ok_iff.1 hzero
    refine eval_eq_ok_iff.2 ⟨?_, ?_⟩
    · simpa using hdefined
    · simp [hvalue]
  rw [← normalize_of_canonical h, ← normalize_multiple hk]
  exact eval_normalize hmultiple

/-- A nonzero multiple of a constant is zero exactly if the constant is. -/
theorem evalClosed_scale_eq_zero_iff (hk : k ≠ 0) {e : Expr} (h : e.Canonical) :
    (scale k e).evalClosed = .ok 0 ↔ e.evalClosed = .ok 0 := by
  constructor
  · intro hzero
    have hback := eval_scale_eq_zero (inv_ne_zero hk) (canonical_scale k h) hzero
    rwa [scale_inv_scale hk h] at hback
  · exact eval_scale_eq_zero hk h

/-! ## Isolation in a multiple -/

/-- What is isolated in an equation is isolated in its multiples, with the same value. -/
theorem isolate_of_scale (hk : k ≠ 0) {e e' E : Expr} (h : e'.normalize = scale k e.normalize)
    (hE : e.isolate name = .ok E) : e'.isolate name = .ok E := by
  obtain ⟨hcanonical, hname, c, hc, hcoefficients⟩ := isolate_eq_ok_iff.1 hE
  refine isolate_eq_ok_iff.2 ⟨hcanonical, hname, k * c, mul_ne_zero hk hc, ?_⟩
  rw [h, coefficients_scale k (canonical_normalize e), hcoefficients, mul_smul]

/-- A variable is isolated in a multiple to the same expression, or for the same reason it is not.
-/
theorem isolate_sameResult (hk : k ≠ 0) {e e' : Expr} (h : e'.normalize = scale k e.normalize)
    (name : String) : SameResult (e.isolate name) (e'.isolate name) := by
  have hback : e.normalize = scale k⁻¹ e'.normalize := by
    rw [h, scale_inv_scale hk (canonical_normalize e)]
  have hmissing : e'.isolate name = .error (.variableNotFound name) ↔
      e.isolate name = .error (.variableNotFound name) := by
    rw [isolate_eq_variableNotFound_iff_not_mem, isolate_eq_variableNotFound_iff_not_mem, h,
      occurrences_scale hk (canonical_normalize e)]
  -- A value passes from either equation to the other, so both have one or none; then the kinds of
  -- failure are compared.
  cases hresult : e.isolate name with
  | ok E =>
    rw [isolate_of_scale hk h hresult]
    exact SameResult.ok E
  | error f =>
    cases hresult' : e'.isolate name with
    | ok E =>
      rw [isolate_of_scale (inv_ne_zero hk) hback hresult'] at hresult
      cases hresult
    | error f' =>
      rw [hresult, hresult'] at hmissing
      refine SameResult.error ?_
      rcases isolate_eq_error hresult with rfl | ⟨left, rfl⟩
      · cases hmissing.2 rfl
        exact Failure.SameKind.refl _
      · rcases isolate_eq_error hresult' with rfl | ⟨left', rfl⟩
        · cases hmissing.1 rfl
        · exact Failure.SameKind.unsupportedIsolation name left left'

end Expr

namespace Equations

variable {k : Rat} {name : String} {bindings : Bindings} {e e' : Expr}

/-! ## What is left of a multiple -/

/-- To put bindings into a multiple of a normal form gives the multiple. -/
theorem present_scale (hk : k ≠ 0) (h : e.Canonical) (bindings : Bindings) :
    present bindings (scale k e) = scale k (present bindings e) := by
  have hpresent := canonical_present bindings e
  apply (canonical_present bindings _).ext_coefficients (canonical_scale k hpresent)
  rw [coefficients_scale k hpresent, present, coefficients_present (canonical_scale k h), present,
    coefficients_present h, addends_scale hk h, List.map_map, List.smul_sum, List.map_map]
  congr 1
  apply List.map_congr_left
  intro t ht
  obtain ⟨hcanonical, hsum⟩ := h.forall_addends t ht
  simp only [Function.comp_apply, split_scale hk hcanonical hsum, mul_smul]

/-- Under all bindings the one equation is the same multiple of the other. -/
def Proportional (e e' : Expr) : Prop :=
  ∃ k : Rat, k ≠ 0 ∧ ∀ bindings, present bindings e' = scale k (present bindings e)

/-- What is left of proportional equations is proportional. -/
theorem proportional_present (h : Proportional e e') (bindings : Bindings) :
    Proportional (present bindings e) (present bindings e') := by
  obtain ⟨k, hk, hpresent⟩ := h
  rw [hpresent]
  exact ⟨k, hk, present_scale hk (canonical_present bindings e)⟩

/-- Proportional equations have the same variables in every state. -/
theorem Proportional.occurrences_present (h : Proportional e e') (bindings : Bindings) :
    (present bindings e').occurrences = (present bindings e).occurrences := by
  obtain ⟨k, hk, hpresent⟩ := h
  rw [hpresent, occurrences_scale hk (canonical_present bindings e)]

/-- They are isolated for the same variable. -/
theorem Proportional.firstVariable?_present (h : Proportional e e') (bindings : Bindings) :
    (present bindings e').firstVariable? = (present bindings e).firstVariable? := by
  rw [firstVariable?, firstVariable?, h.occurrences_present]

/-- They hold or fail together when no variable is left. -/
theorem Proportional.evalClosed_present (h : Proportional e e') (bindings : Bindings) :
    (present bindings e').evalClosed = .ok 0 ↔ (present bindings e).evalClosed = .ok 0 := by
  obtain ⟨k, hk, hpresent⟩ := h
  rw [hpresent, evalClosed_scale_eq_zero_iff hk (canonical_present bindings e)]

/-- They give the same expression for a variable, or fail in the same way. -/
theorem Proportional.isolate_present (h : Proportional e e') (bindings : Bindings) (name : String) :
    SameResult ((present bindings e).isolate name) ((present bindings e').isolate name) := by
  obtain ⟨k, hk, hpresent⟩ := h
  have hnormal := canonical_present bindings e
  apply isolate_sameResult hk
  rw [hpresent, normalize_of_canonical hnormal, normalize_of_canonical (canonical_scale k hnormal)]

/-! ## Restated equations -/

/-- The same equation, written as a multiple or with its two sides exchanged, and this as often as
one likes. -/
inductive Restated : Expr → Expr → Prop
  | same (e : Expr) : Restated e e
  | multiple (k : Rat) (hk : k ≠ 0) (e : Expr) : Restated e (product k [] [e])
  | exchanged (l r : Expr) : Restated (sub l r) (sub r l)
  | trans {e e' e'' : Expr} (h : Restated e e') (h' : Restated e' e'') : Restated e e''

/-- A multiple of an equation stays one in every state. -/
theorem present_multiple (hk : k ≠ 0) (bindings : Bindings) (e : Expr) :
    present bindings (product k [] [e]) = scale k (present bindings e) := by
  rw [present, replace_product]
  exact normalize_multiple hk _

/-- With its sides exchanged an equation is its negative in every state. -/
theorem present_exchanged (bindings : Bindings) (l r : Expr) :
    present bindings (sub r l) = scale (-1) (present bindings (sub l r)) := by
  have hnormal := canonical_present bindings (sub l r)
  apply (canonical_present _ _).ext_coefficients (canonical_scale _ hnormal)
  rw [coefficients_scale _ hnormal, present, present, replace_sub, replace_sub,
    coefficients_normalize_sub, coefficients_normalize_sub, neg_one_smul, neg_sub]

/-- A restated equation is proportional to the original, in every state by the same factor. -/
theorem Restated.proportional (h : Restated e e') : Proportional e e' := by
  induction h with
  | same e =>
    refine ⟨1, one_ne_zero, fun bindings => ?_⟩
    rw [scale_one (canonical_present bindings e)]
  | multiple k hk e => exact ⟨k, hk, fun bindings => present_multiple hk bindings e⟩
  | exchanged l r => exact ⟨-1, by norm_num, fun bindings => present_exchanged bindings l r⟩
  -- Factors of several changes multiply.
  | @trans e _ _ _ _ ih ih' =>
    obtain ⟨k, hk, hpresent⟩ := ih
    obtain ⟨k', hk', hpresent'⟩ := ih'
    refine ⟨k' * k, mul_ne_zero hk' hk, fun bindings => ?_⟩
    rw [hpresent', hpresent, scale_scale _ _ (canonical_present bindings e)]

/-- Before anything is bound an equation is its normal form. -/
theorem present_empty (e : Expr) : present .empty e = e.normalize := by
  rw [present, replace_of_unbound]
  intro x _
  exact NameMap.get?_empty x

/-- The normal form of a restated equation is a multiple of that of the equation. -/
theorem Restated.exists_scale (h : Restated e e') :
    ∃ k : Rat, k ≠ 0 ∧ e'.normalize = scale k e.normalize := by
  obtain ⟨k, hk, hpresent⟩ := h.proportional
  have hempty := hpresent .empty
  rw [present_empty, present_empty] at hempty
  exact ⟨k, hk, hempty⟩

/-! ## Runs side by side -/

/-- The same variables are bound to the same expressions, and the equations are multiples of each
other. -/
inductive Alike : State → State → Prop
  | intro {queue queue' : List Expr} (h : List.Forall₂ Proportional queue queue')
      (bindings : Bindings) : Alike ⟨queue, bindings⟩ ⟨queue', bindings⟩

variable {s s' t : State} {n : Nat} {result : Except Failure Solution}

theorem Alike.length_queue (h : Alike s s') : s'.queue.length = s.queue.length := by
  obtain ⟨hqueue, _⟩ := h
  exact hqueue.length_eq.symm

/-- The step that is made on one side is made on the other. -/
theorem Alike.exists_step (h : Alike s s') (hstep : Step s t) : ∃ t', Step s' t' ∧ Alike t t' := by
  obtain ⟨hqueue, bindings⟩ := h
  -- The step is decided by the first equation alone, which has a proportional one on the other
  -- side.
  cases hstep with
  | drop hclosed hzero =>
    obtain ⟨equation', rest, hfirst, hrest, rfl⟩ := List.forall₂_cons_left_iff.1 hqueue
    rw [← hfirst.occurrences_present] at hclosed
    rw [← hfirst.evalClosed_present] at hzero
    exact ⟨_, Step.drop hclosed hzero, Alike.intro hrest bindings⟩
  | @bind _ value _ _ name hname hvalue =>
    obtain ⟨equation', rest, hfirst, hrest, rfl⟩ := List.forall₂_cons_left_iff.1 hqueue
    have hisolate := hfirst.isolate_present bindings name
    rw [hvalue] at hisolate
    rw [← hfirst.firstVariable?_present] at hname
    -- The factor of the equation has cancelled from the value.
    refine ⟨_, Step.bind hname hisolate.eq_ok, Alike.intro ?_ _⟩
    have hfirst' := proportional_present hfirst bindings
    exact List.rel_append hrest (List.Forall₂.cons hfirst' List.Forall₂.nil)

/-- A run of steps is matched step by step. -/
theorem Alike.exists_run (h : Alike s s') (hrun : Run n s t) : ∃ t', Run n s' t' ∧ Alike t t' := by
  induction hrun generalizing s' with
  | refl s => exact ⟨s', Run.refl s', h⟩
  | head hstep _ ih =>
    obtain ⟨u', hstep', halike⟩ := h.exists_step hstep
    obtain ⟨t', hrun', halike'⟩ := ih halike
    exact ⟨t', Run.head hstep' hrun', halike'⟩

/-- Where the run ends on one side it ends on the other. -/
theorem Alike.exists_halts (h : Alike s s') (hend : Halts s result) :
    ∃ result', Halts s' result' ∧ SameResult result result' := by
  obtain ⟨hqueue, bindings⟩ := h
  -- So is the end.
  cases hend with
  | resolved _ =>
    cases hqueue
    exact ⟨_, Halts.resolved bindings, SameResult.refl _⟩
  | inconsistent hclosed hzero =>
    obtain ⟨equation', rest, hfirst, _, rfl⟩ := List.forall₂_cons_left_iff.1 hqueue
    rw [← hfirst.occurrences_present] at hclosed
    rw [ne_eq, ← hfirst.evalClosed_present] at hzero
    exact ⟨_, Halts.inconsistent hclosed hzero, SameResult.error (.inconsistent _ _)⟩
  | @stuck _ _ _ name f hname hvalue =>
    obtain ⟨equation', rest, hfirst, _, rfl⟩ := List.forall₂_cons_left_iff.1 hqueue
    have hisolate := hfirst.isolate_present bindings name
    rw [hvalue] at hisolate
    rw [← hfirst.firstVariable?_present] at hname
    obtain ⟨f', hvalue', hkind⟩ := hisolate.exists_eq_error
    exact ⟨_, Halts.stuck hname hvalue', SameResult.error hkind⟩

/-- Systems of multiples of each other end after the same number of steps. -/
theorem exists_ends_of_proportional {equations equations' : List Expr}
    (h : List.Forall₂ Proportional equations equations') (hends : Ends n equations result) :
    ∃ result', Ends n equations' result' ∧ SameResult result result' := by
  obtain ⟨m, t, hrun, hend, rfl⟩ := hends
  obtain ⟨t', hrun', halike⟩ := (Alike.intro h .empty).exists_run hrun
  obtain ⟨result', hend', hsame⟩ := halike.exists_halts hend
  refine ⟨result', ⟨m, t', hrun', hend', ?_⟩, hsame⟩
  rw [halike.length_queue]

/-- It does not matter how the equations are written. If each of them is multiplied by a rational
other than zero, or its two sides are exchanged, then under every limit the system has the same
solution or fails in the same way; and a variable is isolated in such an equation to the same
expression or fails to be isolated in the same way. -/
theorem solveWithin_restated :
    (∀ equations equations', List.Forall₂ Restated equations equations' → ∀ limit,
      SameResult (solveWithin limit equations) (solveWithin limit equations')) ∧
    ∀ e e', Restated e e' → ∀ name, SameResult (e.isolate name) (e'.isolate name) := by
  constructor
  · intro equations equations' h limit
    obtain ⟨n, result, hends⟩ := exists_ends equations
    have hproportional := h.imp fun _ _ => Restated.proportional
    obtain ⟨result', hends', hsame⟩ := exists_ends_of_proportional hproportional hends
    rw [hends.solveWithin_eq, hends'.solveWithin_eq]
    -- The limit cuts both off at the same number of steps.
    split
    · exact hsame
    · exact SameResult.refl _
  · intro e e' h name
    obtain ⟨k, hk, hnormal⟩ := h.exists_scale
    exact isolate_sameResult hk hnormal name

/-- The sides of an equation are exchanged, and the other, which holds a quotient, is multiplied. -/
theorem solveWithin_restated_two_equations :
    List.Forall₂ Restated
        [sub (var "y") (const 3), sub (product 2 ["x"] []) (fraction one (var "y"))]
        [sub (const 3) (var "y"),
          product (-3 / 4) [] [sub (product 2 ["x"] []) (fraction one (var "y"))]] ∧
      solveWithin 4 [sub (const 3) (var "y"),
          product (-3 / 4) [] [sub (product 2 ["x"] []) (fraction one (var "y"))]] =
        .ok ((NameMap.empty.insert "x" (1 / 6)).insert "y" 3) ∧
      (product (-3 / 4) [] [sub (product 2 ["x"] []) (fraction one (var "y"))]).isolate "x" =
        .ok (product (1 / 2) [] [fraction one (var "y")]) := by
  have hexchanged : Restated (sub (var "y") (const 3)) (sub (const 3) (var "y")) :=
    Restated.exchanged _ _
  have hmultiple : Restated (sub (product 2 ["x"] []) (fraction one (var "y")))
      (product (-3 / 4) [] [sub (product 2 ["x"] []) (fraction one (var "y"))]) :=
    Restated.multiple _ (by norm_num) _
  have hrestated := List.Forall₂.cons hexchanged (List.Forall₂.cons hmultiple List.Forall₂.nil)
  have hsolution : solveWithin 4
      [sub (var "y") (const 3), sub (product 2 ["x"] []) (fraction one (var "y"))] =
      .ok ((NameMap.empty.insert "x" (1 / 6)).insert "y" 3) := by
    cbv
  have hvalue : (sub (product 2 ["x"] []) (fraction one (var "y"))).isolate "x" =
      .ok (product (1 / 2) [] [fraction one (var "y")]) := by
    cbv
  have hsame := solveWithin_restated.1 _ _ hrestated 4
  have hsame' := solveWithin_restated.2 _ _ hmultiple "x"
  rw [hsolution] at hsame
  rw [hvalue] at hsame'
  exact ⟨hrestated, hsame.eq_ok, hsame'.eq_ok⟩

-- What is left of the equation is shown in the failure, and it is a multiple.
example : solve [one] = .error (.inconsistent one) ∧
    solve [product 2 [] [one]] = .error (.inconsistent (const 2)) := by
  constructor
  · cbv
  · cbv

end Equations

end RationalAlgebra
