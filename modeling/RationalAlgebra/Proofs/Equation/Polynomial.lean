import Mathlib
import RationalAlgebra.Proofs.Equation.Solution
import RationalAlgebra.Proofs.Normal.Affine

/-!
# Systems of polynomials

In a run from a system of polynomials every equation stays a polynomial and every binding is a
combination of power products (`polynomialState_of_run`), so everything has a value wherever its
variables have. The last bindings then describe the zeros of the system exactly: the variables that
are not bound may have any values, and each bound variable has the value of its expression.

Main statements: `zeroAt_iff_agrees` and `exists_zeroAt`.
-/

namespace RationalAlgebra

open RationalAlgebra.Expr RationalAlgebra.Equations

/-- Maps that hold the same are the same. -/
theorem NameMap.ext_get? {α : Type} {m m' : NameMap α} (h : ∀ x, m.get? x = m'.get? x) :
    m = m' := by
  have hnodup : ∀ k : NameMap α, k.entries.Nodup :=
    fun k => List.Nodup.of_map Prod.fst k.nodup_names
  have hperm : m.entries.Perm m'.entries := by
    rw [List.perm_ext_iff_of_nodup (hnodup m) (hnodup m')]
    rintro ⟨x, q⟩
    rw [← m.get?_eq_some_iff, ← m'.get?_eq_some_iff, h]
  have hentries : m.entries = m'.entries := by
    refine hperm.eq_of_pairwise (fun a b _ _ hab hba => ?_) (List.pairwise_map.1 m.sorted)
      (List.pairwise_map.1 m'.sorted)
    exact absurd (String.lt_trans hab hba) (String.lt_irrefl _)
  cases m
  cases m'
  cases hentries
  rfl

variable {bindings : Bindings} {name : String}

namespace Expr

/-! ## Substitution -/

/-- Polynomials put into a polynomial make a polynomial. -/
theorem IsPolynomial.replace {e : Expr} (he : e.IsPolynomial)
    (hbindings : ∀ x b, bindings.get? x = some b → b.IsPolynomial) :
    (e.replace bindings).IsPolynomial := by
  induction e using tree_induction with
  | sum es ih =>
    rw [isPolynomial_sum] at he
    rw [replace_sum, isPolynomial_sum, List.forall_mem_map]
    exact fun e hmem => ih e hmem (he e hmem)
  | product c vs fs ih =>
    rw [IsPolynomial, allPolynomial_iff] at he
    rw [replace_product, IsPolynomial, allPolynomial_iff, List.forall_mem_append,
      List.forall_mem_map]
    refine ⟨fun f hf => ih f hf (he f hf), fun b hb => ?_⟩
    -- A new factor is the expression of a variable.
    obtain ⟨x, _, hx⟩ := mem_replacements.1 hb
    exact hbindings x b hx
  | fraction n d ihn _ =>
    rw [IsPolynomial] at he
    obtain ⟨hn, hd, hclosed, hvalue⟩ := he
    -- The denominator is free of variables, so it stays.
    have hsame : d.replace bindings = d := replace_of_unbound (by simp [hclosed])
    rw [replace_fraction, hsame, IsPolynomial]
    exact ⟨ihn hn, hd, hclosed, hvalue⟩

end Expr

namespace Equations

/-- Every bound expression is a combination of power products. -/
def ExpandedBindings (bindings : Bindings) : Prop :=
  ∀ x b, bindings.get? x = some b → b.IsExpanded

/-- Replacing variables by polynomials keeps an expression polynomial. -/
theorem ExpandedBindings.isPolynomial_replace (h : ExpandedBindings bindings) {e : Expr}
    (he : e.IsPolynomial) : (e.replace bindings).IsPolynomial :=
  he.replace fun x b hb => (h x b hb).isPolynomial

/-- Through such bindings every name still has a value. -/
theorem ExpandedBindings.exists_through_eq (h : ExpandedBindings bindings) (f : String → Rat) :
    ∃ g, (Valuation.total f).through bindings = .total g ∧
      (∀ x b, bindings.get? x = some b → g x = b.value (.total f)) ∧
      ∀ x, bindings.get? x = none → g x = f x := by
  refine ⟨((Valuation.total f).through bindings).read, ?_, ?_, ?_⟩
  · funext x
    -- Every variable has a value, its own or that of its expression, so the valuation is total.
    have hsome : ((Valuation.total f).through bindings x).isSome := by
      cases hx : bindings.get? x with
      | none =>
        rw [through_of_unbound hx]
        rfl
      | some b => exact (isSome_through_of_bound hx).2 ((h x b hx).isPolynomial.defined_total f)
    exact Valuation.eq_some_read hsome
  · exact fun x b hx => read_through_of_bound hx ((h x b hx).isPolynomial.defined_total f)
  · intro x hx
    rw [Valuation.read, through_of_unbound hx]
    rfl

/-- Its value is that of the expression, read through the replacements. -/
theorem ExpandedBindings.value_replace (h : ExpandedBindings bindings) {e : Expr}
    (he : e.IsPolynomial) (f : String → Rat) : (e.replace bindings).value (.total f) =
      e.value ((Valuation.total f).through bindings) := by
  obtain ⟨g, hg, _⟩ := h.exists_through_eq f
  have hreplace := @defined_replace (.total f) bindings e
  rw [hg] at hreplace ⊢
  exact hreplace.2 (he.defined_total g)

/-- What is left of a polynomial is what is left of its normal form. -/
theorem ExpandedBindings.present_normalize (h : ExpandedBindings bindings) {e : Expr}
    (he : e.IsPolynomial) : present bindings e.normalize = present bindings e := by
  have hnormal := (isExpanded_normalize he).isPolynomial
  apply (h.isPolynomial_replace hnormal).normalize_eq (h.isPolynomial_replace he)
  intro f
  rw [h.value_replace hnormal, h.value_replace he]
  obtain ⟨g, hg, _⟩ := h.exists_through_eq f
  rw [hg]
  exact he.value_normalize g

/-- What is left of a polynomial is a combination of power products. -/
theorem isExpanded_present (h : ExpandedBindings bindings) {e : Expr} (he : e.IsPolynomial) :
    (present bindings e).IsExpanded :=
  isExpanded_normalize (h.isPolynomial_replace he)

theorem expandedBindings_single {value : Expr} (hvalue : value.IsExpanded) :
    ExpandedBindings (NameMap.empty.insert name value) := by
  intro x b hb
  obtain ⟨_, rfl⟩ := get?_single_eq_some hb
  exact hvalue

/-- A further polynomial is substituted into the others, which stay multiplied out. -/
theorem ExpandedBindings.extend (h : ExpandedBindings bindings) {value : Expr}
    (hvalue : value.IsExpanded) : ExpandedBindings (extend bindings name value) :=
  forall_extend h hvalue fun _ he =>
    isExpanded_present (expandedBindings_single hvalue) he.isPolynomial

end Equations

namespace Expr

/-! ## Isolation -/

/-- A polynomial over a constant other than zero is polynomial. -/
theorem isPolynomial_fraction_const {e : Expr} (h : e.IsPolynomial) {c : Rat} (hc : c ≠ 0) :
    (fraction e (const c)).IsPolynomial := by
  refine ⟨h, ?_, rfl, c, rfl, hc⟩
  simp [const, IsPolynomial, AllPolynomial]

/-- The terms of a polynomial expression are polynomial. -/
theorem IsPolynomial.addends {e t : Expr} (h : e.IsPolynomial) (ht : t ∈ e.addends) :
    t.IsPolynomial := by
  cases e with
  | sum es => exact isPolynomial_sum.1 h t ht
  | product c vs fs => rwa [List.mem_singleton.1 ht]
  | fraction n d => rwa [List.mem_singleton.1 ht]

/-- Both sides of a round are combinations of power products. -/
theorem isExpanded_round (name : String) {right : Expr} {terms : List Expr}
    (hright : right.IsPolynomial) (hterms : ∀ t ∈ terms, t.IsPolynomial) :
    (keptSide name terms).IsExpanded ∧ (movedSide name right terms).IsExpanded := by
  constructor
  · apply isExpanded_normalize
    exact isPolynomial_sum.2 fun t ht => hterms t (List.mem_of_mem_filter ht)
  · apply isExpanded_normalize
    rw [isPolynomial_sum, List.forall_mem_cons, List.forall_mem_map]
    exact ⟨hright, fun t ht => isPolynomial_scaled (hterms t (List.mem_of_mem_filter ht))⟩

/-- What is isolated in a polynomial equation is multiplied out: every round keeps both sides
polynomial. -/
theorem Rounds.isExpanded {n : Nat} {right E : Expr} {terms : List Expr}
    (hright : right.IsPolynomial) (hterms : ∀ t ∈ terms, t.IsPolynomial)
    (h : Rounds name n right terms (.ok E)) : E.IsExpanded := by
  generalize hresult : (Except.ok E : Except Failure Expr) = result at h
  induction h with
  | missing _ => cases hresult
  | stuck _ _ _ => cases hresult
  | isolated _ hk =>
    cases hresult
    obtain ⟨_, hmoved⟩ := isExpanded_round name hright hterms
    have hne := (exists_quotient_of_coefficientOf? hk).1
    exact isExpanded_normalize (isPolynomial_fraction_const hmoved.isPolynomial hne)
  | again _ _ hnext _ _ ih =>
    obtain ⟨hkept, hmoved⟩ := isExpanded_round name hright hterms
    -- The kept side is a sum again, and its addends go into the next round.
    rw [hnext] at hkept
    exact ih hmoved.isPolynomial (isPolynomial_sum.1 hkept.isPolynomial) hresult

/-- What a variable of a polynomial is isolated to is a combination of power products. -/
theorem isExpanded_isolate {e E : Expr} (he : e.IsPolynomial) (h : e.isolate name = .ok E) :
    E.IsExpanded := by
  have hnormal := (isExpanded_normalize he).isPolynomial
  obtain ⟨n, hrounds⟩ := exists_rounds_of_isolate h
  exact hrounds.isExpanded isExpanded_zero.isPolynomial fun t ht => hnormal.addends ht

end Expr

namespace Equations

/-! ## Runs -/

/-- A state of a system of polynomials. -/
structure PolynomialState (s : State) : Prop where
  polynomial : ∀ e ∈ s.queue, e.IsPolynomial
  expanded : ExpandedBindings s.bindings

/-- Every step keeps a state polynomial. -/
theorem polynomialState_of_step {s t : State} (hstep : Step s t) (h : PolynomialState s) :
    PolynomialState t := by
  cases hstep with
  | drop _ _ => exact ⟨fun e he => h.polynomial e (List.mem_cons_of_mem _ he), h.expanded⟩
  | bind hname hvalue =>
    have hpresent :=
      (isExpanded_present h.expanded (h.polynomial _ List.mem_cons_self)).isPolynomial
    refine ⟨?_, h.expanded.extend (isExpanded_isolate hpresent hvalue)⟩
    intro e he
    rcases List.mem_append.1 he with he | he
    · exact h.polynomial e (List.mem_cons_of_mem _ he)
    · rwa [List.mem_singleton.1 he]

variable {equations : List Expr}

theorem polynomialState_of_run (h : ∀ e ∈ equations, e.IsPolynomial) {n : Nat} {s : State}
    (hrun : Run n (.start equations) s) : PolynomialState s := by
  have hstart : PolynomialState (.start equations) := by
    refine ⟨h, ?_⟩
    intro x b hb
    cases hb
  exact hrun.invariant (fun _ _ => polynomialState_of_step) hstart

/-- Polynomial bindings have values everywhere. -/
theorem ExpandedBindings.bindingsDefined (h : ExpandedBindings bindings) (f : String → Rat) :
    BindingsDefined (.total f) bindings :=
  fun x b hb => (h x b hb).isPolynomial.defined_total f

/-! ## Zeros -/

/-- All equations are zero. -/
def ZeroAt (f : String → Rat) (equations : List Expr) : Prop :=
  ∀ e ∈ equations, e.eval (.total f) = .ok 0

/-- The bindings can be agreed with whatever values the other names have. -/
theorem exists_agrees (hexpanded : ExpandedBindings bindings) (hreduced : Reduced bindings)
    (g : String → Rat) :
    ∃ f, Agrees (.total f) bindings ∧ ∀ x, bindings.get? x = none → f x = g x := by
  obtain ⟨f, _, hbound, hfree⟩ := hexpanded.exists_through_eq g
  refine ⟨f, ?_, hfree⟩
  intro x b hb
  -- No bound expression mentions a bound variable, so it has its value from the free ones.
  have hsame : b.eval (.total f) = b.eval (.total g) :=
    hreduced.eval_congr hb fun y hy => congrArg some (hfree y hy)
  refine ⟨f x, rfl, ?_⟩
  rw [hsame, ((hexpanded x b hb).isPolynomial.defined_total g).eval_eq, hbound x b hb]

section LastState

variable (h : ∀ e ∈ equations, e.IsPolynomial) {n : Nat}
  (hrun : Run n (.start equations) ⟨[], bindings⟩)

include h hrun

/-- What a run from a system of polynomials leaves behind has the zeros of the system. -/
theorem zeroAt_iff_agrees {f : String → Rat} :
    ZeroAt f equations ↔ Agrees (.total f) bindings := by
  constructor
  · intro hzero
    exact (holds_of_run hzero hrun).1
  · intro hagrees e he
    have hdefined : ∀ m u, Run m (.start equations) u → BindingsDefined (.total f) u.bindings :=
      fun m u hu => (polynomialState_of_run h hu).expanded.bindingsDefined f
    have hlast : Vanishes (.total f) ⟨[], bindings⟩ := ⟨hagrees, by simp⟩
    have hfirst := vanishes_of_run hrun reduced_empty hdefined hlast
    exact hfirst.eval_eq_zero (fun e he => (h e he).defined_total f) e he

/-- The system has a zero for all values of the variables that are left free. -/
theorem exists_zeroAt (g : String → Rat) :
    ∃ f, ZeroAt f equations ∧ ∀ x, bindings.get? x = none → f x = g x := by
  have hexpanded := (polynomialState_of_run h hrun).expanded
  obtain ⟨f, hf, hfree⟩ := exists_agrees hexpanded (reduced_of_run hrun) g
  exact ⟨f, (zeroAt_iff_agrees h hrun).2 hf, hfree⟩

end LastState

end Equations

end RationalAlgebra
