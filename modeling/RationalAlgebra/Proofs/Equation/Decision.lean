import Mathlib
import RationalAlgebra.Proofs.Equation.Linear
import RationalAlgebra.Proofs.Equation.Solution

/-!
# Elimination decides linear systems

In a run from a linear system all equations stay linear and all bindings affine, so no variable
resists isolation, and each step either drops an equation or binds one more of the finitely many
variables of the system (`remaining_of_step`). The run therefore ends within as many steps as there
are equations and variables. When it ends with an empty queue the zeros of the system are the
valuations that agree with the bindings, one for each choice of the variables that are left free.

Main statement: `decides_solveWithin`.
-/

namespace RationalAlgebra

open RationalAlgebra.Expr RationalAlgebra.Equations

/-! ## Values of a set of names -/

/-- The values that a function gives to the names of a set. -/
noncomputable def restrict (names : Finset String) (f : String → Rat) : Solution :=
  NameMap.ofList (names.toList.map fun x => (x, f x))

/-- A restricted assignment holds the values of its names. -/
theorem get?_restrict (names : Finset String) (f : String → Rat) (x : String) :
    (restrict names f).get? x = if x ∈ names then some (f x) else none := by
  rw [restrict, NameMap.ofList, List.foldl_map, NameMap.get?_foldl_insert]
  simp

/-- Two assignments restrict to the same if they agree on the names. -/
theorem restrict_eq_restrict_iff {names : Finset String} {f g : String → Rat} :
    restrict names f = restrict names g ↔ ∀ x ∈ names, f x = g x := by
  constructor
  · intro h x hx
    have hget := congrArg (fun s : Solution => s.get? x) h
    simpa [get?_restrict, hx] using hget
  · intro h
    apply NameMap.ext_get?
    intro x
    rw [get?_restrict, get?_restrict]
    by_cases hx : x ∈ names
    · rw [if_pos hx, if_pos hx, h x hx]
    · rw [if_neg hx, if_neg hx]

namespace Expr

/-- The value of an affine expression changes with each of its variables. -/
theorem IsAffine.value_update_ne {e : Expr} (h : e.IsAffine) {x : String}
    (hx : x ∈ e.occurrences) {f : String → Rat} {q : Rat} (hne : q ≠ f x) :
    e.value (.total (Function.update f x q)) ≠ e.value (.total f) := by
  obtain ⟨c, hslope, _, hvalue⟩ := h.exists_slope x
  have hmoved := h.isPolynomial_filter fun t => !t.mentions x
  have hother := eval_total_update (not_mem_occurrences_moved e.addends x) f q
  rw [(hmoved.defined_total _).eval_eq, (hmoved.defined_total f).eval_eq,
    Except.ok.injEq] at hother
  intro heq
  rw [hvalue, hvalue, hother, add_left_inj, Function.update_self] at heq
  exact hne (mul_left_cancel₀ (hslope hx) heq)

/-- A variable occurs in the normal form of a linear expression exactly if the value can change with
it. -/
theorem IsLinear.mem_occurrences_iff {e : Expr} (h : e.IsLinear) {x : String} :
    x ∈ e.normalize.occurrences ↔
      ∃ f q, e.value (.total (Function.update f x q)) ≠ e.value (.total f) := by
  obtain ⟨hpolynomial, haffine⟩ := isLinear_iff.1 h
  constructor
  · intro hx
    -- The variable has a coefficient other than zero, so any change of it is seen.
    refine ⟨fun _ => 0, 1, ?_⟩
    rw [← hpolynomial.value_normalize, ← hpolynomial.value_normalize]
    exact haffine.value_update_ne hx one_ne_zero
  · rintro ⟨f, q, hne⟩
    by_contra hx
    apply hne
    rw [← hpolynomial.value_normalize, ← hpolynomial.value_normalize, ← Except.ok.injEq,
      ← (haffine.isPolynomial.defined_total _).eval_eq,
      ← (haffine.isPolynomial.defined_total _).eval_eq]
    exact eval_total_update hx f q

end Expr

namespace Equations

/-! ## Solutions -/

/-- The variables of a system: those that occur in the normal forms of its equations. -/
def systemVariables (equations : List Expr) : Finset String :=
  (equations.flatMap fun e => e.normalize.occurrences).toFinset

/-- A variable of a system occurs in the normal form of an equation. -/
theorem mem_systemVariables {equations : List Expr} {x : String} :
    x ∈ systemVariables equations ↔ ∃ e ∈ equations, x ∈ e.normalize.occurrences := by
  simp [systemVariables]

/-- A value for each variable of a system and for no other name, with which every equation is zero.
Variables that cancel in the normal forms may have any values. -/
def Solves (equations : List Expr) (solution : Solution) : Prop :=
  (∀ x, (solution.get? x).isSome ↔ x ∈ systemVariables equations) ∧
    ∀ v : Valuation, (∀ x q, solution.get? x = some q → v x = some q) →
      (∀ e ∈ equations, ∀ x ∈ e.occurrences, (v x).isSome) → ∀ e ∈ equations, e.eval v = .ok 0

variable {equations : List Expr}

/-- A polynomial has its value from the variables of its normal form. -/
theorem eval_eq_eval_of_eq {e : Expr} (he : e.IsPolynomial) {f : String → Rat} {v : Valuation}
    (hv : ∀ x ∈ e.occurrences, (v x).isSome)
    (hsame : ∀ x ∈ e.normalize.occurrences, v x = some (f x)) :
    e.eval v = e.eval (.total f) := by
  have hnormal : e.normalize.eval v = e.normalize.eval (.total f) := eval_congr hsame
  have hdefined := defined_normalize (he.defined hv)
  have hdefined' := defined_normalize (he.defined_total f)
  rw [hdefined.1.2.eval_eq, hdefined'.1.2.eval_eq, hdefined.2, hdefined'.2] at hnormal
  rw [(he.defined hv).eval_eq, (he.defined_total f).eval_eq, Except.ok.inj hnormal]

/-- The solutions are the zeros, as far as they concern the variables of the system. -/
theorem solves_iff (h : ∀ e ∈ equations, e.IsPolynomial) {solution : Solution} :
    Solves equations solution ↔
      ∃ f, ZeroAt f equations ∧ solution = restrict (systemVariables equations) f := by
  constructor
  · rintro ⟨hnames, hzero⟩
    -- Outside the variables of the system any value will do.
    refine ⟨fun x => (solution.get? x).getD 0, ?_, ?_⟩
    · apply hzero
      · intro x q hx
        simp [Valuation.total, hx]
      · exact fun _ _ _ _ => rfl
    · apply NameMap.ext_get?
      intro x
      simp only [get?_restrict, ← hnames]
      cases hx : solution.get? x with
      | none => rfl
      | some q => rfl
  · rintro ⟨f, hzero, rfl⟩
    constructor
    · intro x
      rw [get?_restrict]
      by_cases hx : x ∈ systemVariables equations
      · simp [hx]
      · simp [hx]
    · intro v hv hdefined e he
      have hsame : ∀ x ∈ e.normalize.occurrences, v x = some (f x) := by
        intro x hx
        apply hv
        rw [get?_restrict, if_pos (mem_systemVariables.2 ⟨e, he, hx⟩)]
      rw [eval_eq_eval_of_eq (h e he) (hdefined e he) hsame]
      exact hzero e he

/-- Whether a system is zero depends on its variables only. -/
theorem ZeroAt.congr (h : ∀ e ∈ equations, e.IsPolynomial) {f g : String → Rat}
    (hf : ZeroAt f equations) (hsame : ∀ x ∈ systemVariables equations, f x = g x) :
    ZeroAt g equations := by
  intro e he
  rw [← hf e he]
  apply eval_eq_eval_of_eq (h e he) fun _ _ => rfl
  intro x hx
  exact congrArg some (hsame x (mem_systemVariables.2 ⟨e, he, hx⟩)).symm

/-- A bound expression with a value is free of variables. -/
theorem occurrences_of_valueOf {e : Expr} {q : Rat} (h : valueOf e = .ok q) :
    e.occurrences = [] := by
  unfold valueOf at h
  split at h
  · cases h
  · rename_i hnone
    exact firstVariable?_eq_none.1 hnone

/-! ## Runs of linear systems -/

theorem forall_isPolynomial (h : ∀ e ∈ equations, e.IsLinear) : ∀ e ∈ equations, e.IsPolynomial :=
  fun e he => (h e he).1

/-- A state of a linear system: the equations are linear and the bindings affine, and both have
their variables from the system. -/
structure LinearState (names : Finset String) (s : State) : Prop where
  linear : ∀ e ∈ s.queue, e.IsLinear
  affine : AffineBindings s.bindings
  reduced : Reduced s.bindings
  queue_names : ∀ e ∈ s.queue, ∀ x ∈ e.normalize.occurrences, x ∈ names
  bound_names : ∀ x b, s.bindings.get? x = some b → x ∈ names ∧ ∀ y ∈ b.occurrences, y ∈ names

variable {names : Finset String} {s t : State}

/-- The state before the first step is linear. -/
theorem linearState_start (h : ∀ e ∈ equations, e.IsLinear) :
    LinearState (systemVariables equations) (.start equations) where
  linear := h
  affine := by
    intro x b hb
    cases hb
  reduced := reduced_empty
  queue_names := fun e he x hx => mem_systemVariables.2 ⟨e, he, hx⟩
  bound_names := by
    intro x b hb
    cases hb

/-- What is left of the first equation has its variables from the system. -/
theorem LinearState.present_names {equation : Expr} {queue : List Expr} {bindings : Bindings}
    (h : LinearState names ⟨equation :: queue, bindings⟩) {x : String}
    (hx : x ∈ (present bindings equation).occurrences) : x ∈ names := by
  rcases mem_occurrences_of_present h.affine (h.linear _ List.mem_cons_self) hx with
    hx | ⟨y, b, hb, hx⟩
  · exact h.queue_names _ List.mem_cons_self x hx
  · exact (h.bound_names y b hb).2 x hx

/-- Every step keeps a state linear. -/
theorem linearState_of_step (hstep : Step s t) (h : LinearState names s) : LinearState names t := by
  have hreduced := reduced_of_step hstep h.reduced
  cases hstep with
  | drop _ _ =>
    exact ⟨fun e he => h.linear e (List.mem_cons_of_mem _ he), h.affine, hreduced,
      fun e he => h.queue_names e (List.mem_cons_of_mem _ he), h.bound_names⟩
  | @bind equation value queue bindings name hname hvalue =>
    have hmem := mem_of_firstVariable? hname
    have hpresent := isAffine_present h.affine (h.linear _ List.mem_cons_self)
    -- An affine equation can be isolated for every variable it has, and the value found is affine.
    have hvalue' : value.IsAffine := by
      obtain ⟨value', hok, hvalue'⟩ := exists_isolate_eq_ok hpresent hmem
      rw [hvalue] at hok
      cases hok
      exact hvalue'
    have hnames : ∀ y ∈ value.occurrences, y ∈ names :=
      fun y hy => h.present_names (mem_occurrences_of_isolate hvalue hy).2
    refine ⟨?_, h.affine.extend hvalue', hreduced, ?_, ?_⟩
    · intro e he
      rcases List.mem_append.1 he with he | he
      · exact h.linear e (List.mem_cons_of_mem _ he)
      · rw [List.mem_singleton.1 he]
        exact hpresent.isLinear
    · intro e he x hx
      rcases List.mem_append.1 he with he | he
      · exact h.queue_names e (List.mem_cons_of_mem _ he) x hx
      · rw [List.mem_singleton.1 he, hpresent.normalize_eq] at hx
        exact h.present_names hx
    · intro x b hb
      -- The new expression has variables of the equation; the others may have received some of
      -- them.
      rcases get?_extend_eq_some hb with ⟨rfl, rfl⟩ | ⟨_, b', hb', rfl⟩
      · exact ⟨h.present_names hmem, hnames⟩
      · refine ⟨(h.bound_names x b' hb').1, fun y hy => ?_⟩
        rcases mem_occurrences_of_eliminateVariable hy with ⟨_, hy'⟩ | hy'
        · exact (h.bound_names x b' hb').2 y hy'
        · exact hnames y hy'

/-- The variables that are not bound. -/
def freeNames (names : Finset String) (bindings : Bindings) : Finset String :=
  names.filter fun x => (bindings.get? x).isNone

theorem mem_freeNames {bindings : Bindings} {x : String} :
    x ∈ freeNames names bindings ↔ x ∈ names ∧ bindings.get? x = none := by
  rw [freeNames, Finset.mem_filter, Option.isNone_iff_eq_none]

/-- How many steps are left: one for each equation and one for each variable that is not bound. -/
def remaining (names : Finset String) (s : State) : Nat :=
  s.queue.length + (freeNames names s.bindings).card

/-- A step uses up an equation or a variable. -/
theorem remaining_of_step (hstep : Step s t) (h : LinearState names s) :
    remaining names s = remaining names t + 1 := by
  cases hstep with
  | drop _ _ =>
    simp only [remaining, List.length_cons]
    omega
  | @bind equation value queue bindings name hname hvalue =>
    have hmem := mem_of_firstVariable? hname
    have hfree : name ∈ freeNames names bindings :=
      mem_freeNames.2 ⟨h.present_names hmem, unbound_of_mem_present h.reduced hmem⟩
    -- Binding a variable takes it from the free ones. The equation goes to the end of the queue, to
    -- be dropped later.
    have herase : freeNames names (extend bindings name value) =
        (freeNames names bindings).erase name := by
      ext x
      rw [Finset.mem_erase, mem_freeNames, mem_freeNames, get?_extend]
      by_cases hx : x = name
      · simp [hx]
      · simp [hx]
    have hcard := Finset.card_erase_add_one hfree
    simp only [remaining, herase, List.length_append, List.length_cons, List.length_nil]
    omega

/-- Every run keeps a state linear, and each step takes one from what remains. -/
theorem linearState_of_run {n : Nat} (hrun : Run n s t) (h : LinearState names s) :
    LinearState names t ∧ remaining names s = remaining names t + n := by
  induction hrun with
  | refl => exact ⟨h, rfl⟩
  | head hstep _ ih =>
    obtain ⟨hlast, hremaining⟩ := ih (linearState_of_step hstep h)
    refine ⟨hlast, ?_⟩
    rw [remaining_of_step hstep h, hremaining]
    omega

/-- A linear system that may take a step for each equation and for each variable halts. -/
theorem exists_halts (h : ∀ e ∈ equations, e.IsLinear) {limit : Nat}
    (hlimit : equations.length + (systemVariables equations).card ≤ limit) :
    ∃ n t, Run n (.start equations) t ∧ Halts t (solveWithin limit equations) := by
  obtain ⟨n, t, _, hrun, hend⟩ := eliminate_runs limit limit equations .empty
  refine ⟨n, t, hrun, ?_⟩
  rcases hend with hend | ⟨⟨rfl, hqueue⟩, _⟩
  · exact hend
  · -- After that many steps no equation can be left.
    exfalso
    have hremaining := (linearState_of_run hrun (linearState_start h)).2
    have hcard : (freeNames (systemVariables equations) .empty).card ≤
        (systemVariables equations).card := Finset.card_filter_le _ _
    have hlength : 0 < t.queue.length := List.length_pos_iff.2 hqueue
    simp only [remaining] at hremaining
    omega

/-! ## The last state -/

variable {bindings : Bindings}

/-- Where no variable is left in the bindings, the names that are not bound may have any value. -/
theorem agrees_update (hclosed : ∀ x b, bindings.get? x = some b → b.occurrences = [])
    {f : String → Rat} (h : Agrees (.total f) bindings) {x : String}
    (hx : bindings.get? x = none) (q : Rat) :
    Agrees (.total (Function.update f x q)) bindings := by
  intro y b hb
  have hy : y ≠ x := by
    rintro rfl
    rw [hx] at hb
    cases hb
  obtain ⟨r, hr, hvalue⟩ := h y b hb
  refine ⟨r, ?_, ?_⟩
  · rw [Valuation.total, Function.update_of_ne hy]
    exact hr
  · rw [eval_eq_evalClosed (hclosed y b hb)] at hvalue ⊢
    exact hvalue

section LastState

variable (h : ∀ e ∈ equations, e.IsLinear) {n : Nat}
  (hrun : Run n (.start equations) ⟨[], bindings⟩)

include h hrun

/-- A run without free variables in its bindings has bound every variable of the system. Otherwise
two zeros of the system would differ in one variable only. -/
theorem bound_of_closed (hclosed : ∀ x b, bindings.get? x = some b → b.occurrences = [])
    {x : String} (hx : x ∈ systemVariables equations) : (bindings.get? x).isSome := by
  by_contra hnot
  rw [Option.isSome_iff_ne_none, not_not] at hnot
  obtain ⟨f, hf, _⟩ := exists_zeroAt (forall_isPolynomial h) hrun (fun _ => 0)
  -- Were the variable free, it could be changed without changing any equation.
  have hother : ZeroAt (Function.update f x (f x + 1)) equations := by
    rw [zeroAt_iff_agrees (forall_isPolynomial h) hrun] at hf ⊢
    exact agrees_update hclosed hf hnot _
  obtain ⟨e, he, hmem⟩ := mem_systemVariables.1 hx
  obtain ⟨hpolynomial, haffine⟩ := isLinear_iff.1 (h e he)
  have hne : f x + 1 ≠ f x := by simp
  apply haffine.value_update_ne hmem hne
  rw [hpolynomial.value_normalize, hpolynomial.value_normalize, value_of_eval (hother e he),
    value_of_eval (hf e he)]

/-- Every zero has the values that were found, and every variable of the system has one. -/
theorem restrict_eq_of_zeroAt {solution : Solution} (hresolve : resolve bindings = .ok solution)
    {f : String → Rat} (hf : ZeroAt f equations) :
    restrict (systemVariables equations) f = solution := by
  have hstate := (linearState_of_run hrun (linearState_start h)).1
  have hagrees := (zeroAt_iff_agrees (forall_isPolynomial h) hrun).1 hf
  -- Where all expressions are constants, the assignment has their values.
  have hvalue : ∀ x b, bindings.get? x = some b → solution.get? x = some (f x) ∧
      b.occurrences = [] := by
    intro x b hb
    have htraverse := NameMap.get?_traverse hresolve x
    rw [hb, Option.map_some, Option.map_eq_some_iff] at htraverse
    obtain ⟨q, hq, hvalue⟩ := htraverse
    obtain ⟨r, hr, heval⟩ := hagrees x b hb
    rw [eval_of_valueOf hvalue.symm] at heval
    cases heval
    exact ⟨hq.trans hr.symm, occurrences_of_valueOf hvalue.symm⟩
  apply NameMap.ext_get?
  intro x
  rw [get?_restrict]
  split
  · rename_i hx
    have hbound := bound_of_closed h hrun (fun y b hb => (hvalue y b hb).2) hx
    obtain ⟨b, hb⟩ := Option.isSome_iff_exists.1 hbound
    exact (hvalue x b hb).1.symm
  · rename_i hx
    cases hget : solution.get? x with
    | none => rfl
    | some q =>
      obtain ⟨b, hb, _⟩ := (get?_resolve_eq_some_iff hresolve).1 hget
      exact absurd (hstate.bound_names x b hb).1 hx

/-- Values are found if no variable is free in the bindings, and they are the only solution. -/
theorem solves_iff_of_resolve_eq_ok {solution : Solution}
    (hresolve : resolve bindings = .ok solution) (s : Solution) :
    Solves equations s ↔ s = solution := by
  rw [solves_iff (forall_isPolynomial h)]
  constructor
  · rintro ⟨f, hf, rfl⟩
    exact restrict_eq_of_zeroAt h hrun hresolve hf
  · rintro rfl
    obtain ⟨f, hf, _⟩ := exists_zeroAt (forall_isPolynomial h) hrun (fun _ => 0)
    exact ⟨f, hf, (restrict_eq_of_zeroAt h hrun hresolve hf).symm⟩

/-- Where values are not found, a variable of the system is free. -/
theorem exists_free_of_resolve_eq_error {failure : Failure}
    (hresolve : resolve bindings = .error failure) :
    ∃ x, failure = .underdetermined x ∧ x ∈ systemVariables equations ∧
      bindings.get? x = none := by
  have hstate := (linearState_of_run hrun (linearState_start h)).1
  have hdefined := hstate.affine.expanded.bindingsDefined fun _ => 0
  obtain ⟨x, y, b, rfl, hb, hmem⟩ := resolve_eq_error hdefined hresolve
  exact ⟨x, rfl, (hstate.bound_names y b hb).2 x hmem, hstate.reduced y b hb x hmem⟩

/-- A free variable may have any value, so there are several solutions. -/
theorem exists_solves_ne {x : String} (hx : x ∈ systemVariables equations)
    (hfree : bindings.get? x = none) :
    ∃ s t, Solves equations s ∧ Solves equations t ∧ s ≠ t := by
  have hsolves : ∀ q, ∃ s, Solves equations s ∧ s.get? x = some q := by
    intro q
    obtain ⟨f, hf, hvalue⟩ := exists_zeroAt (forall_isPolynomial h) hrun (fun _ => q)
    refine ⟨restrict (systemVariables equations) f, ?_, ?_⟩
    · rw [solves_iff (forall_isPolynomial h)]
      exact ⟨f, hf, rfl⟩
    · rw [get?_restrict, if_pos hx, hvalue x hfree]
  -- Two values of the free variable give two solutions.
  obtain ⟨s, hs, hs'⟩ := hsolves 0
  obtain ⟨t, ht, ht'⟩ := hsolves 1
  refine ⟨s, t, hs, ht, ?_⟩
  rintro rfl
  rw [hs'] at ht'
  cases ht'

end LastState

/-- Elimination on a linear system finds its only solution, or a contradiction if there is none, or
a variable that is left free if there are several. -/
theorem solveWithin_cases (h : ∀ e ∈ equations, e.IsLinear) {limit : Nat}
    (hlimit : equations.length + (systemVariables equations).card ≤ limit) :
    (∃ solution, solveWithin limit equations = .ok solution ∧
        ∀ s, Solves equations s ↔ s = solution) ∨
      (∃ left, solveWithin limit equations = .error (.inconsistent left) ∧
        ∀ s, ¬ Solves equations s) ∨
      ∃ x, solveWithin limit equations = .error (.underdetermined x) ∧
        ∃ s t, Solves equations s ∧ Solves equations t ∧ s ≠ t := by
  obtain ⟨n, t, hrun, hend⟩ := exists_halts h hlimit
  have hstate := (linearState_of_run hrun (linearState_start h)).1
  generalize solveWithin limit equations = result at hend
  -- The elimination may end in three ways, one for each number of solutions; it is never stuck on
  -- affine equations.
  cases hend with
  | resolved bindings =>
    cases hresolve : resolve bindings with
    | ok solution =>
      exact Or.inl ⟨solution, rfl, solves_iff_of_resolve_eq_ok h hrun hresolve⟩
    | error failure =>
      obtain ⟨x, rfl, hx, hfree⟩ := exists_free_of_resolve_eq_error h hrun hresolve
      exact Or.inr (Or.inr ⟨x, rfl, exists_solves_ne h hrun hx hfree⟩)
  | inconsistent hclosed hzero =>
    refine Or.inr (Or.inl ⟨_, rfl, fun s hs => ?_⟩)
    obtain ⟨f, hf, _⟩ := (solves_iff (forall_isPolynomial h)).1 hs
    exact hzero (evalClosed_present_of_holds (holds_of_run hf hrun) hclosed)
  | stuck hname hvalue =>
    have hpresent := isAffine_present hstate.affine (hstate.linear _ List.mem_cons_self)
    obtain ⟨value, hok, _⟩ := exists_isolate_eq_ok hpresent (mem_of_firstVariable? hname)
    rw [hvalue] at hok
    cases hok

/-! ## The decision -/

/-- A result says how many solutions a system has: it gives the only one, or it is a contradiction
if there is none, or a free variable if there are several. -/
structure Decides (equations : List Expr) (result : Except Failure Solution) : Prop where
  unique : ∀ solution, result = .ok solution ↔
    Solves equations solution ∧ ∀ s, Solves equations s → s = solution
  inconsistent : (∃ left, result = .error (.inconsistent left)) ↔ ∀ s, ¬ Solves equations s
  underdetermined : (∃ x, result = .error (.underdetermined x)) ↔
    ∃ s t, Solves equations s ∧ Solves equations t ∧ s ≠ t

/-- Elimination decides a linear system within as many steps as it has equations and variables. -/
theorem decides_solveWithin {equations : List Expr} (h : ∀ e ∈ equations, e.IsLinear)
    {limit : Nat} (hlimit : equations.length + (systemVariables equations).card ≤ limit) :
    Decides equations (solveWithin limit equations) := by
  rcases solveWithin_cases h hlimit with
    ⟨solution, hresult, hunique⟩ | ⟨left, hresult, hnone⟩ | ⟨x, hresult, s, t, hs, ht, hne⟩
  · rw [hresult]
    -- In each case one kind of result is right and the other two are refuted.
    refine ⟨fun r => ?_, ?_, ?_⟩
    · rw [Except.ok.injEq]
      constructor
      · rintro rfl
        exact ⟨(hunique _).2 rfl, fun s hs => (hunique s).1 hs⟩
      · rintro ⟨hr, _⟩
        exact ((hunique r).1 hr).symm
    · simp [hunique]
    · simp [hunique]
  · rw [hresult]
    refine ⟨fun r => ?_, ?_, ?_⟩
    · simp [hnone]
    · simp [hnone]
    · simp [hnone]
  · rw [hresult]
    refine ⟨fun r => ?_, ?_, ?_⟩
    · have hnot : ¬ ∀ s, Solves equations s → s = r :=
        fun hall => hne ((hall s hs).trans (hall t ht).symm)
      simp [hnot]
    · constructor
      · rintro ⟨left, hleft⟩
        cases hleft
      · exact fun hnone => absurd hs (hnone s)
    · exact ⟨fun _ => ⟨s, t, hs, ht, hne⟩, fun _ => ⟨x, rfl⟩⟩

/-- A linear system is solved if it is zero somewhere, with the same values of its variables
wherever it is zero. -/
theorem solveWithin_eq_ok_iff {equations : List Expr} (h : ∀ e ∈ equations, e.IsLinear)
    {limit : Nat} (hlimit : equations.length + (systemVariables equations).card ≤ limit)
    {solution : Solution} : solveWithin limit equations = .ok solution ↔
      ∃ f, ZeroAt f equations ∧ solution = restrict (systemVariables equations) f ∧
        ∀ g, ZeroAt g equations → ∀ x ∈ systemVariables equations, g x = f x := by
  rw [(decides_solveWithin h hlimit).unique]
  simp only [solves_iff (forall_isPolynomial h)]
  constructor
  · rintro ⟨⟨f, hf, rfl⟩, hunique⟩
    refine ⟨f, hf, rfl, ?_⟩
    intro g hg
    exact restrict_eq_restrict_iff.1 (hunique _ ⟨g, hg, rfl⟩)
  · rintro ⟨f, hf, rfl, hunique⟩
    refine ⟨⟨f, hf, rfl⟩, ?_⟩
    rintro s ⟨g, hg, rfl⟩
    exact restrict_eq_restrict_iff.2 (hunique g hg)

-- The second equation says the same as the first, so the second variable is left free.
example : solveWithin 4 [sum [var "x", var "y"], sum [var "y", var "x"]] =
    .error (.underdetermined "y") := by
  cbv

end Equations

end RationalAlgebra
