import Mathlib
import RationalAlgebra.Proofs.Equation.Run

/-!
# What a solution says about its system

Along a run two things are compared: a valuation that makes the equations of the queue zero, and the
bindings, with which it agrees. A valuation that makes the whole system zero keeps both from each
step to the next, so the loop cannot lose it (`solveWithin_of_eval_eq_zero`).

The way back needs more. A valuation that agrees with the last bindings agrees with those before
them as long as these have values at it. They may have none: when a variable is eliminated, terms
over a denominator that becomes zero can merge and disappear. Where every binding of the run has a
value, the equations are zero at every extension of the solution; and where the equations themselves
have values, nothing less will do (`eval_of_solveWithin`).
-/

namespace RationalAlgebra

open RationalAlgebra.Expr RationalAlgebra.Equations

variable {v : Valuation} {bindings : Bindings} {name : String} {value : Expr}

/-! ## Bindings before and after a step -/

/-- Where values agree with the bindings, an equation keeps its value as it is when its turn comes.
-/
theorem eval_present (h : Agrees v bindings) {e : Expr} {q : Rat} (he : e.eval v = .ok q) :
    (present bindings e).eval v = .ok q := by
  rw [← eval_replace_of_agrees h, eval_eq_ok_iff] at he
  obtain ⟨⟨_, hdefined⟩, hvalue⟩ := defined_normalize he.1
  exact eval_eq_ok_iff.2 ⟨hdefined, hvalue.trans he.2⟩

/-- A single binding agrees with values in which the variable has the value of its expression. -/
theorem agrees_single {q : Rat} (hname : v name = some q) (hvalue : value.eval v = .ok q) :
    Agrees v (NameMap.empty.insert name value) := by
  intro x e he
  obtain ⟨rfl, rfl⟩ := get?_single_eq_some he
  exact ⟨q, hname, hvalue⟩

/-- Where the new variable has the value of its expression, eliminating it changes nothing. -/
theorem eval_eliminateVariable {q r : Rat} {e : Expr} (hname : v name = some q)
    (hvalue : value.eval v = .ok q) (he : e.eval v = .ok r) :
    (eliminateVariable name value e).eval v = .ok r := by
  rcases eliminateVariable_cases name value e with ⟨heq, _⟩ | heq
  · rwa [heq]
  · rw [heq]
    exact eval_present (agrees_single hname hvalue) he

/-- Values that agree go on to agree when a variable with the value of its expression is bound. -/
theorem Agrees.extend {q : Rat} (h : Agrees v bindings) (hname : v name = some q)
    (hvalue : value.eval v = .ok q) : Agrees v (Equations.extend bindings name value) := by
  intro x e he
  rcases get?_extend_eq_some he with ⟨rfl, rfl⟩ | ⟨_, e', he', rfl⟩
  · exact ⟨q, hname, hvalue⟩
  · obtain ⟨r, hx, hr⟩ := h x e' he'
    exact ⟨r, hx, eval_eliminateVariable hname hvalue hr⟩

/-- Every bound expression has a value. -/
def BindingsDefined (v : Valuation) (bindings : Bindings) : Prop :=
  ∀ x e, bindings.get? x = some e → e.Defined v

/-- Where values agree with bindings, these have values. -/
theorem Agrees.bindingsDefined (h : Agrees v bindings) : BindingsDefined v bindings := by
  intro x e he
  obtain ⟨q, _, hq⟩ := h x e he
  exact ⟨q, hq⟩

/-- Agreement goes back over a step if what was bound before has a value. -/
theorem Agrees.of_extend (h : Agrees v (Equations.extend bindings name value))
    (hunbound : bindings.get? name = none) (hdefined : BindingsDefined v bindings) :
    Agrees v bindings := by
  have hnew : (Equations.extend bindings name value).get? name = some value := by
    rw [get?_extend, if_pos rfl]
  obtain ⟨q, hname, hvalue⟩ := h name value hnew
  intro x e he
  have hx : x ≠ name := by
    rintro rfl
    rw [hunbound] at he
    cases he
  -- Any other variable had an expression before, in which the new one has been replaced.
  have hget : (Equations.extend bindings name value).get? x =
      some (eliminateVariable name value e) := by
    rw [get?_extend, if_neg hx, he, Option.map_some]
  obtain ⟨r, hx, hr⟩ := h x _ hget
  obtain ⟨r', hr'⟩ := hdefined x e he
  -- The expression had this value before the variable was eliminated.
  rw [eval_eliminateVariable hname hvalue hr'] at hr
  cases hr
  exact ⟨r, hx, hr'⟩

/-! ## A zero of the system is kept -/

/-- The valuation agrees with the bindings, and the equations that are left are zero. -/
def Holds (v : Valuation) (s : State) : Prop :=
  Agrees v s.bindings ∧ ∀ e ∈ s.queue, e.eval v = .ok 0

/-- Where an equation is zero, its variable has the value of what it is isolated to. -/
theorem eval_isolate {e : Expr} (he : e.eval v = .ok 0) (hname : e.firstVariable? = some name)
    (hvalue : e.isolate name = .ok value) : ∃ q, v name = some q ∧ value.eval v = .ok q := by
  obtain ⟨hdefined, hzero⟩ := eval_eq_ok_iff.1 he
  obtain ⟨k, hne, hdifference⟩ := isolate_eq_ok hvalue
  obtain ⟨hdefined', heq⟩ := hdifference v hdefined
  rw [hzero, eq_comm, mul_eq_zero, or_iff_right hne, sub_eq_zero] at heq
  have hsome := hdefined.isSome_of_mem (mem_of_firstVariable? hname)
  obtain ⟨q, hq⟩ := Option.isSome_iff_exists.1 hsome
  refine ⟨q, hq, eval_eq_ok_iff.2 ⟨hdefined', ?_⟩⟩
  rw [← heq, Valuation.read_of_eq_some hq]

/-- A step keeps the equations at zero and the values in agreement. -/
theorem holds_of_step {s t : State} (hstep : Step s t) (h : Holds v s) : Holds v t := by
  obtain ⟨hagrees, hqueue⟩ := h
  cases hstep with
  | drop _ _ => exact ⟨hagrees, fun e he => hqueue e (List.mem_cons_of_mem _ he)⟩
  | bind hname hvalue =>
    have hpresent := eval_present hagrees (hqueue _ List.mem_cons_self)
    obtain ⟨q, hq, hvalue'⟩ := eval_isolate hpresent hname hvalue
    constructor
    · exact hagrees.extend hq hvalue'
    · intro e he
      rcases List.mem_append.1 he with he | he
      · exact hqueue e (List.mem_cons_of_mem _ he)
      · -- The equation at the back is the one whose variable was bound.
        rw [List.mem_singleton.1 he]
        exact hpresent

/-- At the start nothing is bound, so it is enough that the equations are zero. -/
theorem holds_start {equations : List Expr} (h : ∀ e ∈ equations, e.eval v = .ok 0) :
    Holds v (.start equations) := by
  refine ⟨?_, h⟩
  intro x e he
  cases he

/-- Every run keeps the equations at zero and the values in agreement. -/
theorem holds_of_run {equations : List Expr} {n : Nat} {s : State}
    (h : ∀ e ∈ equations, e.eval v = .ok 0) (hrun : Run n (.start equations) s) : Holds v s :=
  hrun.invariant (fun _ _ => holds_of_step) (holds_start h)

/-- A bound expression that has a value is free of variables, and has that value everywhere. -/
theorem eval_of_valueOf {e : Expr} {q : Rat} (h : valueOf e = .ok q) : e.eval v = .ok q := by
  unfold valueOf at h
  split at h
  · cases h
  · rename_i hnone
    rwa [eval_eq_evalClosed (firstVariable?_eq_none.1 hnone)]

/-- A solution has a value for exactly the bound variables, the value of what they are bound to. -/
theorem get?_resolve_eq_some_iff {solution : Solution} (h : resolve bindings = .ok solution)
    {x : String} {q : Rat} :
    solution.get? x = some q ↔ ∃ e, bindings.get? x = some e ∧ valueOf e = .ok q := by
  have htraverse := NameMap.get?_traverse h x
  cases hx : bindings.get? x with
  | none =>
    rw [hx, Option.map_none, Option.map_eq_none_iff] at htraverse
    simp [htraverse]
  | some e =>
    rw [hx, Option.map_some, Option.map_eq_some_iff] at htraverse
    obtain ⟨r, hr, hvalue⟩ := htraverse
    simp [hr, ← hvalue]

/-- A valuation that agrees with the bindings has the values of the solution. -/
theorem Agrees.of_resolve {solution : Solution} (h : Agrees v bindings)
    (hsolution : resolve bindings = .ok solution) {x : String} {q : Rat}
    (hx : solution.get? x = some q) : v x = some q := by
  obtain ⟨e, he, hvalue⟩ := (get?_resolve_eq_some_iff hsolution).1 hx
  obtain ⟨r, hr, heval⟩ := h x e he
  rw [eval_of_valueOf hvalue] at heval
  cases heval
  exact hr

/-- Where what is bound has a value, bindings are resolved unless a variable is left in one. -/
theorem resolve_eq_error {f : Failure} (h : BindingsDefined v bindings)
    (hf : resolve bindings = .error f) :
    ∃ x y e, f = .underdetermined x ∧ bindings.get? y = some e ∧ x ∈ e.occurrences := by
  obtain ⟨y, e, he, hvalue, _⟩ := NameMap.traverse_eq_error_iff.1 hf
  unfold valueOf at hvalue
  split at hvalue
  · rename_i x hx
    exact ⟨x, y, e, (Except.error.inj hvalue).symm, he, mem_of_firstVariable? hx⟩
  · rename_i hnone
    rw [← eval_eq_evalClosed (v := v) (firstVariable?_eq_none.1 hnone), (h y e he).eval_eq]
      at hvalue
    cases hvalue

/-- Where the equations are zero, what is left of the first is zero once it is free of variables. -/
theorem evalClosed_present_of_holds {equation : Expr} {queue : List Expr}
    (h : Holds v ⟨equation :: queue, bindings⟩)
    (hclosed : (present bindings equation).occurrences = []) :
    (present bindings equation).evalClosed = .ok 0 := by
  have hpresent := eval_present h.1 (h.2 _ List.mem_cons_self)
  rwa [eval_eq_evalClosed hclosed] at hpresent

/-- Where its equations are zero, a run ends with values that are there already, leaves a variable
free, or is beyond the method. -/
theorem result_of_holds {t : State} {result : Except Failure Solution} (hend : Halts t result)
    (h : Holds v t) :
    (∃ solution, result = .ok solution ∧ ∀ x q, solution.get? x = some q → v x = some q) ∨
      (∃ x, result = .error (.underdetermined x)) ∨ (∃ x, result = .error (.variableNotFound x)) ∨
        ∃ x left, result = .error (.unsupportedIsolation x left) := by
  -- A contradiction is ruled out because the equation is zero; isolation may still fail.
  cases hend with
  | resolved bindings =>
    have hagrees := h.1
    cases hresult : resolve bindings with
    | error f =>
      obtain ⟨x, _, _, rfl, _⟩ := resolve_eq_error hagrees.bindingsDefined hresult
      exact Or.inr (Or.inl ⟨x, rfl⟩)
    | ok solution =>
      exact Or.inl ⟨solution, rfl, fun x q hx => hagrees.of_resolve hresult hx⟩
  | inconsistent hclosed hzero =>
    exact absurd (evalClosed_present_of_holds h hclosed) hzero
  | stuck hname hvalue =>
    rcases isolate_eq_error hvalue with rfl | ⟨left, rfl⟩
    · exact Or.inr (Or.inr (Or.inl ⟨_, rfl⟩))
    · exact Or.inr (Or.inr (Or.inr ⟨_, left, rfl⟩))

/-- Where the system is zero, elimination does not end in a contradiction, and a solution has no
other values. -/
theorem solveWithin_of_eval_eq_zero {limit : Nat} {equations : List Expr}
    (h : ∀ e ∈ equations, e.eval v = .ok 0) :
    (∀ left, solveWithin limit equations ≠ .error (.inconsistent left)) ∧
      solveWithin limit equations ≠ .error .divisionByZero ∧
      ∀ solution, solveWithin limit equations = .ok solution →
        ∀ x q, solution.get? x = some q → v x = some q := by
  obtain ⟨n, t, _, hrun, hend⟩ := eliminate_runs limit limit equations .empty
  rw [solveWithin]
  rcases hend with hend | ⟨_, hlimit⟩
  · -- The equations are still zero in the last state.
    rcases result_of_holds hend (holds_of_run h hrun) with
      ⟨solution, heq, hvalues⟩ | ⟨x, heq⟩ | ⟨x, heq⟩ | ⟨x, left, heq⟩
    · rw [heq]
      refine ⟨by simp, by simp, ?_⟩
      intro solution' heq'
      cases heq'
      exact hvalues
    all_goals
      rw [heq]
      simp
  · rw [hlimit]
    simp

/-- A system with quotients that holds where a is 3, x is 2 and every other name is 6. -/
theorem solveWithin_quotients :
    (∀ e ∈ [sub (var "a") (fraction (var "z") (var "x")), sub (fraction (var "x") (const 2)) one,
        sub (var "z") (const 6)],
      e.eval (fun x => if x = "a" then some 3 else if x = "x" then some 2 else some 6) = .ok 0) ∧
    solveWithin 6 [sub (var "a") (fraction (var "z") (var "x")),
        sub (fraction (var "x") (const 2)) one, sub (var "z") (const 6)] =
      .ok (NameMap.ofList [("a", 3), ("x", 2), ("z", 6)]) ∧
    ∀ x q, (NameMap.ofList [("a", (3 : Rat)), ("x", 2), ("z", 6)]).get? x = some q →
      (if x = "a" then some 3 else if x = "x" then some 2 else some 6) = some q := by
  have hzero : ∀ e ∈ [sub (var "a") (fraction (var "z") (var "x")),
      sub (fraction (var "x") (const 2)) one, sub (var "z") (const 6)],
      e.eval (fun x => if x = "a" then some 3 else if x = "x" then some 2 else some 6) =
        .ok 0 := by
    simp only [List.forall_mem_cons]
    exact ⟨by cbv, by cbv, by cbv, by simp⟩
  have hsolution : solveWithin 6 [sub (var "a") (fraction (var "z") (var "x")),
      sub (fraction (var "x") (const 2)) one, sub (var "z") (const 6)] =
      .ok (NameMap.ofList [("a", 3), ("x", 2), ("z", 6)]) := by
    cbv
  exact ⟨hzero, hsolution, (solveWithin_of_eval_eq_zero hzero).2.2 _ hsolution⟩

/-! ## The way back -/

/-- The valuation agrees with the bindings, and no equation that is left has another value than
zero. -/
def Vanishes (v : Valuation) (s : State) : Prop :=
  Agrees v s.bindings ∧ ∀ e ∈ s.queue, ∀ q, e.eval v = .ok q → q = 0

/-- Equations that vanish wherever they have values are zero where they do. -/
theorem Vanishes.eval_eq_zero {s : State} (h : Vanishes v s)
    (hdefined : ∀ e ∈ s.queue, e.Defined v) : ∀ e ∈ s.queue, e.eval v = .ok 0 := by
  intro e he
  obtain ⟨q, hq⟩ := hdefined e he
  rw [hq, h.2 e he q hq]

/-- Over a step, back from where the bindings of the run agree: an equation that is dropped was
zero, and one that is kept has kept its value. -/
theorem vanishes_of_step {s t : State} (hstep : Step s t) (hreduced : Reduced s.bindings)
    (hdefined : BindingsDefined v s.bindings) (h : Vanishes v t) : Vanishes v s := by
  obtain ⟨hagrees, hqueue⟩ := h
  cases hstep with
  | @drop equation queue bindings hclosed hzero =>
    -- An equation that is dropped is zero, whatever the values.
    have hhead : ∀ q, equation.eval v = .ok q → q = 0 := by
      intro q hq
      have hpresent := eval_present hagrees hq
      rw [eval_eq_evalClosed hclosed, hzero] at hpresent
      exact (Except.ok.inj hpresent).symm
    exact ⟨hagrees, List.forall_mem_cons.2 ⟨hhead, hqueue⟩⟩
  | @bind equation value queue bindings name hname hvalue =>
    -- The bound variable is new, so the bindings from before can be read off those after.
    have hunbound := unbound_of_mem_present hreduced (mem_of_firstVariable? hname)
    have hagrees' := hagrees.of_extend hunbound hdefined
    have hhead : ∀ q, equation.eval v = .ok q → q = 0 := by
      intro q hq
      exact hqueue _ (by simp) q (eval_present hagrees' hq)
    have htail : ∀ e ∈ queue, ∀ q, e.eval v = .ok q → q = 0 := by
      intro e he
      exact hqueue e (List.mem_append_left _ he)
    exact ⟨hagrees', List.forall_mem_cons.2 ⟨hhead, htail⟩⟩

/-- Read backwards, a run keeps the equations at zero, as long as what it binds has values. -/
theorem vanishes_of_run {n : Nat} {s t : State} (hrun : Run n s t) (hreduced : Reduced s.bindings)
    (hdefined : ∀ m u, Run m s u → BindingsDefined v u.bindings) (h : Vanishes v t) :
    Vanishes v s := by
  induction hrun with
  | refl => exact h
  | head hstep _ ih =>
    have hfirst := hdefined 0 _ (Run.refl _)
    have hnext := ih (reduced_of_step hstep hreduced)
      (fun m u hu => hdefined (m + 1) u (Run.head hstep hu)) h
    exact vanishes_of_step hstep hreduced hfirst hnext

/-- A solution agrees with the bindings that it resolves. -/
theorem agrees_of_resolve {solution : Solution} (hsolution : resolve bindings = .ok solution)
    (hv : ∀ x q, solution.get? x = some q → v x = some q) : Agrees v bindings := by
  intro x e he
  have htraverse := NameMap.get?_traverse hsolution x
  rw [he, Option.map_some, Option.map_eq_some_iff] at htraverse
  obtain ⟨q, hq, hvalue⟩ := htraverse
  exact ⟨q, hv x q hq, eval_of_valueOf hvalue.symm⟩

/-- A solution, or a variable that is left free, comes from the bindings of a run that has used up
its queue. -/
theorem exists_run_of_resolve {limit : Nat} {equations : List Expr}
    {result : Except Failure Solution} (h : solveWithin limit equations = result)
    (hresult : ∀ f, result = .error f → ∃ x, f = .underdetermined x) :
    ∃ n bindings, Run n (.start equations) ⟨[], bindings⟩ ∧ resolve bindings = result := by
  obtain ⟨n, t, _, hrun, hend⟩ := eliminate_runs limit limit equations .empty
  rw [solveWithin] at h
  rw [h] at hend
  -- The other ends are failures of another kind.
  rcases hend with hend | ⟨_, hlimit⟩
  · cases hend with
    | resolved bindings => exact ⟨n, bindings, hrun, rfl⟩
    | inconsistent _ _ =>
      obtain ⟨x, hx⟩ := hresult _ rfl
      cases hx
    | stuck _ hvalue =>
      obtain ⟨x, rfl⟩ := hresult _ rfl
      rcases isolate_eq_error hvalue with hf | ⟨left, hf⟩
      · cases hf
      · cases hf
  · obtain ⟨x, hx⟩ := hresult _ hlimit
    cases hx

/-- A solution is resolved from the bindings of a run that has used up the queue. -/
theorem exists_run_of_solveWithin {limit : Nat} {equations : List Expr} {solution : Solution}
    (h : solveWithin limit equations = .ok solution) :
    ∃ n bindings, Run n (.start equations) ⟨[], bindings⟩ ∧ resolve bindings = .ok solution :=
  exists_run_of_resolve h (by simp)

/-- Every binding that is made while the system is solved has a value. -/
def KeepsValues (v : Valuation) (equations : List Expr) : Prop :=
  ∀ n s, Run n (.start equations) s → BindingsDefined v s.bindings

/-- At an extension of a solution the equations that have a value are zero, if every binding of the
run has a value there. Where all the equations have a value they are zero only then. -/
theorem eval_of_solveWithin {limit : Nat} {equations : List Expr} {solution : Solution}
    (h : solveWithin limit equations = .ok solution)
    (hv : ∀ x q, solution.get? x = some q → v x = some q) :
    (KeepsValues v equations → ∀ e ∈ equations, ∀ q, e.eval v = .ok q → q = 0) ∧
      ((∀ e ∈ equations, ∃ q, e.eval v = .ok q) →
        ((∀ e ∈ equations, ∀ q, e.eval v = .ok q → q = 0) ↔ KeepsValues v equations)) := by
  have hsound : KeepsValues v equations → ∀ e ∈ equations, ∀ q, e.eval v = .ok q → q = 0 := by
    intro hkeeps
    obtain ⟨n, bindings, hrun, hsolution⟩ := exists_run_of_solveWithin h
    have hlast : Vanishes v ⟨[], bindings⟩ := ⟨agrees_of_resolve hsolution hv, by simp⟩
    exact (vanishes_of_run hrun reduced_empty hkeeps hlast).2
  constructor
  · exact hsound
  · intro hdefined
    constructor
    · -- Where the system is zero, it stays zero and agrees with the bindings along the run.
      intro hzero n s hrun
      have hall : ∀ e ∈ equations, e.eval v = .ok 0 := by
        intro e he
        obtain ⟨q, hq⟩ := hdefined e he
        rw [hq, hzero e he q hq]
      exact (holds_of_run hall hrun).1.bindingsDefined
    · exact hsound

/-- The system with quotients again: at its solution every binding of the run has a value. -/
theorem keepsValues_quotients :
    solveWithin 6 [sub (var "a") (fraction (var "z") (var "x")),
        sub (fraction (var "x") (const 2)) one, sub (var "z") (const 6)] =
      .ok (NameMap.ofList [("a", 3), ("x", 2), ("z", 6)]) ∧
    (∀ e ∈ [sub (var "a") (fraction (var "z") (var "x")), sub (fraction (var "x") (const 2)) one,
        sub (var "z") (const 6)],
      e.eval (NameMap.ofList [("a", 3), ("x", 2), ("z", 6)]).get? = .ok 0) ∧
    KeepsValues (NameMap.ofList [("a", 3), ("x", 2), ("z", 6)]).get?
      [sub (var "a") (fraction (var "z") (var "x")), sub (fraction (var "x") (const 2)) one,
        sub (var "z") (const 6)] := by
  have hsolution : solveWithin 6 [sub (var "a") (fraction (var "z") (var "x")),
      sub (fraction (var "x") (const 2)) one, sub (var "z") (const 6)] =
      .ok (NameMap.ofList [("a", 3), ("x", 2), ("z", 6)]) := by
    cbv
  have hzero : ∀ e ∈ [sub (var "a") (fraction (var "z") (var "x")),
      sub (fraction (var "x") (const 2)) one, sub (var "z") (const 6)],
      e.eval (NameMap.ofList [("a", 3), ("x", 2), ("z", 6)]).get? = .ok 0 := by
    simp only [List.forall_mem_cons]
    exact ⟨by cbv, by cbv, by cbv, by simp⟩
  -- Where all equations have values, being zero is the same as keeping values.
  have hall : ∀ e ∈ [sub (var "a") (fraction (var "z") (var "x")),
      sub (fraction (var "x") (const 2)) one, sub (var "z") (const 6)],
      ∀ q, e.eval (NameMap.ofList [("a", 3), ("x", 2), ("z", 6)]).get? = .ok q → q = 0 := by
    intro e he q hq
    rw [hzero e he] at hq
    exact (Except.ok.inj hq).symm
  have hiff := (eval_of_solveWithin hsolution fun _ _ hx => hx).2 fun e he => ⟨0, hzero e he⟩
  exact ⟨hsolution, hzero, hiff.1 hall⟩

/-- A solution at which an equation is not zero. Both quotients of the first equation become
quotients by zero when u is eliminated, and cancel, so a is bound to zero; before that, their
product with the square of u had already given b its value. -/
theorem solve_merged_quotients :
    solve [sub (var "a") (sub (fraction (var "z") (var "u"))
          (fraction (var "z") (prod [var "u", var "u"]))),
        sub (sum [var "b", prod [var "a", prod [var "u", var "u"]]]) zero,
        sub (var "u") zero, sub (var "z") (const 5)] =
      .ok (NameMap.ofList [("a", 0), ("b", 5), ("u", 0), ("z", 5)]) ∧
    eval (NameMap.ofList [("a", 0), ("b", 5), ("u", 0), ("z", 5)]).get?
      (sub (sum [var "b", prod [var "a", prod [var "u", var "u"]]]) zero) = .ok 5 := by
  constructor
  · cbv
  · cbv

end RationalAlgebra
