import Mathlib
import RationalAlgebra.Proofs.Equation.Failure

/-!
# Counting steps

A step takes one equation from the queue and either drops it or binds a variable that was not bound
before, and then the equation goes back. So the steps of a run are the equations that have left the
queue and the variables that have been bound (`length_add_of_run`), and there are no more of them
than equations and variables in the system. How many equations a system takes from its queue depends
on the system alone (`Ends`); a limit below this number cuts the loop off, and any other limit does
not matter (`Ends.solveWithin_eq`).
-/

namespace RationalAlgebra

open RationalAlgebra.Expr

namespace Equations

variable {equations : List Expr} {s t : State} {n : Nat}

/-! ## Bound variables -/

/-- The step from one state to another binds this variable. -/
inductive Binds (name : String) : State → State → Prop
  | intro {equation value : Expr} {queue : List Expr} {bindings : Bindings}
      (hname : (present bindings equation).firstVariable? = some name)
      (hvalue : (present bindings equation).isolate name = .ok value) :
      Binds name ⟨equation :: queue, bindings⟩
        ⟨queue ++ [present bindings equation], extend bindings name value⟩

theorem Binds.step {name : String} (h : Binds name s t) : Step s t := by
  cases h with
  | intro hname hvalue => exact Step.bind hname hvalue

theorem mem_names_extend {bindings : Bindings} {name x : String} {value : Expr} :
    x ∈ (extend bindings name value).names ↔ x = name ∨ x ∈ bindings.names := by
  rw [NameMap.mem_names_iff, NameMap.mem_names_iff, get?_extend]
  by_cases hx : x = name
  · simp [hx]
  · simp [hx]

/-- A variable that a step binds was not bound, and is bound from then on. -/
theorem Binds.mem_names {name : String} (hreduced : Reduced s.bindings) (h : Binds name s t) :
    name ∉ s.bindings.names ∧ name ∈ t.bindings.names := by
  cases h with
  | intro hname _ =>
    have hunbound := unbound_of_mem_present hreduced (mem_of_firstVariable? hname)
    exact ⟨NameMap.not_mem_names_iff.2 hunbound, mem_names_extend.2 (Or.inl rfl)⟩

/-- A variable that is bound stays bound. -/
theorem mem_names_of_run (hrun : Run n s t) {x : String} (hx : x ∈ s.bindings.names) :
    x ∈ t.bindings.names := by
  refine hrun.invariant (I := fun u => x ∈ u.bindings.names) ?_ hx
  intro u w hstep hu
  cases hstep with
  | drop _ _ => exact hu
  | bind _ _ => exact mem_names_extend.2 (Or.inr hu)

/-- No variable is bound twice in a run. -/
theorem not_binds_of_binds {m : Nat} {u w : State} {name : String}
    (hrun : Run n (.start equations) s) (hfirst : Binds name s t) (hrun' : Run m t u) :
    ¬ Binds name u w := by
  intro hsecond
  have hreduced := reduced_of_run hrun
  have hreduced' := reduced_of_step hfirst.step hreduced
  have hreduced'' : Reduced u.bindings := hrun'.invariant (fun _ _ => reduced_of_step) hreduced'
  exact (hsecond.mem_names hreduced'').1 (mem_names_of_run hrun' (hfirst.mem_names hreduced).2)

/-! ## The number of steps -/

/-- A step takes an equation from the queue, or binds a variable and leaves the queue as long as it
was. -/
theorem length_add_of_step (hreduced : Reduced s.bindings) (hstep : Step s t) :
    s.queue.length + t.bindings.names.length =
      t.queue.length + s.bindings.names.length + 1 := by
  cases hstep with
  | drop _ _ =>
    simp only [List.length_cons]
    omega
  | @bind equation value queue bindings name hname hvalue =>
    have hunbound := unbound_of_mem_present hreduced (mem_of_firstVariable? hname)
    -- The name is new among the bindings, so their number grows by one.
    have hunbound' : (bindings.map (eliminateVariable name value)).get? name = none := by
      rw [NameMap.get?_map, hunbound, Option.map_none]
    have hlength := NameMap.length_names_insert hunbound' value
    rw [NameMap.names_map] at hlength
    simp only [extend, hlength, List.length_append, List.length_cons, List.length_nil]
    omega

/-- The steps of a run are the equations that have left the queue and the variables that have been
bound. -/
theorem length_add_of_run (hreduced : Reduced s.bindings) (hrun : Run n s t) :
    s.queue.length + t.bindings.names.length =
      t.queue.length + s.bindings.names.length + n := by
  induction hrun with
  | refl => rfl
  | head hstep _ ih =>
    have hfirst := length_add_of_step hreduced hstep
    have hrest := ih (reduced_of_step hstep hreduced)
    omega

/-- So the steps of a run are counted by the equations dropped and the variables bound. -/
theorem length_add_of_start (hrun : Run n (.start equations) s) :
    equations.length + s.bindings.names.length = s.queue.length + n := by
  have hlength := length_add_of_run reduced_empty hrun
  have hstart : (State.start equations).bindings.names.length = 0 := rfl
  rw [hstart] at hlength
  exact hlength

/-- The variables that occur in a system. -/
def occurringNames (equations : List Expr) : Finset String :=
  (equations.flatMap occurrences).toFinset

theorem mem_occurringNames {x : String} : x ∈ occurringNames equations ↔ Occurs equations x := by
  simp [occurringNames, Occurs]

/-- No more variables are bound than occur. -/
theorem length_names_le_of_run (hrun : Run n (.start equations) s) :
    s.bindings.names.length ≤ (occurringNames equations).card := by
  have hsub : s.bindings.names.toFinset ⊆ occurringNames equations := by
    intro x hx
    obtain ⟨e, he⟩ := NameMap.mem_names_iff.1 (List.mem_toFinset.1 hx)
    exact mem_occurringNames.2 ((drawnFrom_of_run hrun).bound x e he)
  rw [← List.toFinset_card_of_nodup s.bindings.nodup_names]
  exact Finset.card_le_card hsub

/-- A run makes no more steps than there are equations and variables, less the equations that are
left. -/
theorem add_length_queue_le_of_run (hrun : Run n (.start equations) s) :
    n + s.queue.length ≤ equations.length + (occurringNames equations).card := by
  have hlength := length_add_of_start hrun
  have hbound := length_names_le_of_run hrun
  omega

/-! ## Where the loop ends -/

/-- Without a limit the loop takes so many equations from the queue and ends with this result: one
equation for each step, and one more if it fails at an equation. -/
def Ends (n : Nat) (equations : List Expr) (result : Except Failure Solution) : Prop :=
  ∃ m t, Run m (.start equations) t ∧ Halts t result ∧ n = m + min 1 t.queue.length

variable {result : Except Failure Solution}

/-- A run ends within as many steps as there are equations and variables. -/
theorem Ends.le (h : Ends n equations result) :
    n ≤ equations.length + (occurringNames equations).card := by
  obtain ⟨m, t, hrun, _, rfl⟩ := h
  have hle := add_length_queue_le_of_run hrun
  omega

/-- A limit cuts the loop off, or does not matter. -/
theorem Ends.solveWithin_eq (h : Ends n equations result) (limit : Nat) :
    solveWithin limit equations =
      if n ≤ limit then result else .error (.stepLimit limit) := by
  obtain ⟨m, t, hrun, hend, rfl⟩ := h
  have hloop := eliminate_of_run hrun limit limit
  rw [eliminate_of_halts hend] at hloop
  refine hloop.trans ?_
  by_cases hm : m ≤ limit
  · have hiff : min 1 t.queue.length ≤ limit - m ↔ m + min 1 t.queue.length ≤ limit := by omega
    simp only [if_pos hm, hiff]
  · rw [if_neg hm, if_neg (by omega)]

/-- Every system ends. -/
theorem exists_ends (equations : List Expr) : ∃ n result, Ends n equations result := by
  have hloop := eliminate_runs (equations.length + (occurringNames equations).card)
    (equations.length + (occurringNames equations).card) equations .empty
  rcases hloop with ⟨m, t, _, hrun, hend | ⟨⟨rfl, hqueue⟩, _⟩⟩
  · exact ⟨_, _, m, t, hrun, hend, rfl⟩
  · -- After that many steps no equation can be left.
    have hle := add_length_queue_le_of_run hrun
    have hlength := List.length_pos_iff.2 hqueue
    omega

/-- The end of a run is not that of the limit. -/
theorem Ends.ne_stepLimit (h : Ends n equations result) (k : Nat) :
    result ≠ .error (.stepLimit k) := by
  rintro rfl
  obtain ⟨m, t, _, hend, _⟩ := h
  rcases failure_of_halts hend with ⟨_, h⟩ | ⟨_, h⟩ | ⟨_, _, h⟩ | ⟨h, _⟩
  all_goals cases h

/-- A system is solved in one step for each equation and one for each variable of the solution. -/
theorem Ends.eq_of_ok {solution : Solution} (h : Ends n equations (.ok solution)) :
    n = equations.length + solution.names.length := by
  obtain ⟨m, t, hrun, hend, rfl⟩ := h
  generalize hresult : (Except.ok solution : Except Failure Solution) = result at hend
  cases hend with
  | resolved bindings =>
    have hlength := length_add_of_start hrun
    rw [← NameMap.names_traverse hresult.symm] at hlength
    simp only [List.length_nil] at hlength ⊢
    omega
  | inconsistent _ _ => cases hresult
  | stuck _ _ => cases hresult

/-- The loop ends after no more steps than there are equations and variables, and binds no variable
twice. A limit cuts it off or does not matter: none of at least this number cuts it off, and a
system that has a solution is solved by exactly the limits that allow a step for each equation and
for each variable of the solution. -/
theorem solveWithin_steps (equations : List Expr) :
    (∃ n result, n ≤ equations.length + (occurringNames equations).card ∧
      Ends n equations result ∧
      ∀ limit, solveWithin limit equations =
        if n ≤ limit then result else .error (.stepLimit limit)) ∧
    (∀ n m s t u w name, Run n (.start equations) s → Binds name s t → Run m t u →
      ¬ Binds name u w) ∧
    (∀ limit limit', limit ≤ limit' →
      solveWithin limit equations = .error (.stepLimit limit) ∨
        solveWithin limit equations = solveWithin limit' equations) ∧
    (∀ limit, equations.length + (occurringNames equations).card ≤ limit →
      ∀ k, solveWithin limit equations ≠ .error (.stepLimit k)) ∧
    (∀ limit solution, solveWithin limit equations = .ok solution →
      ∀ limit', solveWithin limit' equations = .ok solution ↔
        equations.length + solution.names.length ≤ limit') := by
  obtain ⟨n, result, hends⟩ := exists_ends equations
  have heq := hends.solveWithin_eq
  -- The run does not depend on the limit, which only decides whether its end is seen.
  refine ⟨⟨n, result, hends.le, hends, heq⟩, ?_, ?_, ?_, ?_⟩
  · intro n m s t u w name hrun hfirst hrun'
    exact not_binds_of_binds hrun hfirst hrun'
  · intro limit limit' hle
    rw [heq, heq]
    by_cases hn : n ≤ limit
    · rw [if_pos hn, if_pos (hn.trans hle)]
      exact Or.inr rfl
    · rw [if_neg hn]
      exact Or.inl rfl
  · intro limit hle k
    rw [heq, if_pos (hends.le.trans hle)]
    exact hends.ne_stepLimit k
  · intro limit solution hsolution limit'
    rw [heq] at hsolution
    split at hsolution
    · cases hsolution
      -- A solution needs a step for each equation and each of its variables, no more and no fewer.
      rw [heq, ← hends.eq_of_ok]
      simp
    · cases hsolution

/-- Two equations that bind one variable each need four steps. -/
theorem solveWithin_steps_two :
    solveWithin 3 [sub (var "x") (const 1), sub (var "y") (const 2)] = .error (.stepLimit 3) ∧
      ∀ limit, solveWithin limit [sub (var "x") (const 1), sub (var "y") (const 2)] =
        .ok ((NameMap.empty.insert "x" 1).insert "y" 2) ↔ 4 ≤ limit := by
  have hsolution : solveWithin 4 [sub (var "x") (const 1), sub (var "y") (const 2)] =
      .ok ((NameMap.empty.insert "x" 1).insert "y" 2) := by
    cbv
  have hsteps := (solveWithin_steps [sub (var "x") (const 1), sub (var "y") (const 2)]).2.2
  have hlimits := hsteps.2.2 4 _ hsolution
  have hlimit : ¬ solveWithin 3 [sub (var "x") (const 1), sub (var "y") (const 2)] =
      solveWithin 4 [sub (var "x") (const 1), sub (var "y") (const 2)] := by
    rw [hsolution, hlimits]
    decide
  exact ⟨(hsteps.1 3 4 (by decide)).resolve_right hlimit, hlimits⟩

end Equations

end RationalAlgebra
