import Mathlib
import RationalAlgebra.Equation.Elimination
import RationalAlgebra.Proofs.Equation.Isolation
import RationalAlgebra.Proofs.Expr.Substitution

/-!
# Elimination as a run

The loop that solves a system is a sequence of steps between states, and a state is a queue and the
bindings found so far. A step drops an equation that holds, or binds a variable of an equation that
goes to the back of the queue. This file says what one step can do (`Step`), how a run ends
(`Halts`), and that the loop is a run (`eliminate_runs`) and every run a part of the loop
(`eliminate_of_run`), so a fact about all states of a run is proved for one step and then holds
throughout (`Run.invariant`).

The second half follows the bindings: in every state of a run no expression that is bound mentions a
bound variable (`reduced_of_run`), all variables are those of the system that is solved
(`drawnFrom_of_run`), and all that is bound is in normal form (`normalBindings_of_run`). Together
this is the invariant of the loop, `solveWithin_invariant`.
-/

namespace RationalAlgebra

open RationalAlgebra.Expr

namespace Equations

/-! ## Steps -/

/-- The equations that are left and the bindings found so far. -/
structure State where
  queue : List Expr
  bindings : Bindings

/-- The state in which a system begins. -/
def State.start (equations : List Expr) : State :=
  ⟨equations, .empty⟩

/-- What is left of an equation when the bindings are put in. -/
def present (bindings : Bindings) (equation : Expr) : Expr :=
  (equation.replace bindings).normalize

theorem canonical_present (bindings : Bindings) (equation : Expr) :
    (present bindings equation).Canonical :=
  canonical_normalize _

/-- One step: an equation without variables is dropped if it holds, and otherwise the first variable
of the equation is bound. -/
inductive Step : State → State → Prop
  | drop {equation : Expr} {queue : List Expr} {bindings : Bindings}
      (hclosed : (present bindings equation).occurrences = [])
      (hzero : (present bindings equation).evalClosed = .ok 0) :
      Step ⟨equation :: queue, bindings⟩ ⟨queue, bindings⟩
  | bind {equation value : Expr} {queue : List Expr} {bindings : Bindings} {name : String}
      (hname : (present bindings equation).firstVariable? = some name)
      (hvalue : (present bindings equation).isolate name = .ok value) :
      Step ⟨equation :: queue, bindings⟩
        ⟨queue ++ [present bindings equation], extend bindings name value⟩

/-- So many steps lead from one state to another. -/
inductive Run : Nat → State → State → Prop
  | refl (s : State) : Run 0 s s
  | head {n : Nat} {s t u : State} (hstep : Step s t) (hrun : Run n t u) : Run (n + 1) s u

/-- A state in which a run ends, and with what. -/
inductive Halts : State → Except Failure Solution → Prop
  | resolved (bindings : Bindings) : Halts ⟨[], bindings⟩ (resolve bindings)
  | inconsistent {equation : Expr} {queue : List Expr} {bindings : Bindings}
      (hclosed : (present bindings equation).occurrences = [])
      (hzero : (present bindings equation).evalClosed ≠ .ok 0) :
      Halts ⟨equation :: queue, bindings⟩ (.error (.inconsistent (present bindings equation)))
  | stuck {equation : Expr} {queue : List Expr} {bindings : Bindings} {name : String} {f : Failure}
      (hname : (present bindings equation).firstVariable? = some name)
      (hvalue : (present bindings equation).isolate name = .error f) :
      Halts ⟨equation :: queue, bindings⟩ (.error f)

/-- What every step keeps, a run keeps. -/
theorem Run.invariant {I : State → Prop} (hstep : ∀ s t, Step s t → I s → I t) {n : Nat}
    {s t : State} (h : Run n s t) (hs : I s) : I t := by
  induction h with
  | refl => exact hs
  | head hfirst _ ih => exact ih (hstep _ _ hfirst hs)

/-- An equation without variables passes only with the value zero. -/
theorem checkClosed_eq_ok {e : Expr} {u : Unit} (h : checkClosed e = .ok u) :
    e.evalClosed = .ok 0 := by
  unfold checkClosed at h
  split at h
  · rename_i q hq
    split at h
    · rename_i hzero
      rw [hq, hzero]
    · cases h
  · cases h

/-- An equation without variables that does not pass is reported as a contradiction. -/
theorem checkClosed_eq_error {e : Expr} {f : Failure} (h : checkClosed e = .error f) :
    f = .inconsistent e ∧ e.evalClosed ≠ .ok 0 := by
  unfold checkClosed at h
  split at h
  · rename_i q hq
    split at h
    · cases h
    · rename_i hne
      rw [hq]
      exact ⟨(Except.error.inj h).symm, fun hzero => hne (Except.ok.inj hzero)⟩
  · rename_i f' hf'
    rw [hf']
    exact ⟨(Except.error.inj h).symm, by simp⟩

/-- The loop makes steps until the run ends or no more steps are allowed. -/
theorem eliminate_runs (limit steps : Nat) (queue : List Expr) (bindings : Bindings) :
    ∃ n t, n ≤ steps ∧ Run n ⟨queue, bindings⟩ t ∧
      (Halts t (eliminate limit steps queue bindings) ∨
        (n = steps ∧ t.queue ≠ []) ∧
          eliminate limit steps queue bindings = .error (.stepLimit limit)) := by
  -- The loop recurses on the steps that are left, and so does the induction; each iteration is one
  -- step or an end.
  induction steps generalizing queue bindings with
  | zero =>
    refine ⟨0, ⟨queue, bindings⟩, le_refl 0, Run.refl _, ?_⟩
    cases queue with
    | nil =>
      rw [eliminate]
      exact Or.inl (Halts.resolved bindings)
    | cons equation queue => exact Or.inr ⟨⟨rfl, by simp⟩, by rw [eliminate]⟩
  | succ steps ih =>
    cases queue with
    | nil =>
      refine ⟨0, ⟨[], bindings⟩, Nat.zero_le _, Run.refl _, Or.inl ?_⟩
      rw [eliminate]
      exact Halts.resolved bindings
    | cons equation queue =>
      rw [eliminate]
      split
      · -- Without variables the equation has to hold.
        rename_i hnone
        have hclosed := firstVariable?_eq_none.1 hnone
        split
        · rename_i f hf
          obtain ⟨rfl, hzero⟩ := checkClosed_eq_error hf
          exact ⟨0, _, Nat.zero_le _, Run.refl _, Or.inl (Halts.inconsistent hclosed hzero)⟩
        · rename_i hok
          obtain ⟨n, t, hn, hrun, hend⟩ := ih queue bindings
          refine ⟨n + 1, t, Nat.succ_le_succ hn, Run.head ?_ hrun, ?_⟩
          · exact Step.drop hclosed (checkClosed_eq_ok hok)
          · exact hend.imp_right fun h => ⟨⟨congrArg Nat.succ h.1.1, h.1.2⟩, h.2⟩
      · rename_i name hname
        split
        · rename_i f hf
          exact ⟨0, _, Nat.zero_le _, Run.refl _, Or.inl (Halts.stuck hname hf)⟩
        · rename_i value hvalue
          obtain ⟨n, t, hn, hrun, hend⟩ :=
            ih (queue ++ [present bindings equation]) (extend bindings name value)
          refine ⟨n + 1, t, Nat.succ_le_succ hn, Run.head ?_ hrun, ?_⟩
          · exact Step.bind hname hvalue
          · exact hend.imp_right fun h => ⟨⟨congrArg Nat.succ h.1.1, h.1.2⟩, h.2⟩

/-- A step takes an equation from the queue. -/
theorem queue_ne_nil_of_step {s t : State} (hstep : Step s t) : s.queue ≠ [] := by
  cases hstep with
  | drop _ _ => simp
  | bind _ _ => simp

/-- The loop makes every step that there is, if it may make one more. -/
theorem eliminate_of_step {s t : State} (hstep : Step s t) (limit steps : Nat) :
    eliminate limit (steps + 1) s.queue s.bindings = eliminate limit steps t.queue t.bindings := by
  cases hstep with
  | @drop equation queue bindings hclosed hzero =>
    rw [present] at hclosed hzero
    -- The equation holds, so the loop drops it.
    have hcheck : checkClosed (equation.replace bindings).normalize = .ok () := by
      rw [checkClosed, hzero]
      exact if_pos rfl
    rw [eliminate]
    simp only [firstVariable?_eq_none.2 hclosed, hcheck]
  | @bind equation value queue bindings name hname hvalue =>
    rw [present] at hname hvalue
    rw [eliminate]
    simp only [hname, hvalue, present]

/-- The loop follows a run as far as the number of steps allows. -/
theorem eliminate_of_run {n : Nat} {s t : State} (hrun : Run n s t) (limit steps : Nat) :
    eliminate limit steps s.queue s.bindings =
      if n ≤ steps then eliminate limit (steps - n) t.queue t.bindings
      else .error (.stepLimit limit) := by
  induction hrun generalizing steps with
  | refl => rw [if_pos (Nat.zero_le _), Nat.sub_zero]
  | @head n s t u hstep _ ih =>
    cases steps with
    | zero =>
      obtain ⟨equation, queue, hqueue⟩ := List.exists_cons_of_ne_nil (queue_ne_nil_of_step hstep)
      rw [hqueue, eliminate, if_neg (by omega)]
    | succ steps =>
      rw [eliminate_of_step hstep, ih]
      simp only [Nat.add_le_add_iff_right, Nat.add_sub_add_right]

/-- Where a run ends the loop ends. To fail at an equation it has to take it from the queue. -/
theorem eliminate_of_halts {t : State} {result : Except Failure Solution} (hend : Halts t result)
    (limit steps : Nat) : eliminate limit steps t.queue t.bindings =
      if min 1 t.queue.length ≤ steps then result else .error (.stepLimit limit) := by
  cases hend with
  | resolved bindings => rw [eliminate, if_pos (by simp)]
  -- An end that takes an equation from the queue needs one more step; with none left the limit is
  -- reported.
  | @inconsistent equation queue bindings hclosed hzero =>
    cases steps with
    | zero => rw [eliminate, if_neg (by simp)]
    | succ steps =>
      rw [if_pos (by simp), eliminate]
      cases hcheck : checkClosed (equation.replace bindings).normalize with
      | ok u => exact absurd (checkClosed_eq_ok hcheck) hzero
      | error f =>
        obtain ⟨rfl, _⟩ := checkClosed_eq_error hcheck
        rw [present] at hclosed
        simp only [firstVariable?_eq_none.2 hclosed, present]
  | @stuck equation queue bindings name f hname hvalue =>
    cases steps with
    | zero => rw [eliminate, if_neg (by simp)]
    | succ steps =>
      rw [present] at hname hvalue
      rw [if_pos (by simp), eliminate]
      simp only [hname, hvalue]

/-- What is left of an equation is in normal form, so its first variable is not missing from it. -/
theorem exists_unsupported_of_isolate {bindings : Bindings} {equation : Expr} {name : String}
    {f : Failure} (hname : (present bindings equation).firstVariable? = some name)
    (hvalue : (present bindings equation).isolate name = .error f) :
    ∃ left, f = .unsupportedIsolation name left := by
  rcases isolate_eq_error hvalue with rfl | hleft
  · have hmem := mem_of_firstVariable? hname
    have hnormal : (present bindings equation).normalize = present bindings equation :=
      normalize_of_canonical (canonical_present _ _)
    rw [← hnormal] at hmem
    exact absurd hmem (not_mem_occurrences_of_isolate_eq_error hvalue)
  · exact hleft

/-! ## Bindings -/

variable {bindings : Bindings} {name : String} {value : Expr}

/-- No bound expression mentions a bound variable. -/
def Reduced (bindings : Bindings) : Prop :=
  ∀ x e, bindings.get? x = some e → ∀ z ∈ e.occurrences, bindings.get? z = none

theorem get?_single_eq_some {x : String} {e : Expr}
    (h : (NameMap.empty.insert name value).get? x = some e) : x = name ∧ e = value := by
  rw [NameMap.get?_insert, NameMap.get?_empty] at h
  split at h
  · rename_i hx
    exact ⟨hx, (Option.some.inj h).symm⟩
  · cases h

/-- Binding a variable changes the other bindings by substitution. -/
theorem get?_extend (bindings : Bindings) (name x : String) (value : Expr) :
    (extend bindings name value).get? x =
      if x = name then some value else (bindings.get? x).map (eliminateVariable name value) := by
  rw [extend, NameMap.get?_insert, NameMap.get?_map]

/-- The name that a step binds has its value, and what was bound before has the name eliminated. -/
theorem get?_extend_eq_some {x : String} {e : Expr}
    (h : (extend bindings name value).get? x = some e) :
    (x = name ∧ e = value) ∨
      x ≠ name ∧ ∃ e', bindings.get? x = some e' ∧ e = eliminateVariable name value e' := by
  rw [get?_extend] at h
  split at h
  · rename_i hx
    exact Or.inl ⟨hx, (Option.some.inj h).symm⟩
  · rename_i hx
    obtain ⟨e', he', rfl⟩ := Option.map_eq_some_iff.1 h
    exact Or.inr ⟨hx, e', he', rfl⟩

/-- Other variables that are free stay free. -/
theorem get?_extend_of_unbound {x : String} (hx : x ≠ name) (hnone : bindings.get? x = none) :
    (extend bindings name value).get? x = none := by
  rw [get?_extend, if_neg hx, hnone, Option.map_none]

/-- An expression without the variable stays as it is, and any other is replaced and normalized. -/
theorem eliminateVariable_cases (name : String) (value e : Expr) :
    (eliminateVariable name value e = e ∧ e.replace (NameMap.empty.insert name value) = e) ∨
      eliminateVariable name value e = present (NameMap.empty.insert name value) e := by
  unfold eliminateVariable present replace
  split
  · rename_i hnone
    rw [hnone]
    exact Or.inl ⟨rfl, rfl⟩
  · rename_i e' he'
    rw [he']
    exact Or.inr rfl

/-- What holds of all that was bound, and of the new value, holds of all that is bound after a step
if it is not lost when a variable is eliminated. -/
theorem forall_extend {P : Expr → Prop} (h : ∀ x e, bindings.get? x = some e → P e)
    (hvalue : P value) (hpresent : ∀ e, P e → P (present (NameMap.empty.insert name value) e)) :
    ∀ x e, (extend bindings name value).get? x = some e → P e := by
  intro x e he
  rcases get?_extend_eq_some he with ⟨_, rfl⟩ | ⟨_, e', he', rfl⟩
  · exact hvalue
  · have he'' := h x e' he'
    rcases eliminateVariable_cases name value e' with ⟨heq, _⟩ | heq
    · rwa [heq]
    · rw [heq]
      exact hpresent e' he''

/-- Elimination brings in the variables of the value only, and takes the variable itself away. -/
theorem mem_occurrences_of_eliminateVariable {e : Expr} {z : String}
    (h : z ∈ (eliminateVariable name value e).occurrences) :
    (z ≠ name ∧ z ∈ e.occurrences) ∨ z ∈ value.occurrences := by
  have hreplace : z ∈ (e.replace (NameMap.empty.insert name value)).occurrences := by
    rcases eliminateVariable_cases name value e with ⟨heq, hsame⟩ | heq
    · rwa [hsame, ← heq]
    · -- Normalization invents no variable.
      rw [heq] at h
      exact mem_occurrences_of_normalize h
  rcases mem_occurrences_replace.1 hreplace with ⟨hz, hnone⟩ | ⟨x, _, e', he', hz⟩
  · have hne : z ≠ name := by
      intro heq
      subst heq
      simp at hnone
    exact Or.inl ⟨hne, hz⟩
  · obtain ⟨_, rfl⟩ := get?_single_eq_some he'
    exact Or.inr hz

/-- What is left of an equation mentions no bound variable. -/
theorem unbound_of_mem_present (h : Reduced bindings) {e : Expr} {z : String}
    (hz : z ∈ (present bindings e).occurrences) : bindings.get? z = none := by
  have hreplace := mem_occurrences_replace.1 (mem_occurrences_of_normalize hz)
  rcases hreplace with ⟨_, hnone⟩ | ⟨x, _, e', he', hz'⟩
  · exact hnone
  · exact h x e' he' z hz'

/-- Bindings stay reduced when the new value is free of bound variables. -/
theorem Reduced.extend (h : Reduced bindings)
    (hvalue : ∀ z ∈ value.occurrences, z ≠ name ∧ bindings.get? z = none) :
    Reduced (extend bindings name value) := by
  intro x e he z hz
  have hunbound : z ≠ name ∧ bindings.get? z = none := by
    rcases get?_extend_eq_some he with ⟨_, rfl⟩ | ⟨_, e', he', rfl⟩
    · exact hvalue z hz
    · rcases mem_occurrences_of_eliminateVariable hz with ⟨hne, hz'⟩ | hz'
      · exact ⟨hne, h x e' he' z hz'⟩
      · exact hvalue z hz'
  exact get?_extend_of_unbound hunbound.1 hunbound.2

/-- What is bound has its value from the variables that are not. -/
theorem Reduced.eval_congr (h : Reduced bindings) {x : String} {e : Expr}
    (he : bindings.get? x = some e) {v w : Valuation}
    (hsame : ∀ z, bindings.get? z = none → v z = w z) : e.eval v = e.eval w :=
  Expr.eval_congr fun z hz => hsame z (h x e he z hz)

theorem reduced_empty : Reduced .empty := by
  intro x e he
  cases he

/-- Every step keeps the bindings reduced. -/
theorem reduced_of_step {s t : State} (hstep : Step s t) (h : Reduced s.bindings) :
    Reduced t.bindings := by
  cases hstep with
  | drop _ _ => exact h
  | bind hname hvalue =>
    apply h.extend
    intro z hz
    -- The new expression has its variables from what is left of the equation.
    obtain ⟨hne, hmem⟩ := mem_occurrences_of_isolate hvalue hz
    exact ⟨hne, unbound_of_mem_present h hmem⟩

/-- In a run from a system no bound expression mentions a bound variable. -/
theorem reduced_of_run {equations : List Expr} {n : Nat} {s : State}
    (h : Run n (.start equations) s) : Reduced s.bindings :=
  h.invariant (fun _ _ => reduced_of_step) reduced_empty

/-! ## The variables of a run -/

/-- A variable occurs in one of the equations. -/
def Occurs (equations : List Expr) (x : String) : Prop :=
  ∃ e ∈ equations, x ∈ e.occurrences

/-- All variables of a state have a property: those in the queue, those that are bound, and those in
what they are bound to. -/
structure DrawnFrom (p : String → Prop) (s : State) : Prop where
  queue : ∀ e ∈ s.queue, ∀ x ∈ e.occurrences, p x
  bound : ∀ x e, s.bindings.get? x = some e → p x
  values : ∀ x e, s.bindings.get? x = some e → ∀ y ∈ e.occurrences, p y

variable {p : String → Prop}

/-- What is left of the first equation has its variables from the state. -/
theorem DrawnFrom.present {equation : Expr} {queue : List Expr}
    (h : DrawnFrom p ⟨equation :: queue, bindings⟩) {x : String}
    (hx : x ∈ (present bindings equation).occurrences) : p x := by
  have hreplace := mem_occurrences_replace.1 (mem_occurrences_of_normalize hx)
  rcases hreplace with ⟨hx', _⟩ | ⟨y, _, e, he, hx'⟩
  · exact h.queue equation List.mem_cons_self x hx'
  · exact h.values y e he x hx'

/-- A step invents no variables: queue, bound variables and values keep to those there were. -/
theorem drawnFrom_of_step {s t : State} (hstep : Step s t) (h : DrawnFrom p s) : DrawnFrom p t := by
  cases hstep with
  | drop _ _ => exact ⟨fun e he => h.queue e (List.mem_cons_of_mem _ he), h.bound, h.values⟩
  | @bind equation value queue bindings name hname hvalue =>
    have hvalues : ∀ y ∈ value.occurrences, p y :=
      fun y hy => h.present (mem_occurrences_of_isolate hvalue hy).2
    refine ⟨?_, ?_, ?_⟩
    · intro e he x hx
      rcases List.mem_append.1 he with he | he
      · exact h.queue e (List.mem_cons_of_mem _ he) x hx
      · rw [List.mem_singleton.1 he] at hx
        exact h.present hx
    · intro x e he
      -- The variable that is bound occurred in the equation.
      rcases get?_extend_eq_some he with ⟨rfl, _⟩ | ⟨_, e', he', _⟩
      · exact h.present (mem_of_firstVariable? hname)
      · exact h.bound x e' he'
    · intro x e he y hy
      rcases get?_extend_eq_some he with ⟨_, rfl⟩ | ⟨_, e', he', rfl⟩
      · exact hvalues y hy
      · rcases mem_occurrences_of_eliminateVariable hy with ⟨_, hy'⟩ | hy'
        · exact h.values x e' he' y hy'
        · exact hvalues y hy'

/-- At the start the variables are those of the equations. -/
theorem drawnFrom_start (equations : List Expr) :
    DrawnFrom (Occurs equations) (.start equations) := by
  refine ⟨fun e he x hx => ⟨e, he, hx⟩, ?_, ?_⟩
  · intro x e he
    cases he
  · intro x e he
    cases he

/-- A run brings in no variable that does not occur in the system. -/
theorem drawnFrom_of_run {equations : List Expr} {n : Nat} {s : State}
    (h : Run n (.start equations) s) : DrawnFrom (Occurs equations) s :=
  h.invariant (fun _ _ => drawnFrom_of_step) (drawnFrom_start equations)

/-! ## The invariant of the loop -/

/-- All that is bound is in normal form. -/
def NormalBindings (bindings : Bindings) : Prop :=
  ∀ x e, bindings.get? x = some e → e.Canonical

/-- What a step binds is a normal form, and what was bound before is normalized where it changes. -/
theorem normalBindings_of_step {s t : State} (hstep : Step s t) (h : NormalBindings s.bindings) :
    NormalBindings t.bindings := by
  cases hstep with
  | drop _ _ => exact h
  | bind _ hvalue =>
    exact forall_extend h (canonical_of_isolate hvalue) fun e _ => canonical_present _ e

/-- All expressions that are bound along a run are normal forms. -/
theorem normalBindings_of_run {equations : List Expr} {n : Nat} {s : State}
    (h : Run n (.start equations) s) : NormalBindings s.bindings := by
  refine h.invariant (fun _ _ => normalBindings_of_step) ?_
  intro x e he
  cases he

/-- An expression in which nothing is bound mentions no bound variable. -/
theorem mentions_of_unbound {e : Expr} (h : ∀ z ∈ e.occurrences, bindings.get? z = none)
    {x : String} (hx : x ∈ bindings.names) : e.mentions x = false := by
  rw [← Bool.not_eq_true, mentions_iff]
  intro hmem
  exact NameMap.not_mem_names_iff.2 (h x hmem) hx

/-- What the bindings and the queue keep of the system that is solved: no bound variable occurs in
what is bound, all that is bound is in normal form, and all variables are those of the system. -/
structure Invariant (equations : List Expr) (s : State) : Prop where
  unmentioned : ∀ x ∈ s.bindings.names, ∀ y e, s.bindings.get? y = some e → e.mentions x = false
  normal : ∀ y e, s.bindings.get? y = some e → e.normalize = e
  drawn : DrawnFrom (Occurs equations) s

/-- The parts of the invariant are kept one by one, and hold together in every state. -/
theorem invariant_of_run {equations : List Expr} {n : Nat} {s : State}
    (h : Run n (.start equations) s) : Invariant equations s where
  unmentioned _ hx y e he := mentions_of_unbound (reduced_of_run h y e he) hx
  normal y e he := normalize_of_canonical (normalBindings_of_run h y e he)
  drawn := drawnFrom_of_run h

/-- Under every limit the loop is a run up to the state in which it ends. Every state of a run is
one in which the loop goes on after as many steps, unless the limit is smaller; the invariant holds
in it, and what is left of the first equation of its queue mentions no bound variable. -/
theorem solveWithin_invariant (equations : List Expr) :
    (∀ limit, ∃ n t, n ≤ limit ∧ Run n (.start equations) t ∧
      (Halts t (solveWithin limit equations) ∨
        (n = limit ∧ t.queue ≠ []) ∧
          solveWithin limit equations = .error (.stepLimit limit))) ∧
    ∀ n s, Run n (.start equations) s →
      (∀ limit, n ≤ limit →
        solveWithin limit equations = eliminate limit (limit - n) s.queue s.bindings) ∧
      Invariant equations s ∧
      ∀ equation queue, s.queue = equation :: queue →
        ∀ x ∈ s.bindings.names, (present s.bindings equation).mentions x = false := by
  constructor
  · intro limit
    exact eliminate_runs limit limit equations .empty
  · intro n s hrun
    refine ⟨?_, invariant_of_run hrun, ?_⟩
    · intro limit hle
      have hloop := eliminate_of_run hrun limit limit
      rwa [if_pos hle] at hloop
    · intro equation queue _ x hx
      exact mentions_of_unbound (fun z => unbound_of_mem_present (reduced_of_run hrun)) hx

/-- The equations `x = y + z` and `y = z`. After two steps `x` is bound to `2*z`, where it was bound
to `y + z` before, and `y` to `z`. -/
theorem solveWithin_invariant_two_steps :
    ∃ s, Run 2 (.start [sub (var "x") (sum [var "y", var "z"]), sub (var "y") (var "z")]) s ∧
      s.bindings.names = ["x", "y"] ∧ s.bindings.get? "x" = some (product 2 ["z"] []) ∧
      Invariant [sub (var "x") (sum [var "y", var "z"]), sub (var "y") (var "z")] s ∧
      ∀ equation queue, s.queue = equation :: queue →
        ∀ x ∈ s.bindings.names, (present s.bindings equation).mentions x = false := by
  have hrun : Run 2 (.start [sub (var "x") (sum [var "y", var "z"]), sub (var "y") (var "z")])
      ⟨_, extend (extend .empty "x" (sum [var "y", var "z"])) "y" (var "z")⟩ :=
    Run.head (Step.bind (by cbv) (by cbv)) (Run.head (Step.bind (by cbv) (by cbv)) (Run.refl _))
  have hinvariant := ((solveWithin_invariant _).2 2 _ hrun).2
  exact ⟨_, hrun, by cbv, by cbv, hinvariant.1, hinvariant.2⟩

end Equations

end RationalAlgebra
