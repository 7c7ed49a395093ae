import Mathlib
import RationalAlgebra.Proofs.Equation.Solution

/-!
# A variable that is left free

If elimination ends with a free variable, no zero of the system is alone: near each there is
another, at which the free variable has a different value. The value of the free variable is moved,
and every bound variable follows with the value of its expression. A quotient that has a value keeps
one as long as its denominator stays close to what it was, so near the zero nothing becomes
undefined, neither the equations nor any of the finitely many bindings of the run. There the way
back through the run is open, and ends at the equations.

Main statement: `exists_eval_eq_zero_of_underdetermined`.
-/

namespace RationalAlgebra

open RationalAlgebra.Expr RationalAlgebra.Equations
open Filter Topology

/-! ## Values that move -/

/-- Finitely many conditions hold together near a point if each does. -/
theorem eventually_forall_mem {α β : Type} {l : Filter α} {es : List β} {p : β → α → Prop} :
    (∀ᶠ t in l, ∀ e ∈ es, p e t) ↔ ∀ e ∈ es, ∀ᶠ t in l, p e t :=
  eventually_all_finite es.finite_toSet

section Path

variable {path : Rat → Valuation} {t₀ : Rat}

/-- A name has a value throughout, close to what it is at a point. -/
def NameMoves (path : Rat → Valuation) (t₀ : Rat) (x : String) : Prop :=
  (∀ᶠ t in 𝓝 t₀, (path t x).isSome) ∧ ContinuousAt (fun t => (path t).read x) t₀

/-- An expression has a value throughout, close to what it is at a point. -/
def Moves (path : Rat → Valuation) (t₀ : Rat) (e : Expr) : Prop :=
  (∀ᶠ t in 𝓝 t₀, e.Defined (path t)) ∧ ContinuousAt (fun t => e.value (path t)) t₀

/-- Where an expression has a value, it moves with its variables. -/
theorem moves_of_defined {e : Expr} (he : e.Defined (path t₀))
    (hnames : ∀ x ∈ e.occurrences, NameMoves path t₀ x) : Moves path t₀ e := by
  -- Sums and products are continuous, and so are quotients where the denominator is not zero.
  induction e using tree_induction with
  | sum es ih =>
    rw [defined_sum] at he
    simp only [mem_occurrences_sum] at hnames
    have hmoves : ∀ e ∈ es, Moves path t₀ e :=
      fun e hmem => ih e hmem (he e hmem) fun x hx => hnames x ⟨e, hmem, hx⟩
    constructor
    · simp only [defined_sum]
      exact eventually_forall_mem.2 fun e hmem => (hmoves e hmem).1
    · simp only [value_sum]
      exact tendsto_list_sum es fun e hmem => (hmoves e hmem).2
  | product c vs fs ih =>
    rw [defined_product] at he
    simp only [mem_occurrences_product] at hnames
    have hvs : ∀ x ∈ vs, NameMoves path t₀ x := fun x hx => hnames x (Or.inl hx)
    have hfs : ∀ f ∈ fs, Moves path t₀ f :=
      fun f hf => ih f hf (he.2 f hf) fun x hx => hnames x (Or.inr ⟨f, hf, hx⟩)
    constructor
    · simp only [defined_product]
      exact (eventually_forall_mem.2 fun x hx => (hvs x hx).1).and
        (eventually_forall_mem.2 fun f hf => (hfs f hf).1)
    · simp only [value_product]
      have hread := tendsto_list_prod vs fun x hx => (hvs x hx).2
      have hvalue := tendsto_list_prod fs fun f hf => (hfs f hf).2
      exact (tendsto_const_nhds.mul hread).mul hvalue
  | fraction n d ihn ihd =>
    rw [defined_fraction] at he
    simp only [mem_occurrences_fraction] at hnames
    have hn := ihn he.1 fun x hx => hnames x (Or.inl hx)
    have hd := ihd he.2.1 fun x hx => hnames x (Or.inr hx)
    constructor
    · -- The denominator stays away from zero.
      simp only [defined_fraction]
      exact hn.1.and (hd.1.and (hd.2.eventually_ne he.2.2))
    · simp only [value_fraction]
      exact hn.2.div hd.2 he.2.2

end Path

variable {v : Valuation} {bindings : Bindings}

/-- Bindings that have values one by one have them all at once. -/
theorem eventually_bindingsDefined {l : Filter Rat} {path : Rat → Valuation}
    (h : ∀ y b, bindings.get? y = some b → ∀ᶠ t in l, b.Defined (path t)) :
    ∀ᶠ t in l, BindingsDefined (path t) bindings := by
  have hall : ∀ᶠ t in l, ∀ entry ∈ bindings.entries, entry.2.Defined (path t) :=
    eventually_forall_mem.2 fun entry hentry => h _ _ (bindings.get?_eq_some_iff.2 hentry)
  filter_upwards [hall] with t ht
  intro y b hb
  exact ht _ (bindings.get?_eq_some_iff.1 hb)

/-! ## The bound variables follow -/

/-- The valuation in which a free variable takes a value and the bound variables follow. -/
def follow (v : Valuation) (bindings : Bindings) (x : String) (t : Rat) : Valuation :=
  Valuation.through (Function.update v x (some t)) bindings

section Follow

variable {x : String} {t₀ : Rat} (hagrees : Agrees v bindings) (hvalue : v x = some t₀)

include hvalue

/-- A variable that takes the value it has changes nothing. -/
theorem update_self_of_value : Function.update v x (some t₀) = v := by
  rw [← hvalue, Function.update_eq_self]

/-- One name moves, and the others stay. -/
theorem nameMoves_update {y : String} (hy : (v y).isSome) :
    NameMoves (fun t => Function.update v x (some t)) t₀ y := by
  by_cases hyx : y = x
  · subst hyx
    have hread : ∀ t, (Valuation.read (Function.update v y (some t)) y) = t := by
      simp [Valuation.read]
    constructor
    · simp
    · simp only [hread]
      exact continuousAt_id
  · constructor
    · simp [Function.update_of_ne hyx, hy]
    · simpa [Valuation.read, Function.update_of_ne hyx] using continuousAt_const

include hagrees

/-- At the start of the path are the values themselves. -/
theorem follow_self : follow v bindings x t₀ = v := by
  rw [follow, update_self_of_value hvalue, hagrees.through_eq]

/-- What is bound moves with the free variable. -/
theorem moves_bound {y : String} {b : Expr} (hb : bindings.get? y = some b) :
    Moves (fun t => Function.update v x (some t)) t₀ b := by
  have hdefined := hagrees.bindingsDefined y b hb
  apply moves_of_defined
  · rwa [update_self_of_value hvalue]
  · exact fun z hz => nameMoves_update hvalue (hdefined.isSome_of_mem hz)

/-- Every variable moves along: a free one by itself, a bound one with its expression. -/
theorem nameMoves_follow {y : String} (hy : (v y).isSome) :
    NameMoves (follow v bindings x) t₀ y := by
  cases hb : bindings.get? y with
  | none =>
    have hsame : ∀ t, follow v bindings x t y = Function.update v x (some t) y :=
      fun t => through_of_unbound hb
    obtain ⟨hsome, hread⟩ := nameMoves_update hvalue hy
    simp only [NameMoves, Valuation.read, hsame]
    exact ⟨hsome, hread⟩
  | some b =>
    obtain ⟨hdefined, hcontinuous⟩ := moves_bound hagrees hvalue hb
    constructor
    · filter_upwards [hdefined] with t ht
      exact (isSome_through_of_bound hb).2 ht
    · apply hcontinuous.congr
      filter_upwards [hdefined] with t ht
      exact (read_through_of_bound hb ht).symm

/-- What has a value keeps one while the bound variables follow. -/
theorem eventually_defined_follow {e : Expr} (he : e.Defined v) :
    ∀ᶠ t in 𝓝 t₀, e.Defined (follow v bindings x t) := by
  have hmoves : Moves (follow v bindings x) t₀ e := by
    apply moves_of_defined
    · rwa [follow_self hagrees hvalue]
    · exact fun y hy => nameMoves_follow hagrees hvalue (he.isSome_of_mem hy)
  exact hmoves.1

/-- The bound variables follow as long as what they are bound to has a value. -/
theorem eventually_agrees_follow (hreduced : Reduced bindings) :
    ∀ᶠ t in 𝓝 t₀, Agrees (follow v bindings x t) bindings := by
  have hdefined := eventually_bindingsDefined fun y b hb => (moves_bound hagrees hvalue hb).1
  filter_upwards [hdefined] with t ht
  intro y b hb
  -- No bound variable occurs in a bound expression, so following does not change its value.
  have hsame : b.eval (follow v bindings x t) = b.eval (Function.update v x (some t)) :=
    hreduced.eval_congr hb fun z hz => through_of_unbound hz
  have hb' := (ht y b hb).eval_eq
  refine ⟨b.value (Function.update v x (some t)), ?_, hsame.trans hb'⟩
  simp only [follow, Valuation.through, hb, hb', Except.toOption]

/-- The names that have a value keep one. -/
theorem isSome_follow_iff {t : Rat} (h : Agrees (follow v bindings x t) bindings) (y : String) :
    (follow v bindings x t y).isSome ↔ (v y).isSome := by
  cases hb : bindings.get? y with
  | none =>
    rw [follow, through_of_unbound hb]
    by_cases hyx : y = x
    · subst hyx
      simp [hvalue]
    · rw [Function.update_of_ne hyx]
  | some b =>
    obtain ⟨q, hq, _⟩ := hagrees y b hb
    obtain ⟨r, hr, _⟩ := h y b hb
    simp [hq, hr]

end Follow

/-! ## The way back -/

/-- Near a zero of the system the way back through a run is open: its bindings keep their values. -/
theorem eventually_vanishes_of_run {l : Filter Rat} {path : Rat → Valuation}
    (hkeeps : ∀ e : Expr, e.Defined v → ∀ᶠ t in l, e.Defined (path t)) {n : Nat} {s u : State}
    (hrun : Run n s u) (hreduced : Reduced s.bindings) (hholds : Holds v s)
    (h : ∀ᶠ t in l, Vanishes (path t) u) : ∀ᶠ t in l, Vanishes (path t) s := by
  induction hrun with
  | refl => exact h
  | head hstep _ ih =>
    have hnext := ih (reduced_of_step hstep hreduced) (holds_of_step hstep hholds) h
    have hdefined := eventually_bindingsDefined
      fun y b hb => hkeeps b (hholds.1.bindingsDefined y b hb)
    filter_upwards [hnext, hdefined] with t ht ht'
    exact vanishes_of_step hstep hreduced ht' ht

/-- Near a zero of a system the bound variables can follow the free one in such a way that the
system stays zero. -/
theorem eventually_zero_follow {equations : List Expr} {n : Nat} {x : String} {t₀ : Rat}
    (hv : ∀ e ∈ equations, e.eval v = .ok 0) (hrun : Run n (.start equations) ⟨[], bindings⟩)
    (hvalue : v x = some t₀) :
    ∀ᶠ t in 𝓝 t₀, Agrees (follow v bindings x t) bindings ∧
      ∀ e ∈ equations, e.eval (follow v bindings x t) = .ok 0 := by
  have hagrees := (holds_of_run hv hrun).1
  have hkeeps : ∀ e : Expr, e.Defined v → ∀ᶠ t in 𝓝 t₀, e.Defined (follow v bindings x t) :=
    fun e he => eventually_defined_follow hagrees hvalue he
  have hfollow := eventually_agrees_follow hagrees hvalue (reduced_of_run hrun)
  -- At the end of the run the queue is empty, and what is bound follows; from there the equations
  -- are traced back to the start.
  have hlast : ∀ᶠ t in 𝓝 t₀, Vanishes (follow v bindings x t) ⟨[], bindings⟩ := by
    filter_upwards [hfollow] with t ht
    exact ⟨ht, by simp⟩
  have hvanishes := eventually_vanishes_of_run hkeeps hrun reduced_empty (holds_start hv) hlast
  have hdefined : ∀ᶠ t in 𝓝 t₀, ∀ e ∈ equations, e.Defined (follow v bindings x t) :=
    eventually_forall_mem.2 fun e he => hkeeps e ⟨0, hv e he⟩
  filter_upwards [hfollow, hvanishes, hdefined] with t ht hzero hall
  exact ⟨ht, hzero.eval_eq_zero hall⟩

/-- Where elimination leaves a variable free, no zero of the system is the only one: there is
another, with values for the same names, at which that variable of the system has a different value.
-/
theorem exists_eval_eq_zero_of_underdetermined {limit : Nat} {equations : List Expr} {x : String}
    (h : solveWithin limit equations = .error (.underdetermined x))
    (hv : ∀ e ∈ equations, e.eval v = .ok 0) :
    (∃ e ∈ equations, x ∈ e.occurrences) ∧
      ∃ w : Valuation, (∀ y, (w y).isSome ↔ (v y).isSome) ∧ w x ≠ v x ∧
        ∀ e ∈ equations, e.eval w = .ok 0 := by
  obtain ⟨n, bindings, hrun, hresolve⟩ := exists_run_of_resolve h (by simp)
  have hagrees := (holds_of_run hv hrun).1
  obtain ⟨_, y, b, hfailure, hb, hx⟩ := resolve_eq_error hagrees.bindingsDefined hresolve
  cases hfailure
  -- The free variable occurs in what another is bound to, and is not bound itself.
  have hunbound := reduced_of_run hrun y b hb x hx
  have hsome := (hagrees.bindingsDefined y b hb).isSome_of_mem hx
  obtain ⟨t₀, hvalue⟩ := Option.isSome_iff_exists.1 hsome
  refine ⟨(drawnFrom_of_run hrun).values y b hb x hx, ?_⟩
  -- Every neighbourhood of a rational holds others.
  have hnear := (eventually_zero_follow hv hrun hvalue).filter_mono
    (nhdsWithin_le_nhds (s := {t₀}ᶜ))
  obtain ⟨t, ⟨hfollow, hzero⟩, hne⟩ := (hnear.and self_mem_nhdsWithin).exists
  refine ⟨follow v bindings x t, isSome_follow_iff hagrees hvalue hfollow, ?_, hzero⟩
  rw [follow, through_of_unbound hunbound, Function.update_self, hvalue]
  exact fun heq => hne (Option.some.inj heq)

/-- The quotient of z and 2 is a, but nothing is said about z. -/
theorem exists_eval_eq_zero_of_free_numerator :
    solveWithin 4 [sub (var "a") (fraction (var "z") (var "x")),
        sub (fraction (var "x") (const 2)) one] = .error (.underdetermined "z") ∧
    (∀ e ∈ [sub (var "a") (fraction (var "z") (var "x")), sub (fraction (var "x") (const 2)) one],
      e.eval (NameMap.ofList [("a", 3), ("x", 2), ("z", 6)]).get? = .ok 0) ∧
    ∃ w : Valuation,
      (∀ y, (w y).isSome ↔ ((NameMap.ofList [("a", (3 : Rat)), ("x", 2), ("z", 6)]).get? y).isSome) ∧
      w "z" ≠ (NameMap.ofList [("a", (3 : Rat)), ("x", 2), ("z", 6)]).get? "z" ∧
      ∀ e ∈ [sub (var "a") (fraction (var "z") (var "x")), sub (fraction (var "x") (const 2)) one],
        e.eval w = .ok 0 := by
  have hfree : solveWithin 4 [sub (var "a") (fraction (var "z") (var "x")),
      sub (fraction (var "x") (const 2)) one] = .error (.underdetermined "z") := by
    cbv
  have hzero : ∀ e ∈ [sub (var "a") (fraction (var "z") (var "x")),
      sub (fraction (var "x") (const 2)) one],
      e.eval (NameMap.ofList [("a", 3), ("x", 2), ("z", 6)]).get? = .ok 0 := by
    simp only [List.forall_mem_cons]
    exact ⟨by cbv, by cbv, by simp⟩
  exact ⟨hfree, hzero, (exists_eval_eq_zero_of_underdetermined hfree hzero).2⟩

end RationalAlgebra
