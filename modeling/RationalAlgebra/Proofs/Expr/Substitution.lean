import Mathlib
import RationalAlgebra.Proofs.Expr.Value

/-!
# Values and variables of a substitution

To put expressions in for variables and evaluate is to evaluate under the values that the
expressions have. The values are read all at once, as substitution itself is done.

Main statement: `eval_replace_eq_ok_iff`. A valuation that already gives every bound variable the
value of its expression, as `Agrees` says, is not changed at all.

The last section says which variables a substitution has (`occurrences_replace_perm`), and that it
tells exactly whether it changes anything (`replace?_tells_changes`).
-/

namespace RationalAlgebra

variable {v : Valuation} {bindings : Bindings}

/-- The valuation in which every bound variable has the value of its expression. -/
def Valuation.through (v : Valuation) (bindings : Bindings) : Valuation := fun x =>
  match bindings.get? x with
  | some e => (e.eval v).toOption
  | none => v x

/-- Every bound variable has the value of its expression. -/
def Agrees (v : Valuation) (bindings : Bindings) : Prop :=
  ∀ x e, bindings.get? x = some e → ∃ q, v x = some q ∧ e.eval v = .ok q

/-- Values that agree with the expressions stay the same when read through them. -/
theorem Agrees.through_eq (h : Agrees v bindings) : v.through bindings = v := by
  funext x
  unfold Valuation.through
  split
  · rename_i e he
    obtain ⟨q, hx, hq⟩ := h x e he
    rw [hx, hq]
    rfl
  · rfl

namespace Expr

/-- A replaced variable has a value where its expression has. -/
theorem isSome_through_of_bound {x : String} {e : Expr} (h : bindings.get? x = some e) :
    (v.through bindings x).isSome ↔ e.Defined v := by
  simp only [Valuation.through, h]
  cases he : e.eval v with
  | error f => simp [Defined, he, Except.toOption]
  | ok a => simp [Defined, he, Except.toOption]

/-- A replaced variable is read as the value of its expression. -/
theorem read_through_of_bound {x : String} {e : Expr} (h : bindings.get? x = some e)
    (he : e.Defined v) : (v.through bindings).read x = e.value v := by
  simp [Valuation.read, Valuation.through, h, he.eval_eq, Except.toOption]

theorem through_of_unbound {x : String} (h : bindings.get? x = none) :
    v.through bindings x = v x := by
  simp only [Valuation.through, h]

/-- A product whose variables are replaced needs a value for each variable that stays and for each
expression that is put in. -/
theorem defined_variables_iff (vs : List String) :
    ((∀ x ∈ unbound bindings vs, (v x).isSome) ∧ ∀ e ∈ replacements bindings vs, e.Defined v) ↔
      ∀ x ∈ vs, (v.through bindings x).isSome := by
  induction vs with
  | nil => simp [unbound, replacements]
  | cons x xs ih =>
    rw [List.forall_mem_cons, ← ih]
    -- The first variable stays among the variables or turns into a factor; its condition goes
    -- along.
    cases hx : bindings.get? x with
    | none =>
      rw [through_of_unbound hx, unbound_cons_of_unbound hx, replacements_cons_of_unbound hx,
        List.forall_mem_cons, and_assoc]
    | some e =>
      rw [isSome_through_of_bound hx, unbound_cons_of_bound hx, replacements_cons_of_bound hx,
        List.forall_mem_cons, and_left_comm]

/-- The variables that stay and the factors that come in have the product that the variables have
when read through the expressions. -/
theorem value_variables {vs : List String} (h : ∀ e ∈ replacements bindings vs, e.Defined v) :
    ((unbound bindings vs).map v.read).prod * ((replacements bindings vs).map (value v)).prod =
      (vs.map (v.through bindings).read).prod := by
  induction vs with
  | nil => simp [unbound, replacements]
  | cons x xs ih =>
    cases hx : bindings.get? x with
    | none =>
      -- The variable stays, with the value it has.
      have hread : (v.through bindings).read x = v.read x := by
        rw [Valuation.read, through_of_unbound hx, Valuation.read]
      rw [replacements_cons_of_unbound hx] at h ⊢
      rw [unbound_cons_of_unbound hx, List.map_cons, List.map_cons, List.prod_cons, List.prod_cons,
        hread, ← ih h, mul_assoc]
    | some e =>
      -- The variable leaves the list, and its expression comes in as a factor.
      rw [replacements_cons_of_bound hx, List.forall_mem_cons] at h
      rw [replacements_cons_of_bound hx, unbound_cons_of_bound hx, List.map_cons, List.map_cons,
        List.prod_cons, List.prod_cons, read_through_of_bound hx h.1, ← ih h.2]
      ring

/-- The replaced expression is defined where the expression is under the values put through, and
then it has the same value. -/
theorem defined_replace (e : Expr) :
    ((e.replace bindings).Defined v ↔ e.Defined (v.through bindings)) ∧
      (e.Defined (v.through bindings) →
        (e.replace bindings).value v = e.value (v.through bindings)) := by
  -- That values are defined and what they are is proved together: whether a quotient has a value
  -- depends on the value of its denominator.
  induction e using tree_induction with
  | sum es ih =>
    rw [replace_sum, defined_sum, defined_sum, List.forall_mem_map]
    constructor
    · exact forall₂_congr fun e he => (ih e he).1
    · intro h
      rw [value_sum, value_sum, List.map_map]
      exact congrArg List.sum (List.map_congr_left fun e he => (ih e he).2 (h e he))
  | product c vs fs ih =>
    rw [replace_product, defined_product, defined_product, ← defined_variables_iff]
    have hfactors : (∀ f ∈ fs.map (replace bindings), f.Defined v) ↔
        ∀ f ∈ fs, f.Defined (v.through bindings) := by
      rw [List.forall_mem_map]
      exact forall₂_congr fun f hf => (ih f hf).1
    constructor
    · -- Replaced factors and replacements together are the new factors.
      rw [List.forall_mem_append, hfactors]
      tauto
    · intro h
      have hvalues : (fs.map (replace bindings)).map (value v) =
          fs.map (value (v.through bindings)) := by
        rw [List.map_map]
        exact List.map_congr_left fun f hf => (ih f hf).2 (h.2 f hf)
      rw [value_product, value_product, List.map_append, List.prod_append, hvalues,
        ← value_variables h.1.2]
      ring
  | fraction n d ihn ihd =>
    rw [replace_fraction, defined_fraction, defined_fraction, value_fraction, value_fraction]
    constructor
    · -- The denominator has the same value before and after, so it is zero on both sides or none.
      rw [ihn.1, ihd.1]
      constructor
      · intro h
        exact ⟨h.1, h.2.1, ihd.2 h.2.1 ▸ h.2.2⟩
      · intro h
        exact ⟨h.1, h.2.1, (ihd.2 h.2.1).symm ▸ h.2.2⟩
    · intro h
      rw [ihn.2 h.1, ihd.2 h.2.1]

/-- To substitute and evaluate is to evaluate under the values put through. -/
theorem eval_replace_eq_ok_iff {e : Expr} {q : Rat} :
    (e.replace bindings).eval v = .ok q ↔ e.eval (v.through bindings) = .ok q := by
  have hreplace := @defined_replace v bindings e
  obtain ⟨hdefined, hvalue⟩ := hreplace
  rw [eval_eq_ok_iff, eval_eq_ok_iff, hdefined]
  constructor
  · rintro ⟨h, rfl⟩
    exact ⟨h, (hvalue h).symm⟩
  · rintro ⟨h, rfl⟩
    exact ⟨h, hvalue h⟩

/-- A valuation that agrees with the bindings does not notice that they are put in. -/
theorem eval_replace_of_agrees (h : Agrees v bindings) {e : Expr} {q : Rat} :
    (e.replace bindings).eval v = .ok q ↔ e.eval v = .ok q := by
  rw [eval_replace_eq_ok_iff, h.through_eq]

/-- A new factor is the expression of one of the variables. -/
theorem mem_replacements {e : Expr} {vs : List String} :
    e ∈ replacements bindings vs ↔ ∃ x ∈ vs, bindings.get? x = some e := by
  rw [replacements, List.mem_filterMap]

/-! ## Failures of a substitution -/

/-- Factors that have values, behind others, multiply the value of those and do not change their
failure. -/
theorem evalProduct_append_of_defined (es : List Expr) {fs : List Expr}
    (hfs : ∀ f ∈ fs, f.Defined v) (t : Rat) :
    evalProduct v t (es ++ fs) =
      (evalProduct v t es).map fun q => q * (fs.map (value v)).prod := by
  -- The failure of an earlier factor comes first on both sides; the later factors do not fail.
  induction es generalizing t with
  | nil =>
    obtain ⟨q, hq⟩ := evalProduct_isOk_iff.2 hfs
    have hvalue := valueProduct_of_eval (fun f _ _ => value_of_eval) hq
    rw [List.nil_append, hq, ← hvalue, valueProduct_eq]
    rfl
  | cons e es ih =>
    rw [List.cons_append, evalProduct, evalProduct]
    cases e.eval v with
    | error f => rfl
    | ok a => exact ih _

/-- A factor in front may be multiplied in last. -/
theorem evalProduct_mul (k t : Rat) (es : List Expr) :
    evalProduct v (t * k) es = (evalProduct v t es).map fun q => q * k := by
  induction es generalizing t with
  | nil => rfl
  | cons e es ih =>
    rw [evalProduct, evalProduct]
    cases e.eval v with
    | error f => rfl
    | ok a =>
      simp only
      rw [mul_right_comm, ih]

/-- The same for the variables of a product. -/
theorem evalVariables_mul (k t : Rat) (names : List String) :
    evalVariables v (t * k) names = (evalVariables v t names).map fun q => q * k := by
  induction names generalizing t with
  | nil => rfl
  | cons x xs ih =>
    rw [evalVariables, evalVariables]
    cases v x with
    | none => rfl
    | some a =>
      simp only
      rw [mul_right_comm, ih]

/-- The variables that stay are read as before, with the same failure; the others contribute the
values of their expressions. -/
theorem evalVariables_through (h : ∀ x b, bindings.get? x = some b → b.Defined v) (c : Rat)
    (vs : List String) :
    evalVariables (v.through bindings) c vs =
      (evalVariables v c (unbound bindings vs)).map fun q =>
        q * ((replacements bindings vs).map (value v)).prod := by
  induction vs generalizing c with
  | nil => simp [unbound, replacements, evalVariables, Except.map]
  | cons x xs ih =>
    cases hx : bindings.get? x with
    | none =>
      rw [unbound_cons_of_unbound hx, replacements_cons_of_unbound hx, evalVariables, evalVariables,
        through_of_unbound hx]
      -- A variable without a value stops both sides here.
      cases v x with
      | none => rfl
      | some q => exact ih _
    | some b =>
      have hb := h x b hx
      have hread : v.through bindings x = some (b.value v) := by
        rw [Valuation.eq_some_read ((isSome_through_of_bound hx).2 hb), read_through_of_bound hx hb]
      rw [unbound_cons_of_bound hx, replacements_cons_of_bound hx, evalVariables, hread]
      simp only
      rw [ih, List.map_cons, List.prod_cons]
      -- The value of the expression is multiplied in first on one side and last on the other.
      rw [evalVariables_mul]
      cases evalVariables v c (unbound bindings xs) with
      | error f => rfl
      | ok a => simp only [Except.map, mul_assoc]

/-- Where the expressions that are put in have values, substituting and evaluating gives what
evaluating under these values gives, also if that is a failure. -/
theorem eval_replace_through (h : ∀ x b, bindings.get? x = some b → b.Defined v) (e : Expr) :
    (e.replace bindings).eval v = e.eval (v.through bindings) := by
  induction e using tree_induction with
  | sum es ih =>
    rw [replace_sum, eval, eval]
    exact evalSum_map ih 0
  | product c vs fs ih =>
    -- Each new factor has a value, so it cannot hide the failure of a factor that was there.
    have hfound : ∀ b ∈ replacements bindings vs, b.Defined v := by
      intro b hb
      obtain ⟨x, _, hx⟩ := mem_replacements.1 hb
      exact h x b hx
    rw [replace_product, eval, eval, evalVariables_through h]
    cases evalVariables v c (unbound bindings vs) with
    | error f => rfl
    | ok a =>
      simp only [Except.map]
      rw [evalProduct_append_of_defined _ hfound, evalProduct_map ih, evalProduct_mul]
  | fraction n d ihn ihd => rw [replace_fraction, eval, eval, ihn, ihd]

/-- Substitution is simultaneous. Let every expression that is put in have a value under `v`. Then
the substituted expression evaluates under `v` as the expression does under `v` with the bound
variables reset to these values: to the same value, or to the same failure. -/
theorem eval_replace_simultaneous {w : String → Rat}
    (h : ∀ x b, bindings.get? x = some b → b.eval v = .ok (w x)) (e : Expr) :
    (e.replace bindings).eval v =
      e.eval fun x => if (bindings.get? x).isSome then some (w x) else v x := by
  have hreset : v.through bindings =
      fun x => if (bindings.get? x).isSome then some (w x) else v x := by
    funext x
    cases hx : bindings.get? x with
    | none => rw [through_of_unbound hx]; rfl
    | some b => simp [Valuation.through, hx, h x b hx, Except.toOption]
  rw [← hreset]
  exact eval_replace_through (fun x b hx => ⟨w x, h x b hx⟩) e

/-- Here `y` is put in for `x` and at the same time 2 for `y`, where `y` is 3: the `y` that comes in
is read as 3, and the one that was there as 2. The name `z` has no value, on either side. -/
theorem eval_replace_simultaneous_crossed :
    (∀ x b, (NameMap.ofList [("x", var "y"), ("y", const 2)]).get? x = some b →
      b.eval (fun x => if x = "y" then some 3 else none) = .ok (if x = "x" then 3 else 2)) ∧
    ((product 1 ["x", "y", "x"] []).replace
        (NameMap.ofList [("x", var "y"), ("y", const 2)])).eval
      (fun x => if x = "y" then some 3 else none) = .ok 18 ∧
    ((product 1 ["x"] [fraction (var "y") (var "z")]).replace
        (NameMap.ofList [("x", var "y"), ("y", const 2)])).eval
      (fun x => if x = "y" then some 3 else none) = .error (.unboundVariable "z") := by
  have h : ∀ x b, (NameMap.ofList [("x", var "y"), ("y", const 2)]).get? x = some b →
      b.eval (fun x => if x = "y" then some 3 else none) = .ok (if x = "x" then 3 else 2) := by
    intro x b hb
    rw [NameMap.ofList, List.foldl_cons, List.foldl_cons, List.foldl_nil, NameMap.get?_insert,
      NameMap.get?_insert, NameMap.get?_empty] at hb
    -- The insertion that came last is looked up first.
    split at hb
    · rename_i hx
      cases hb
      subst hx
      rfl
    · split at hb
      · rename_i hx
        cases hb
        subst hx
        cbv
      · cases hb
  refine ⟨h, ?_, ?_⟩
  · rw [eval_replace_simultaneous h]
    cbv
  · rw [eval_replace_simultaneous h]
    cbv

/-! ## The variables of a substitution -/

/-- What an occurrence of a variable becomes in a substitution: the occurrences in the expression
that is put in for it, or itself. -/
def occurrencesFor (bindings : Bindings) (x : String) : List String :=
  match bindings.get? x with
  | some b => b.occurrences
  | none => [x]

/-- A variable that stands for itself has no expression. -/
theorem mem_occurrencesFor {x y : String} :
    y ∈ occurrencesFor bindings x ↔
      (y = x ∧ bindings.get? y = none) ∨ ∃ b, bindings.get? x = some b ∧ y ∈ b.occurrences := by
  unfold occurrencesFor
  cases hx : bindings.get? x with
  | none => simpa using fun hy => hy ▸ hx
  | some b => simpa using fun hy hnone => by simp [hy, hx] at hnone

/-- The variables of a product stay in it or become factors. -/
theorem flatMap_occurrencesFor_perm (bindings : Bindings) (vs : List String) :
    (vs.flatMap (occurrencesFor bindings)).Perm
      (unbound bindings vs ++ (replacements bindings vs).flatMap occurrences) := by
  induction vs with
  | nil => rfl
  | cons x xs ih =>
    rw [List.flatMap_cons, occurrencesFor]
    cases hx : bindings.get? x with
    | none =>
      rw [unbound_cons_of_unbound hx, replacements_cons_of_unbound hx]
      exact ih.cons x
    | some b =>
      rw [unbound_cons_of_bound hx, replacements_cons_of_bound hx, List.flatMap_cons]
      -- The occurrences in the expression move behind those of the variables that stay.
      exact (ih.append_left _).trans (List.perm_append_comm_assoc _ _ _)

/-- What holds of the occurrences in each of some expressions holds of those in all of them. -/
theorem flatMap_map_replace_perm {es : List Expr} (h : ∀ e ∈ es,
    (e.replace bindings).occurrences.Perm (e.occurrences.flatMap (occurrencesFor bindings))) :
    ((es.map (replace bindings)).flatMap occurrences).Perm
      ((es.flatMap occurrences).flatMap (occurrencesFor bindings)) := by
  rw [List.flatMap_map, List.flatMap_assoc]
  exact List.Perm.flatMap_left es h

/-- The occurrences of a substitution are those that the occurrences of the expression become, in
another order: what is put in for a variable of a product stands behind the other factors. -/
theorem occurrences_replace_perm (e : Expr) :
    (e.replace bindings).occurrences.Perm (e.occurrences.flatMap (occurrencesFor bindings)) := by
  induction e using tree_induction with
  | sum es ih =>
    rw [replace_sum, occurrences, occurrences, occurrencesList_eq, occurrencesList_eq]
    exact flatMap_map_replace_perm ih
  | product c vs fs ih =>
    rw [replace_product, occurrences, occurrences, occurrencesList_eq, occurrencesList_eq,
      List.flatMap_append, List.flatMap_append]
    have hparts :=
      (flatMap_occurrencesFor_perm bindings vs).symm.append (flatMap_map_replace_perm ih)
    rw [List.append_assoc] at hparts
    -- The product has its replaced factors before the new ones; the occurrences are counted with
    -- the variables first.
    exact (List.perm_append_comm.append_left _).trans hparts
  | fraction n d ihn ihd =>
    rw [replace_fraction, occurrences, occurrences, List.flatMap_append]
    exact ihn.append ihd

/-- What is left in a substitution is a variable that is not bound, or a variable of an expression
that is put in. -/
theorem mem_occurrences_replace {e : Expr} {y : String} :
    y ∈ (e.replace bindings).occurrences ↔
      (y ∈ e.occurrences ∧ bindings.get? y = none) ∨
        ∃ x ∈ e.occurrences, ∃ b, bindings.get? x = some b ∧ y ∈ b.occurrences := by
  rw [(occurrences_replace_perm e).mem_iff, List.mem_flatMap]
  simp only [mem_occurrencesFor]
  grind

/-- A substitution tells exactly whether it changes anything. It changes nothing if and only if no
variable of the expression is bound, and then it leaves the expression itself; otherwise the result
has the variables that are not bound, and those of the expressions bound to the others. -/
theorem replace?_tells_changes (bindings : Bindings) (e : Expr) :
    (e.replace? bindings = none ↔ ∀ x ∈ e.variableNames, x ∉ bindings.names) ∧
      (e.replace? bindings = none → e.replace bindings = e) ∧
      ∀ e', e.replace? bindings = some e' →
        e.replace bindings = e' ∧ ∀ y, y ∈ e'.variableNames ↔
          (y ∈ e.variableNames ∧ y ∉ bindings.names) ∨
            ∃ x ∈ e.variableNames, ∃ b, bindings.get? x = some b ∧ y ∈ b.variableNames := by
  simp only [mem_variableNames, NameMap.not_mem_names_iff]
  refine ⟨replace?_eq_none_iff, ?_, ?_⟩
  · intro hnone
    exact replace_of_unbound (replace?_eq_none_iff.1 hnone)
  · intro e' he'
    have hreplace : e.replace bindings = e' := by rw [replace, he', Option.getD_some]
    refine ⟨hreplace, fun y => ?_⟩
    rw [← hreplace]
    exact mem_occurrences_replace

/-- In `2*x*x*(y/z)` the variable `x` is bound to `w/y` and `z` to a constant: of its variables only
`y` is left, and `w` comes in. Bindings of `w` and `t` change nothing. -/
theorem replace?_tells_changes_in_product :
    (∃ e', (product 2 ["x", "x"] [fraction (var "y") (var "z")]).replace?
        (NameMap.ofList [("x", fraction (var "w") (var "y")), ("z", const 3)]) = some e' ∧
      "w" ∈ e'.variableNames ∧ "y" ∈ e'.variableNames ∧ "x" ∉ e'.variableNames) ∧
    (product 2 ["x", "x"] [fraction (var "y") (var "z")]).replace?
        (NameMap.ofList [("w", const 1), ("t", var "x")]) = none ∧
      (product 2 ["x", "x"] [fraction (var "y") (var "z")]).replace
        (NameMap.ofList [("w", const 1), ("t", var "x")]) =
          product 2 ["x", "x"] [fraction (var "y") (var "z")] := by
  have hsome : (product 2 ["x", "x"] [fraction (var "y") (var "z")]).replace?
      (NameMap.ofList [("x", fraction (var "w") (var "y")), ("z", const 3)]) =
        some (product 2 [] [fraction (var "y") (prod [const 3]), fraction (var "w") (var "y"),
          fraction (var "w") (var "y")]) := by
    rfl
  have hnone : (product 2 ["x", "x"] [fraction (var "y") (var "z")]).replace?
      (NameMap.ofList [("w", const 1), ("t", var "x")]) = none := by
    rfl
  have hleft := ((replace?_tells_changes _ _).2.2 _ hsome).2
  refine ⟨⟨_, hsome, ?_, ?_, ?_⟩, hnone, (replace?_tells_changes _ _).2.1 hnone⟩
  · exact (hleft "w").2 (Or.inr ⟨"x", by decide, _, rfl, by decide⟩)
  · exact (hleft "y").2 (Or.inl ⟨by decide, by decide⟩)
  · decide

end Expr

end RationalAlgebra
