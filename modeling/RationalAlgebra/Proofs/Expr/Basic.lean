import Mathlib
import RationalAlgebra.Expr.Substitution
import RationalAlgebra.Normal.Form

/-!
# Expressions by their parts

An induction principle over the tree, in which the addends of a sum and the factors of a product
come with their hypotheses, and the equations that say what the queries, substitution and
normalization do at each kind of node.
-/

namespace RationalAlgebra.Expr

/-- Induction over the tree: what holds of a node if it holds of all its parts holds of every
expression. -/
@[elab_as_elim]
theorem tree_induction {motive : Expr → Prop}
    (sum : ∀ es, (∀ e ∈ es, motive e) → motive (.sum es))
    (product : ∀ c vs fs, (∀ f ∈ fs, motive f) → motive (.product c vs fs))
    (fraction : ∀ n d, motive n → motive d → motive (.fraction n d)) (e : Expr) : motive e :=
  @Expr.rec motive (fun es => ∀ e ∈ es, motive e) sum product fraction (by simp)
    (fun _ _ he hes => List.forall_mem_cons.2 ⟨he, hes⟩) e

/-! ## Variables -/

/-- The occurrences in a list are those in its expressions, one after another. -/
theorem occurrencesList_eq (es : List Expr) : occurrencesList es = es.flatMap occurrences := by
  induction es with
  | nil => rfl
  | cons e es ih => rw [occurrencesList, ih, List.flatMap_cons]

/-- A variable occurs in a list if it occurs in one of its expressions. -/
theorem mem_occurrencesList {x : String} {es : List Expr} :
    x ∈ occurrencesList es ↔ ∃ e ∈ es, x ∈ e.occurrences := by
  rw [occurrencesList_eq, List.mem_flatMap]

/-- A variable occurs in a sum if it occurs in an addend. -/
@[simp]
theorem mem_occurrences_sum {x : String} {es : List Expr} :
    x ∈ (sum es).occurrences ↔ ∃ e ∈ es, x ∈ e.occurrences := by
  rw [occurrences, mem_occurrencesList]

/-- A variable occurs in a product if it is one of its variables or occurs in a factor. -/
@[simp]
theorem mem_occurrences_product {x : String} {c : Rat} {vs : List String} {fs : List Expr} :
    x ∈ (product c vs fs).occurrences ↔ x ∈ vs ∨ ∃ f ∈ fs, x ∈ f.occurrences := by
  rw [occurrences, List.mem_append, mem_occurrencesList]

/-- A variable occurs in a quotient if it occurs above or below. -/
@[simp]
theorem mem_occurrences_fraction {x : String} {n d : Expr} :
    x ∈ (fraction n d).occurrences ↔ x ∈ n.occurrences ∨ x ∈ d.occurrences := by
  rw [occurrences, List.mem_append]

/-- A multiple has the variables of the expression, also when the multiple is zero. -/
@[simp]
theorem mem_occurrences_scaled {x : String} {k : Rat} {e : Expr} :
    x ∈ (e.scaled k).occurrences ↔ x ∈ e.occurrences := by
  cases e <;> simp [scaled]

/-- The test for a variable reads the list of occurrences. -/
theorem mentions_iff {e : Expr} {x : String} : e.mentions x = true ↔ x ∈ e.occurrences := by
  rw [mentions, List.contains_iff_mem]

theorem mem_insertName {x name : String} {names : List String} :
    x ∈ insertName name names ↔ x = name ∨ x ∈ names := by
  induction names with
  | nil => simp [insertName]
  | cons n rest ih =>
    rw [insertName]
    split
    · exact List.mem_cons
    · split
      · -- The name is there already: the list stays as it is.
        rename_i heq
        simp [heq]
      · rw [List.mem_cons, List.mem_cons, ih, or_left_comm]

theorem mem_variableNames {e : Expr} {x : String} : x ∈ e.variableNames ↔ x ∈ e.occurrences := by
  have hfold : ∀ names : List String, x ∈ names.foldr insertName [] ↔ x ∈ names := by
    intro names
    induction names with
    | nil => rfl
    | cons n rest ih => rw [List.foldr_cons, mem_insertName, List.mem_cons, ih]
  exact hfold e.occurrences

theorem firstVariable?_eq_none {e : Expr} : e.firstVariable? = none ↔ e.occurrences = [] := by
  rw [firstVariable?, List.head?_eq_none_iff]

theorem mem_of_firstVariable? {e : Expr} {x : String} (h : e.firstVariable? = some x) :
    x ∈ e.occurrences :=
  List.mem_of_head? h

/-- What reads as a constant is built as one. -/
theorem eq_const_of_asConstant? {e : Expr} {k : Rat} (h : e.asConstant? = some k) :
    e = const k := by
  unfold asConstant? at h
  split at h
  · cases h
    rfl
  · cases h

/-! ## Substitution -/

/-- In a list in which something changes every expression is replaced; one that does not change is
its own replacement. -/
theorem replaceList?_getD (bindings : Bindings) (es : List Expr) :
    (replaceList? bindings es).getD es = es.map (replace bindings) := by
  induction es with
  | nil => rfl
  | cons e es ih =>
    rw [replaceList?, List.map_cons, ← ih, replace]
    split
    · -- Neither the first expression nor the rest changes.
      rename_i he hes
      rw [he, hes]
      rfl
    · rfl

@[simp]
theorem replace_sum (bindings : Bindings) (es : List Expr) :
    (sum es).replace bindings = sum (es.map (replace bindings)) := by
  rw [← replaceList?_getD, replace, replace?]
  cases replaceList? bindings es with
  | none => rfl
  | some _ => rfl

/-- Where nothing replaces a variable, all stay. -/
theorem unbound_eq_self {bindings : Bindings} {vs : List String}
    (h : replacements bindings vs = []) : unbound bindings vs = vs := by
  rw [replacements, List.filterMap_eq_nil_iff] at h
  rw [unbound, List.filter_eq_self]
  intro x hx
  rw [h x hx]
  rfl

section Names

variable {bindings : Bindings} {x : String} {b : Expr}

/-- A variable with an expression leaves the variables of its product. -/
theorem unbound_cons_of_bound (h : bindings.get? x = some b) (xs : List String) :
    unbound bindings (x :: xs) = unbound bindings xs := by
  simp [unbound, h]

theorem unbound_cons_of_unbound (h : bindings.get? x = none) (xs : List String) :
    unbound bindings (x :: xs) = x :: unbound bindings xs := by
  simp [unbound, h]

/-- The expression of a variable comes at the place of the variable among the new factors. -/
theorem replacements_cons_of_bound (h : bindings.get? x = some b) (xs : List String) :
    replacements bindings (x :: xs) = b :: replacements bindings xs := by
  simp [replacements, h]

theorem replacements_cons_of_unbound (h : bindings.get? x = none) (xs : List String) :
    replacements bindings (x :: xs) = replacements bindings xs := by
  simp [replacements, h]

end Names

/-- In a product the variables that are replaced turn into factors, behind those that were there. -/
@[simp]
theorem replace_product (bindings : Bindings) (c : Rat) (vs : List String) (fs : List Expr) :
    (product c vs fs).replace bindings =
      product c (unbound bindings vs) (fs.map (replace bindings) ++ replacements bindings vs) := by
  rw [← replaceList?_getD, replace, replace?]
  split
  · rename_i hfound hfs
    -- Nothing is replaced, and the product stays as it is.
    rw [List.isEmpty_iff] at hfound
    rw [unbound_eq_self hfound, hfound, hfs, Option.getD_none, Option.getD_none, List.append_nil]
  · rfl

@[simp]
theorem replace_fraction (bindings : Bindings) (n d : Expr) :
    (fraction n d).replace bindings = fraction (n.replace bindings) (d.replace bindings) := by
  rw [replace, replace, replace, replace?]
  split
  · rename_i hn hd
    rw [hn, hd]
    rfl
  · rfl

theorem replace_sub (bindings : Bindings) (a b : Expr) :
    (sub a b).replace bindings = sub (a.replace bindings) (b.replace bindings) := by
  rw [sub, replace_sum, List.map_cons, List.map_cons, neg, replace_product]
  rfl

/-- A list stays as it is if each of its expressions does. -/
theorem replaceList?_eq_none_iff {bindings : Bindings} {es : List Expr} :
    replaceList? bindings es = none ↔ ∀ e ∈ es, e.replace? bindings = none := by
  induction es with
  | nil => simp [replaceList?]
  | cons e es ih =>
    rw [List.forall_mem_cons, ← ih, replaceList?]
    split
    · rename_i he hes
      simp [he, hes]
    · -- Something changed, so the two cannot both be unchanged.
      rename_i hsome
      simpa using hsome

/-- A product stays as it is if no variable of its own is replaced and no factor changes. -/
theorem replace?_product_eq_none_iff {bindings : Bindings} {c : Rat} {vs : List String}
    {fs : List Expr} :
    (product c vs fs).replace? bindings = none ↔
      (∀ x ∈ vs, bindings.get? x = none) ∧ ∀ f ∈ fs, f.replace? bindings = none := by
  rw [← List.filterMap_eq_nil_iff, ← replacements, ← List.isEmpty_iff, ← replaceList?_eq_none_iff,
    replace?]
  split
  · rename_i hfound hfs
    simp [hfound, hfs]
  · rename_i hsome
    simpa using hsome

/-- A quotient stays as it is if both parts do. -/
theorem replace?_fraction_eq_none_iff {bindings : Bindings} {n d : Expr} :
    (fraction n d).replace? bindings = none ↔
      n.replace? bindings = none ∧ d.replace? bindings = none := by
  rw [replace?]
  split
  · rename_i hn hd
    simp [hn, hd]
  · rename_i hsome
    simpa using hsome

/-- Nothing is replaced exactly where no variable is bound. -/
theorem replace?_eq_none_iff {bindings : Bindings} {e : Expr} :
    e.replace? bindings = none ↔ ∀ x ∈ e.occurrences, bindings.get? x = none := by
  induction e using tree_induction with
  | sum es ih =>
    rw [replace?, Option.map_eq_none_iff, replaceList?_eq_none_iff, forall₂_congr ih]
    simp only [mem_occurrences_sum]
    grind
  | product c vs fs ih =>
    rw [replace?_product_eq_none_iff, forall₂_congr ih]
    simp only [mem_occurrences_product]
    grind
  | fraction n d ihn ihd =>
    rw [replace?_fraction_eq_none_iff, ihn, ihd]
    simp only [mem_occurrences_fraction]
    grind

/-- An expression in which no variable is bound stays as it is. -/
theorem replace_of_unbound {bindings : Bindings} {e : Expr}
    (h : ∀ x ∈ e.occurrences, bindings.get? x = none) : e.replace bindings = e := by
  rw [replace, replace?_eq_none_iff.2 h, Option.getD_none]

/-! ## Normal forms of lists -/

theorem normalizeList_eq (es : List Expr) : normalizeList es = es.map normalize := by
  induction es with
  | nil => rfl
  | cons e es ih => rw [normalizeList, ih, List.map_cons]

end RationalAlgebra.Expr
