import Mathlib
import RationalAlgebra.Proofs.Expr.Basic

/-!
# What the rules of normalization keep

Three facts about normal forms are proved along the same path: that no product stands directly
inside a product, that no variable is invented, and that no division by zero is created. The path
is walked once, for any `Hereditary` property: one that a sum has if its addends have it and a
product if its variables are admitted and its factors have it, that a quotient passes on to its two
parts, and that survives when variables are cancelled from a denominator.

Main statements: `Hereditary.ofExprs` for sums, `Hereditary.multiply` for products and
`Hereditary.divide` for quotients; each says that the rule keeps the property. What follows for
every expression is `mem_occurrences_of_normalize`, and `mentions_of_normalize` says it of all
queries for variables.
-/

namespace RationalAlgebra

namespace Expr

/-! ## Flat expressions -/

/-- Constants and variables are products too. -/
def IsProduct : Expr → Prop
  | product _ _ _ => True
  | _ => False

mutual

/-- No product stands directly inside a product. -/
def Flat : Expr → Prop
  | sum addends => FlatAll addends
  | product _ _ fs => (∀ f ∈ fs, ¬ f.IsProduct) ∧ FlatAll fs
  | fraction n d => n.Flat ∧ d.Flat

/-- Some expressions in each of which no product stands directly inside a product. -/
def FlatAll : List Expr → Prop
  | [] => True
  | e :: es => e.Flat ∧ FlatAll es

end

/-- Some expressions are flat together if each is. -/
theorem flatAll_iff {es : List Expr} : FlatAll es ↔ ∀ e ∈ es, e.Flat := by
  induction es with
  | nil => simp [FlatAll]
  | cons e es ih => simp [FlatAll, ih]

/-- A term whose coefficient is one: what like terms are merged by. -/
def Monic (m : Expr) : Prop :=
  m.split.1 = 1

/-- Only a product can have a coefficient. -/
theorem monic_of_not_isProduct {e : Expr} (h : ¬ e.IsProduct) : e.Monic := by
  unfold Monic split
  split
  · exact absurd trivial h
  · rfl

/-- A monomial without products among its factors has no coefficient, also when it is a single
factor. -/
theorem monic_monomial {vs : List String} {fs : List Expr} (h : ∀ f ∈ fs, ¬ f.IsProduct) :
    (monomial vs fs).Monic := by
  unfold monomial
  split
  · exact monic_of_not_isProduct (h _ List.mem_cons_self)
  · rfl

end Expr

open RationalAlgebra.Expr

/-! ## Hereditary properties -/

/-- A property of expressions, with the variables it admits, that the rules of normalization
keep. -/
structure Hereditary (N : String → Prop) (P : Expr → Prop) : Prop where
  sum_iff : ∀ {es : List Expr}, P (.sum es) ↔ ∀ e ∈ es, P e
  product_iff : ∀ {c : Rat} {vs : List String} {fs : List Expr},
    P (.product c vs fs) ↔ (∀ x ∈ vs, N x) ∧ ∀ f ∈ fs, P f ∧ ¬ f.IsProduct
  parts : ∀ {n d : Expr}, P (.fraction n d) → P n ∧ P d
  shrink : ∀ {n : Expr} {xs ys : List String},
    P (.fraction n (.product 1 xs [])) → ys ⊆ xs → P (.fraction n (.product 1 ys []))

/-- Every monomial of a combination has a property. -/
def Combination.All (P : Expr → Prop) (a : Combination) : Prop :=
  ∀ t ∈ a.terms, P t.monomial.expr

/-- The variables of a product that is taken apart are admitted, and its quotients are no products
and have a property. -/
def Factors.All (N : String → Prop) (P : Expr → Prop) (p : Factors) : Prop :=
  (∀ x ∈ p.names, N x) ∧ ∀ f ∈ p.quotients, P f ∧ ¬ f.IsProduct

namespace Combination

variable {P : Expr → Prop}

theorem all_empty : empty.All P := by
  simp [All, empty]

/-- A property of all monomials is kept when one with the property is added. -/
theorem All.insert {a : Combination} (ha : a.All P) {m : Keyed} (hm : P m.expr) (c : Rat) :
    (a.insert m c).All P := by
  intro t ht
  rcases monomial_mem_insertTerm ht with heq | ⟨s, hs, heq⟩
  · rw [heq]
    exact hm
  · rw [heq]
    exact ha s hs

theorem All.addTerm {a : Combination} (ha : a.All P) {e : Expr} (he : P e.split.2) :
    (a.addTerm e).All P :=
  ha.insert (by simpa using he) _

/-- What every step keeps holds after all steps. -/
theorem All.foldl {α : Type} {f : Combination → α → Combination} {xs : List α}
    (hf : ∀ a : Combination, ∀ x ∈ xs, a.All P → (f a x).All P) {a : Combination}
    (ha : a.All P) : (xs.foldl f a).All P := by
  induction xs generalizing a with
  | nil => exact ha
  | cons x xs ih =>
    exact ih (fun b y hy => hf b y (List.mem_cons_of_mem _ hy)) (hf a x List.mem_cons_self ha)

theorem All.add {a b : Combination} (ha : a.All P) (hb : b.All P) : (a.add b).All P :=
  All.foldl (fun _ t ht hc => hc.insert (hb t ht) _) ha

/-- A combination is written as zero, as one of its terms, or as the sum of them. -/
theorem toExpr_cases (a : Combination) :
    a.toExpr = zero ∨ (∃ t ∈ a.terms, a.toExpr = t.toExpr) ∨
      a.toExpr = .sum (a.terms.map Term.toExpr) := by
  unfold toExpr
  split
  · exact Or.inl rfl
  · rename_i e heq
    have he : e ∈ a.terms.map Term.toExpr := by
      rw [heq]
      exact List.mem_cons_self
    obtain ⟨t, ht, rfl⟩ := List.mem_map.1 he
    exact Or.inr (Or.inl ⟨t, ht, rfl⟩)
  · exact Or.inr (Or.inr rfl)

end Combination

namespace Factors

/-- Cancelling takes the same variables from both lists. -/
theorem exists_perm_cancel (xs names : List String) :
    ∃ common, xs.Perm ((cancel xs names).1 ++ common) ∧
      names.Perm ((cancel xs names).2 ++ common) := by
  induction xs generalizing names with
  | nil => exact ⟨[], by simp [cancel]⟩
  | cons x xs ih =>
    rw [cancel]
    split
    · rename_i hx
      obtain ⟨common, h₁, h₂⟩ := ih (names.erase x)
      -- The variable is in both lists, and counts as common.
      refine ⟨x :: common, ?_, ?_⟩
      · exact (h₁.cons x).trans List.perm_middle.symm
      · exact (List.perm_cons_erase hx).trans ((h₂.cons x).trans List.perm_middle.symm)
    · obtain ⟨common, h₁, h₂⟩ := ih names
      exact ⟨common, h₁.cons x, h₂⟩

theorem cancel_fst_subset (xs names : List String) : (cancel xs names).1 ⊆ xs := by
  obtain ⟨common, h, _⟩ := exists_perm_cancel xs names
  intro x hx
  exact h.mem_iff.2 (List.mem_append_left _ hx)

theorem cancel_snd_subset (xs names : List String) : (cancel xs names).2 ⊆ names := by
  obtain ⟨common, _, h⟩ := exists_perm_cancel xs names
  intro x hx
  exact h.mem_iff.2 (List.mem_append_left _ hx)

end Factors

namespace Hereditary

variable {N : String → Prop} {P : Expr → Prop}

/-! ## Terms and sums -/

/-- Zero has every such property: it is a product without parts. -/
theorem zero (h : Hereditary N P) : P Expr.zero :=
  h.product_iff.2 ⟨by simp, by simp⟩

/-- The monomial of parts with the property has it. -/
theorem monomial (h : Hereditary N P) {vs : List String} {fs : List Expr}
    (hvs : ∀ x ∈ vs, N x) (hfs : ∀ f ∈ fs, P f ∧ ¬ f.IsProduct) : P (Expr.monomial vs fs) := by
  unfold Expr.monomial
  split
  · exact (hfs _ List.mem_cons_self).1
  · exact h.product_iff.2 ⟨hvs, hfs⟩

/-- The monomial of a term with the property has it, and no coefficient. -/
theorem split (h : Hereditary N P) {e : Expr} (he : P e) : P e.split.2 ∧ e.split.2.Monic := by
  cases e with
  | sum es => exact ⟨he, rfl⟩
  | product c vs fs =>
    have hparts := h.product_iff.1 he
    exact ⟨h.monomial hparts.1 hparts.2, monic_monomial fun f hf => (hparts.2 f hf).2⟩
  | fraction n d => exact ⟨he, rfl⟩

/-- A term whose monomial has the property has it, whatever its coefficient. -/
theorem ofTerm (h : Hereditary N P) {m : Expr} (hm : P m) (c : Rat) : P (Expr.ofTerm c m) := by
  unfold Expr.ofTerm
  split
  · -- Another coefficient in front of the same parts.
    rename_i hm'
    exact h.product_iff.2 (h.product_iff.1 hm)
  · rename_i hne
    split
    · exact hm
    · -- The monomial becomes the only factor, and is no product itself.
      have hnot : ¬ m.IsProduct := by
        intro hprod
        cases m with
        | product c' vs fs => exact hne c' vs fs rfl
        | sum es => exact hprod
        | fraction n d => exact hprod
      exact h.product_iff.2 (by simpa using ⟨hm, hnot⟩)

/-- A combination of monomials with the property is written as an expression with it. -/
theorem toExpr (h : Hereditary N P) {a : Combination} (ha : a.All P) : P a.toExpr := by
  have hterm : ∀ t ∈ a.terms, P t.toExpr := by
    intro t ht
    exact h.ofTerm (ha t ht) _
  rcases a.toExpr_cases with heq | ⟨t, ht, heq⟩ | heq
  · rw [heq]
    exact h.zero
  · rw [heq]
    exact hterm t ht
  · rw [heq, h.sum_iff]
    intro e he
    obtain ⟨t, ht, rfl⟩ := List.mem_map.1 he
    exact hterm t ht

/-- Adding an expression keeps the property of all monomials. -/
theorem addExpr (h : Hereditary N P) {a : Combination} (ha : a.All fun m => P m ∧ m.Monic)
    {e : Expr} (he : P e) : (a.addExpr e).All fun m => P m ∧ m.Monic := by
  unfold Combination.addExpr
  split
  · rename_i addends
    exact Combination.All.foldl (fun b t ht hb => hb.addTerm (h.split (h.sum_iff.1 he t ht))) ha
  · exact ha.addTerm (h.split he)

/-- Expressions with the property add up to monomials with it. -/
theorem ofExprs (h : Hereditary N P) {es : List Expr} (hes : ∀ e ∈ es, P e) :
    (Combination.ofExprs es).All fun m => P m ∧ m.Monic :=
  Combination.All.foldl (fun _ e he hb => h.addExpr hb (hes e he)) Combination.all_empty

/-- Expressions that are added up keep a property that all of them have. -/
theorem addUp (h : Hereditary N P) {es : List Expr} (hes : ∀ e ∈ es, P e) :
    P (Combination.ofExprs es).toExpr := by
  have hof := h.ofExprs hes
  exact h.toExpr fun t ht => (hof t ht).1

/-! ## Products -/

theorem addQuotient {p : Factors} (hp : p.All N P) {e : Expr} (he : P e ∧ ¬ e.IsProduct) :
    Factors.All N P ⟨p.coefficient, p.names, p.quotients ++ [e]⟩ := by
  constructor
  · exact hp.1
  · intro f hf
    rcases List.mem_append.1 hf with hf | hf
    · exact hp.2 f hf
    · rw [List.mem_singleton.1 hf]
      exact he

/-- Multiplying by an expression keeps the property of all parts. -/
theorem times (h : Hereditary N P) {p : Factors} (hp : p.All N P) {e : Expr} (he : P e) :
    (p.times e).All N P := by
  cases e with
  | product c vs fs =>
    have hparts := h.product_iff.1 he
    constructor
    · intro x hx
      exact (List.mem_append.1 hx).elim (hp.1 x) (hparts.1 x)
    · intro f hf
      exact (List.mem_append.1 hf).elim (hp.2 f) (hparts.2 f)
  | sum es => exact addQuotient hp ⟨he, id⟩
  | fraction n d => exact addQuotient hp ⟨he, id⟩

/-- Cancelling keeps it, as a denominator only loses variables. -/
theorem cancelQuotients (h : Hereditary N P) {vs : List String} {fs : List Expr}
    (hvs : ∀ x ∈ vs, N x) (hfs : ∀ f ∈ fs, P f ∧ ¬ f.IsProduct) :
    (∀ x ∈ (Factors.cancelQuotients vs fs).1, N x) ∧
      ∀ f ∈ (Factors.cancelQuotients vs fs).2, P f ∧ ¬ f.IsProduct := by
  fun_induction Factors.cancelQuotients vs fs with
  | case1 vs => exact ⟨hvs, by simp⟩
  | case2 vs fs n d names hnames left rest ih =>
    obtain ⟨hhead, htail⟩ := List.forall_mem_cons.1 hfs
    have hkept := ih (fun x hx => hvs x (Factors.cancel_fst_subset vs names hx)) htail
    -- The denominator has lost variables, and otherwise stays.
    refine ⟨hkept.1, List.forall_mem_cons.2 ⟨⟨?_, id⟩, hkept.2⟩⟩
    rw [Factors.pureVariables?_eq_some hnames] at hhead
    exact h.shrink hhead.1 (Factors.cancel_snd_subset vs names)
  | case3 vs fs n d _ rest ih =>
    obtain ⟨hhead, htail⟩ := List.forall_mem_cons.1 hfs
    exact ⟨(ih hvs htail).1, List.forall_mem_cons.2 ⟨hhead, (ih hvs htail).2⟩⟩
  | case4 vs f fs rest _ ih =>
    obtain ⟨hhead, htail⟩ := List.forall_mem_cons.1 hfs
    exact ⟨(ih hvs htail).1, List.forall_mem_cons.2 ⟨hhead, (ih hvs htail).2⟩⟩

/-- So does multiplying by a quotient or by its numerator. -/
theorem timesQuotient (h : Hereditary N P) {p : Factors} (hp : p.All N P) {f : Expr} (hf : P f) :
    (p.timesQuotient f).All N P := by
  unfold Factors.timesQuotient
  split
  · split
    · exact h.times hp (h.parts hf).1
    · exact h.times hp hf
  · exact h.times hp hf

theorem foldl_timesQuotient (h : Hereditary N P) {p : Factors} (hp : p.All N P) {fs : List Expr}
    (hfs : ∀ f ∈ fs, P f) : (fs.foldl Factors.timesQuotient p).All N P := by
  induction fs generalizing p with
  | nil => exact hp
  | cons f fs ih =>
    obtain ⟨hhead, htail⟩ := List.forall_mem_cons.1 hfs
    exact ih (h.timesQuotient hp hhead) htail

/-- A round of cancelling keeps the property of all parts. -/
theorem cancelled (h : Hereditary N P) {p : Factors} (hp : p.All N P) : p.cancelled.All N P := by
  have hleft := h.cancelQuotients hp.1 hp.2
  exact h.foldl_timesQuotient ⟨hleft.1, by simp⟩ fun f hf => (hleft.2 f hf).1

theorem ordered {p : Factors} (hp : p.All N P) : p.ordered.All N P := by
  constructor
  · intro x hx
    exact hp.1 x ((List.mergeSort_perm _ _).mem_iff.1 hx)
  · intro f hf
    exact hp.2 f ((Expr.sortList_perm _).mem_iff.1 hf)

theorem reduce (h : Hereditary N P) {p : Factors} (hp : p.All N P) : p.reduce.All N P := by
  fun_induction Factors.reduce p with
  | case1 p _ ih => exact ih (h.cancelled hp)
  | case2 p _ => exact ordered hp

/-- A product multiplied out has monomials with the property. -/
theorem expand (h : Hereditary N P) {p : Factors} (hp : p.All N P) {sums : List (List Expr)}
    (hsums : ∀ es ∈ sums, ∀ e ∈ es, P e) : (p.expand sums).All fun m => P m ∧ m.Monic := by
  induction sums generalizing p with
  | nil =>
    have hq := h.reduce hp
    refine Combination.all_empty.insert ?_ _
    exact ⟨h.monomial hq.1 hq.2, monic_monomial fun f hf => (hq.2 f hf).2⟩
  | cons addends sums ih =>
    obtain ⟨hhead, htail⟩ := List.forall_mem_cons.1 hsums
    exact Combination.All.foldl (fun a e he ha => ha.add (ih (h.times hp (hhead e he)) htail))
      Combination.all_empty

/-- Gathering factors keeps the property of the product and of the sums that are set aside. -/
theorem gather (h : Hereditary N P) {p : Factors} (hp : p.All N P) {es : List Expr}
    (hes : ∀ e ∈ es, P e) :
    (Factors.gather p es).1.All N P ∧ ∀ addends ∈ (Factors.gather p es).2, ∀ e ∈ addends, P e := by
  fun_induction Factors.gather p es with
  | case1 p => exact ⟨hp, by simp⟩
  | case2 p addends es rest ih =>
    obtain ⟨hhead, htail⟩ := List.forall_mem_cons.1 hes
    exact ⟨(ih hp htail).1, List.forall_mem_cons.2 ⟨h.sum_iff.1 hhead, (ih hp htail).2⟩⟩
  | case3 p e es _ ih =>
    obtain ⟨hhead, htail⟩ := List.forall_mem_cons.1 hes
    exact ih (h.times hp hhead) htail

theorem multiply (h : Hereditary N P) {c : Rat} {vs : List String} {es : List Expr}
    (hvs : ∀ x ∈ vs, N x) (hes : ∀ e ∈ es, P e) : P (Expr.multiply c vs es) := by
  unfold Expr.multiply
  simp only
  split
  · exact h.zero
  · have hparts := h.gather (p := ⟨c, vs, []⟩) ⟨hvs, by simp⟩ hes
    exact h.toExpr fun t ht => (h.expand hparts.1 hparts.2 t ht).1

theorem scale (h : Hereditary N P) {e : Expr} (he : P e) (k : Rat) : P (Expr.scale k e) :=
  h.multiply (by simp) (by simpa using he)

/-! ## Quotients -/

/-- Both parts keep the property when their common variables are cancelled. -/
theorem cancelCommon (h : Hereditary N P) {n d n' d' : Expr}
    (hcancel : cancelCommon? n d = some (n', d')) (hn : P n) (hd : P d) : P n' ∧ P d' := by
  unfold cancelCommon? at hcancel
  split at hcancel
  · rename_i c vs fs
    split at hcancel
    · cases hcancel
    · rename_i names hnames
      simp only at hcancel
      split at hcancel
      · rw [Factors.pureVariables?_eq_some hnames] at hd
        have hvs := h.product_iff.1 hn
        have hnames := (h.product_iff.1 hd).1
        cases hcancel
        -- Above and below there are fewer variables, and the factors of the numerator stay.
        constructor
        · apply h.ofTerm
          apply h.monomial
          · intro x hx
            exact hvs.1 x (Factors.cancel_fst_subset _ _ hx)
          · exact hvs.2
        · rw [h.product_iff]
          constructor
          · intro x hx
            exact hnames x (Factors.cancel_snd_subset _ _ hx)
          · simp
      · cases hcancel
  · cases hcancel

/-- Division keeps a property that a quotient has as soon as both parts have it. -/
theorem divide (h : Hereditary N P) (hfraction : ∀ {n d : Expr}, P n → P d → P (fraction n d))
    {n d : Expr} (hn : P n) (hd : P d) : P (Expr.divide n d) := by
  -- One case for each rule of division; the parts that are divided next have the property again.
  fun_induction Expr.divide n d with
  | case1 n d _ => exact h.zero
  | case2 n d _ _ => exact hfraction hn hd
  | case3 n d _ k _ _ => exact h.scale hn _
  | case4 addends d _ _ ih =>
    -- Each addend is divided, and the quotients are added up.
    apply h.addUp
    intro e he
    obtain ⟨e', _, rfl⟩ := List.mem_map.1 he
    exact ih e' (h.sum_iff.1 hn _ e'.2) hd
  -- In the next two cases a denominator moves to the other side.
  | case5 a b d _ _ ih =>
    exact ih (h.parts hn).1 (h.multiply (by simp) (by simpa using ⟨(h.parts hn).2, hd⟩))
  | case6 n a b _ _ _ _ ih =>
    exact ih (h.multiply (by simp) (by simpa using ⟨hn, (h.parts hd).2⟩)) (h.parts hd).1
  | case7 n d _ _ _ p hp _ _ ih =>
    have hparts := h.cancelCommon hp hn hd
    exact ih hparts.1 hparts.2
  | case8 n d _ _ _ _ _ _ _ => exact hfraction hn hd
  | case9 n d _ _ _ _ _ _ _ _ => exact hfraction (h.split hn).1 (h.split hd).1
  | case10 n d _ _ _ _ _ _ _ _ ih => exact h.scale (ih (h.split hn).1 (h.split hd).1) _

/-- An expression has a normal form with a hereditary property if its variables are admitted. -/
theorem normalize (h : Hereditary N P) (hfraction : ∀ {n d : Expr}, P n → P d → P (fraction n d))
    {e : Expr} (hx : ∀ x ∈ e.occurrences, N x) : P e.normalize := by
  -- The property is built up with the normal form, from the variables at the leaves.
  induction e using tree_induction with
  | sum es ih =>
    simp only [mem_occurrences_sum] at hx
    rw [Expr.normalize, normalizeList_eq]
    apply h.addUp
    intro e he
    obtain ⟨e', he', rfl⟩ := List.mem_map.1 he
    exact ih e' he' fun x hmem => hx x ⟨e', he', hmem⟩
  | product c vs fs ih =>
    simp only [mem_occurrences_product] at hx
    rw [Expr.normalize, normalizeList_eq]
    split
    · exact h.zero
    · apply h.multiply fun x hmem => hx x (Or.inl hmem)
      intro f hf
      obtain ⟨f', hf', rfl⟩ := List.mem_map.1 hf
      exact ih f' hf' fun x hmem => hx x (Or.inr ⟨f', hf', hmem⟩)
  | fraction n d ihn ihd =>
    simp only [mem_occurrences_fraction] at hx
    rw [Expr.normalize]
    exact h.divide hfraction (ihn fun x hmem => hx x (Or.inl hmem))
      (ihd fun x hmem => hx x (Or.inr hmem))

end Hereditary

namespace Expr

/-! ## Normal forms -/

/-- To be flat and to mention only admitted variables is hereditary. -/
theorem hereditary_flat (N : String → Prop) :
    Hereditary N fun e => e.Flat ∧ ∀ x ∈ e.occurrences, N x where
  sum_iff := by
    simp only [Flat, flatAll_iff, mem_occurrences_sum]
    grind
  product_iff := by
    simp only [Flat, flatAll_iff, mem_occurrences_product]
    grind
  parts := by
    simp only [Flat, mem_occurrences_fraction]
    grind
  shrink := by
    simp only [Flat, flatAll_iff, mem_occurrences_fraction, mem_occurrences_product]
    grind

/-- A normal form is flat, and has only variables of the expression. -/
theorem flat_and_occurrences_normalize {N : String → Prop} {e : Expr}
    (h : ∀ x ∈ e.occurrences, N x) : e.normalize.Flat ∧ ∀ x ∈ e.normalize.occurrences, N x := by
  apply (hereditary_flat N).normalize _ h
  intro n d hn hd
  simp only [Flat, mem_occurrences_fraction]
  exact ⟨⟨hn.1, hd.1⟩, fun x hx => hx.elim (hn.2 x) (hd.2 x)⟩

/-- A normal form has no variables but those of the expression. -/
theorem mem_occurrences_of_normalize {e : Expr} {x : String} (h : x ∈ e.normalize.occurrences) :
    x ∈ e.occurrences :=
  (flat_and_occurrences_normalize (N := (· ∈ e.occurrences)) (fun _ hx => hx)).2 x h

/-- Normalization invents no variable. Whichever query finds a variable in the normal form, that
variable occurs in the expression, is among its variables, and the expression has a first one. -/
theorem mentions_of_normalize {e : Expr} {x : String}
    (h : e.normalize.mentions x = true ∨ x ∈ e.normalize.variableNames ∨
      e.normalize.firstVariable? = some x) :
    e.mentions x = true ∧ x ∈ e.variableNames ∧ ∃ y, e.firstVariable? = some y := by
  have hnormal : x ∈ e.normalize.occurrences := by
    rcases h with h | h | h
    · exact mentions_iff.1 h
    · exact mem_variableNames.1 h
    · exact mem_of_firstVariable? h
  have hx := mem_occurrences_of_normalize hnormal
  refine ⟨mentions_iff.2 hx, mem_variableNames.2 hx, ?_⟩
  rw [← Option.ne_none_iff_exists', ne_eq, firstVariable?_eq_none]
  exact List.ne_nil_of_mem hx

/-- The normal form of `x*(y + z) / (x/w)` is `w*y + w*z`: of the variables of the expression it has
lost `x`, and it has no other. -/
theorem mentions_of_normalize_quotient :
    (fraction (product 1 ["x"] [sum [var "y", var "z"]])
        (fraction (var "x") (var "w"))).normalize =
      sum [product 1 ["w", "y"] [], product 1 ["w", "z"] []] ∧
    (fraction (product 1 ["x"] [sum [var "y", var "z"]])
        (fraction (var "x") (var "w"))).mentions "w" = true ∧
      "w" ∈ (fraction (product 1 ["x"] [sum [var "y", var "z"]])
        (fraction (var "x") (var "w"))).variableNames := by
  have hnormal : (fraction (product 1 ["x"] [sum [var "y", var "z"]])
      (fraction (var "x") (var "w"))).normalize =
        sum [product 1 ["w", "y"] [], product 1 ["w", "z"] []] := by
    cbv
  have hfirst := mentions_of_normalize (x := "w") (Or.inr (Or.inr (by rw [hnormal]; rfl)))
  exact ⟨hnormal, hfirst.1, hfirst.2.1⟩

end Expr

end RationalAlgebra
