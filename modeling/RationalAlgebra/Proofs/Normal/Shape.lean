import Mathlib
import RationalAlgebra.Proofs.Normal.Hereditary

/-!
# The shape of a normal form

Every node of a normal form has a certain shape, by which nothing is left to do at it: like terms
are merged and stand in order, products are multiplied out and have lost what cancels, quotients are
neither nested nor do they carry coefficients. An expression with this shape throughout is called
`Canonical`. Each rule of normalization takes canonical expressions to canonical ones, so the shape
is proved rule by rule, and for every expression by induction over its tree.

Main statement: `canonical_normalize`. What it says in detail is spelled out in `normalize_nodes`.
-/

namespace RationalAlgebra

open RationalAlgebra.Expr

namespace Expr

/-! ## Nodes -/

/-- Whether an expression is a sum. -/
def IsSum : Expr → Prop
  | sum _ => True
  | _ => False

/-- Whether an expression is a quotient. -/
def IsFraction : Expr → Prop
  | fraction _ _ => True
  | _ => False

/-- An expression occurs in another, as the whole or as a part of one of its parts. -/
inductive Within : Expr → Expr → Prop
  | refl (e : Expr) : Within e e
  | addend {p e : Expr} {es : List Expr} (he : e ∈ es) (hp : Within p e) : Within p (sum es)
  | factor {p f : Expr} {c : Rat} {vs : List String} {fs : List Expr} (hf : f ∈ fs)
      (hp : Within p f) : Within p (product c vs fs)
  | numerator {p n d : Expr} (hp : Within p n) : Within p (fraction n d)
  | denominator {p n d : Expr} (hp : Within p d) : Within p (fraction n d)

theorem Within.trans {p q e : Expr} (hpq : Within p q) (hqe : Within q e) : Within p e := by
  induction hqe with
  | refl => exact hpq
  | addend he _ ih => exact Within.addend he ih
  | factor hf _ ih => exact Within.factor hf ih
  | numerator _ ih => exact Within.numerator ih
  | denominator _ ih => exact Within.denominator ih

/-- The variables of a denominator that is nothing but variables. -/
def pureNames (d : Expr) : List String :=
  (Factors.pureVariables? d).getD []

/-- The names of a product of variables are its variables. -/
@[simp]
theorem pureNames_product (names : List String) : (product 1 names []).pureNames = names := by
  cases names <;> rfl

/-- Whether a term stands before another in a sum: their monomials are in canonical order. -/
def Before (a b : Expr) : Prop :=
  Keyed.cmp (.of a.split.2) (.of b.split.2) = .lt

/-- A quotient that shares no variable with a product, as far as its denominator is nothing but
variables. -/
def Apart (vs : List String) (f : Expr) : Prop :=
  ∃ n d, f = fraction n d ∧ vs.Disjoint d.pureNames

/-- A quotient in lowest terms: a product without a coefficient over a sum or another such product,
without common variables. -/
def Lowest (n d : Expr) : Prop :=
  (∃ vs fs, n = product 1 vs fs ∧ vs.Disjoint d.pureNames) ∧
    (d.IsSum ∨ ∃ vs fs, d = product 1 vs fs ∧ d ≠ one)

/-- The shape of a node at which nothing is left to do. -/
def Shape : Expr → Prop
  | sum es => 2 ≤ es.length ∧ (∀ e ∈ es, ¬ e.IsSum ∧ e.split.1 ≠ 0) ∧ es.Pairwise Before
  | product c vs fs =>
    (c = 0 → vs = [] ∧ fs = []) ∧ vs.Pairwise (· ≤ ·) ∧ (∀ f ∈ fs, Apart vs f) ∧
      fs.Pairwise (fun f g => Keyed.le (.of f) (.of g)) ∧ ¬ (c = 1 ∧ vs = [] ∧ ∃ f, fs = [f])
  | fraction n d => n ≠ zero ∧ (d = zero ∨ Lowest n d)

/-- An expression that has the shape of a normal form at every node. -/
def Canonical (e : Expr) : Prop :=
  ∀ p, Within p e → p.Shape

/-- The whole has the shape, being a part of itself. -/
theorem Canonical.shape {e : Expr} (h : e.Canonical) : e.Shape :=
  h e (Within.refl e)

/-- Every part of a canonical expression is canonical. -/
theorem Canonical.within {p e : Expr} (h : e.Canonical) (hp : Within p e) : p.Canonical :=
  fun q hq => h q (hq.trans hp)

/-- A sum is canonical if it has the shape and its addends are canonical. -/
theorem canonical_sum {es : List Expr} :
    (sum es).Canonical ↔ (sum es).Shape ∧ ∀ e ∈ es, e.Canonical := by
  constructor
  · intro h
    exact ⟨h.shape, fun e he => h.within (Within.addend he (Within.refl e))⟩
  · rintro ⟨hshape, hes⟩ p hp
    cases hp with
    | refl => exact hshape
    | addend he hp => exact hes _ he p hp

/-- A product is canonical if it has the shape and its factors are canonical. -/
theorem canonical_product {c : Rat} {vs : List String} {fs : List Expr} :
    (product c vs fs).Canonical ↔ (product c vs fs).Shape ∧ ∀ f ∈ fs, f.Canonical := by
  constructor
  · intro h
    exact ⟨h.shape, fun f hf => h.within (Within.factor hf (Within.refl f))⟩
  · rintro ⟨hshape, hfs⟩ p hp
    cases hp with
    | refl => exact hshape
    | factor hf hp => exact hfs _ hf p hp

/-- A quotient is canonical if it has the shape and both parts are canonical. -/
theorem canonical_fraction {n d : Expr} :
    (fraction n d).Canonical ↔ (fraction n d).Shape ∧ n.Canonical ∧ d.Canonical := by
  constructor
  · intro h
    exact ⟨h.shape, h.within (Within.numerator (Within.refl n)),
      h.within (Within.denominator (Within.refl d))⟩
  · rintro ⟨hshape, hn, hd⟩ p hp
    cases hp with
    | refl => exact hshape
    | numerator hp => exact hn p hp
    | denominator hp => exact hd p hp

/-- The addends of a canonical sum are canonical terms. -/
theorem Canonical.addends {es : List Expr} (h : (sum es).Canonical) :
    ∀ e ∈ es, e.Canonical ∧ ¬ e.IsSum ∧ e.split.1 ≠ 0 := by
  obtain ⟨⟨_, hterms, _⟩, hes⟩ := canonical_sum.1 h
  exact fun e he => ⟨hes e he, hterms e he⟩

theorem canonical_const (k : Rat) : (const k).Canonical := by
  simp [const, canonical_product, Shape]

theorem IsFraction.not_isProduct {e : Expr} (h : e.IsFraction) : ¬ e.IsProduct := by
  cases e with
  | sum es => exact id
  | product c vs fs => exact absurd h id
  | fraction n d => exact id

theorem IsFraction.not_isSum {e : Expr} (h : e.IsFraction) : ¬ e.IsSum := by
  cases e with
  | sum es => exact absurd h id
  | product c vs fs => exact id
  | fraction n d => exact id

theorem IsSum.exists_eq {e : Expr} (h : e.IsSum) : ∃ es, e = sum es := by
  cases e with
  | sum es => exact ⟨es, rfl⟩
  | product c vs fs => exact absurd h id
  | fraction n d => exact absurd h id

theorem IsProduct.exists_eq {e : Expr} (h : e.IsProduct) : ∃ c vs fs, e = product c vs fs := by
  cases e with
  | sum es => exact absurd h id
  | product c vs fs => exact ⟨c, vs, fs, rfl⟩
  | fraction n d => exact absurd h id

theorem IsFraction.exists_eq {e : Expr} (h : e.IsFraction) : ∃ n d, e = fraction n d := by
  cases e with
  | sum es => exact absurd h id
  | product c vs fs => exact absurd h id
  | fraction n d => exact ⟨n, d, rfl⟩

theorem Apart.isFraction {vs : List String} {f : Expr} (h : Apart vs f) : f.IsFraction := by
  obtain ⟨n, d, rfl, _⟩ := h
  trivial

/-- What is apart from some variables is apart from fewer. -/
theorem Apart.mono {vs ws : List String} {f : Expr} (h : Apart vs f) (hsub : ws ⊆ vs) :
    Apart ws f := by
  obtain ⟨n, d, rfl, hdisjoint⟩ := h
  exact ⟨n, d, rfl, fun x hx => hdisjoint (hsub hx)⟩

/-- A product of variables, of which fewer are left. -/
theorem canonical_names_of_sublist {xs ys : List String} (h : (product 1 xs []).Canonical)
    (hsub : ys.Sublist xs) : (product 1 ys []).Canonical := by
  have hsorted := h.shape.2.1.sublist hsub
  simp [canonical_product, Shape, hsorted]

/-- A quotient stays canonical when its denominator loses some, but not all, of its variables. -/
theorem canonical_fraction_of_sublist {n : Expr} {xs ys : List String}
    (h : (fraction n (product 1 xs [])).Canonical) (hsub : ys.Sublist xs) (hys : ys ≠ []) :
    (fraction n (product 1 ys [])).Canonical := by
  obtain ⟨⟨hne, hlowest⟩, hn, hd⟩ := canonical_fraction.1 h
  refine canonical_fraction.2 ⟨⟨hne, Or.inr ?_⟩, hn, canonical_names_of_sublist hd hsub⟩
  rcases hlowest with hzero | ⟨⟨vs, fs, hn', hdisjoint⟩, _⟩
  · simp [zero, const] at hzero
  · rw [pureNames_product] at hdisjoint
    refine ⟨⟨vs, fs, hn', ?_⟩, Or.inr ⟨ys, [], rfl, by simpa [one, const] using hys⟩⟩
    rw [pureNames_product]
    exact fun x hx hy => hdisjoint hx (hsub.subset hy)

/-! ## Terms -/

/-- Except for a single factor, a monomial is a product. -/
theorem monomial_eq_product {vs : List String} {fs : List Expr}
    (h : ¬ (vs = [] ∧ ∃ f, fs = [f])) : monomial vs fs = product 1 vs fs := by
  unfold monomial
  split
  · exact absurd ⟨rfl, _, rfl⟩ h
  · rfl

/-- With coefficient one a monomial is a term. -/
theorem ofTerm_one {m : Expr} (h : m.Monic) : ofTerm 1 m = m := by
  cases m with
  | sum es => rfl
  | product c vs fs =>
    have hc : c = 1 := h
    rw [hc]
    rfl
  | fraction n d => rfl

/-- What can stand with any coefficient in a sum. -/
structure IsMonomial (m : Expr) : Prop where
  canonical : m.Canonical
  monic : m.Monic
  not_isSum : ¬ m.IsSum

/-- Variables in order and quotients in order, among which nothing cancels, make a term. -/
theorem canonical_ofTerm_monomial {c : Rat} (hc : c ≠ 0) {vs : List String} {fs : List Expr}
    (hvs : vs.Pairwise (· ≤ ·)) (hfs : ∀ f ∈ fs, f.Canonical ∧ Apart vs f)
    (hsorted : fs.Pairwise fun f g => Keyed.le (.of f) (.of g)) :
    (ofTerm c (monomial vs fs)).Canonical := by
  -- The product has the shape, except that a single quotient without a coefficient is not written
  -- as one.
  have hproduct : ¬ (c = 1 ∧ vs = [] ∧ ∃ f, fs = [f]) → (product c vs fs).Canonical := by
    intro hsingle
    rw [canonical_product]
    exact ⟨⟨fun h => absurd h hc, hvs, fun f hf => (hfs f hf).2, hsorted, hsingle⟩,
      fun f hf => (hfs f hf).1⟩
  by_cases hsingle : vs = [] ∧ ∃ f, fs = [f]
  · obtain ⟨rfl, f, rfl⟩ := hsingle
    obtain ⟨hf, n, d, rfl, _⟩ := hfs f List.mem_cons_self
    simp only [monomial, ofTerm]
    split
    · exact hf
    · rename_i hne
      exact hproduct fun h => hne h.1
  · rw [monomial_eq_product hsingle]
    exact hproduct fun h => hsingle h.2

/-- Variables in order and quotients in order, among which nothing cancels, make a monomial. -/
theorem isMonomial_monomial {vs : List String} {fs : List Expr} (hvs : vs.Pairwise (· ≤ ·))
    (hfs : ∀ f ∈ fs, f.Canonical ∧ Apart vs f)
    (hsorted : fs.Pairwise fun f g => Keyed.le (.of f) (.of g)) : (monomial vs fs).IsMonomial := by
  have hmonic : (monomial vs fs).Monic :=
    monic_monomial fun f hf => (hfs f hf).2.isFraction.not_isProduct
  have hcanonical := canonical_ofTerm_monomial one_ne_zero hvs hfs hsorted
  rw [ofTerm_one hmonic] at hcanonical
  refine ⟨hcanonical, hmonic, ?_⟩
  unfold monomial
  split
  · obtain ⟨_, n, d, rfl, _⟩ := hfs _ List.mem_cons_self
    exact id
  · exact id

/-- A term is its coefficient and its monomial put together again. -/
theorem Canonical.split {e : Expr} (h : e.Canonical) (hsum : ¬ e.IsSum) :
    e.split.2.IsMonomial ∧ ofTerm e.split.1 e.split.2 = e := by
  cases e with
  | sum es => exact absurd trivial hsum
  | fraction n d => exact ⟨⟨h, rfl, id⟩, rfl⟩
  | product c vs fs =>
    obtain ⟨⟨hzero, hvs, hapart, hsorted, hsingle⟩, hfs⟩ := canonical_product.1 h
    constructor
    · exact isMonomial_monomial hvs (fun f hf => ⟨hfs f hf, hapart f hf⟩) hsorted
    · simp only [Expr.split]
      -- A single factor stands for itself as monomial, and comes back as the factor of a product.
      by_cases hone : vs = [] ∧ ∃ f, fs = [f]
      · obtain ⟨rfl, f, rfl⟩ := hone
        obtain ⟨n, d, rfl, _⟩ := hapart f List.mem_cons_self
        have hc : c ≠ 1 := fun hc => hsingle ⟨hc, rfl, _, rfl⟩
        simp [monomial, ofTerm, hc]
      · rw [monomial_eq_product hone]
        rfl

/-- What is left of a canonical expression without its coefficient is canonical. -/
theorem Canonical.split_snd {e : Expr} (h : e.Canonical) : e.split.2.Canonical := by
  by_cases hsum : e.IsSum
  · cases e with
    | sum es => exact h
    | product c vs fs => exact absurd hsum id
    | fraction n d => exact h
  · exact (h.split hsum).1.canonical

/-- A monomial with a coefficient is a term, from which the two can be read off. -/
theorem IsMonomial.ofTerm {m : Expr} (h : m.IsMonomial) {c : Rat} (hc : c ≠ 0) :
    (Expr.ofTerm c m).Canonical ∧ ¬ (Expr.ofTerm c m).IsSum ∧ (Expr.ofTerm c m).split = (c, m) := by
  cases m with
  | sum es => exact absurd trivial h.not_isSum
  | product k vs fs =>
    have hk : k = 1 := h.monic
    subst hk
    obtain ⟨⟨_, hvs, hapart, hsorted, hsingle⟩, hfs⟩ := canonical_product.1 h.canonical
    -- A product with coefficient one has the shape, so it is not a single factor.
    have hmany : ¬ (vs = [] ∧ ∃ f, fs = [f]) := fun hone => hsingle ⟨rfl, hone⟩
    have hterm := canonical_ofTerm_monomial hc hvs (fun f hf => ⟨hfs f hf, hapart f hf⟩) hsorted
    rw [monomial_eq_product hmany] at hterm
    refine ⟨hterm, id, ?_⟩
    simp only [Expr.ofTerm, Expr.split, monomial_eq_product hmany]
  | fraction n d =>
    simp only [Expr.ofTerm]
    split
    · rename_i hone
      subst hone
      exact ⟨h.canonical, id, rfl⟩
    · rename_i hne
      have hapart : ∀ f ∈ [fraction n d], Apart [] f := by
        intro f hf
        rw [List.mem_singleton.1 hf]
        exact ⟨n, d, rfl, by simp⟩
      refine ⟨canonical_product.2 ⟨⟨?_, List.Pairwise.nil, hapart, by simp, ?_⟩, ?_⟩, id, rfl⟩
      · exact fun hzero => absurd hzero hc
      · exact fun hone => hne hone.1
      · simpa using h.canonical

end Expr

/-! ## Sums -/

namespace Combination

/-- Adding a canonical expression adds monomials. -/
theorem isMonomial_addExpr {a : Combination} (ha : a.All IsMonomial) {e : Expr}
    (he : e.Canonical) : (a.addExpr e).All IsMonomial := by
  cases e with
  | sum es =>
    have hes := he.addends
    exact All.foldl (fun b t ht hb => hb.addTerm ((hes t ht).1.split (hes t ht).2.1).1) ha
  | product c vs fs => exact ha.addTerm (he.split id).1
  | fraction n d => exact ha.addTerm (he.split id).1

theorem isMonomial_ofExprs {es : List Expr} (hes : ∀ e ∈ es, e.Canonical) :
    (ofExprs es).All IsMonomial :=
  All.foldl (fun _ e he hb => isMonomial_addExpr hb (hes e he)) all_empty

/-- A combination of monomials is written as zero, as a term, or as a sum of terms in order. -/
theorem canonical_toExpr {a : Combination} (ha : a.All IsMonomial) : a.toExpr.Canonical := by
  have hterm : ∀ t ∈ a.terms, t.toExpr.Canonical ∧ ¬ t.toExpr.IsSum ∧
      t.toExpr.split = (t.coefficient, t.monomial.expr) :=
    fun t ht => (ha t ht).ofTerm (a.nonzero t ht)
  have hall : ∀ e ∈ a.terms.map Term.toExpr, e.Canonical :=
    List.forall_mem_map.2 fun t ht => (hterm t ht).1
  unfold toExpr
  split
  · exact canonical_const 0
  · rename_i e heq
    rw [heq] at hall
    exact hall e List.mem_cons_self
  · rename_i es hnone hone
    -- The terms of a combination stand in the order that the shape of a sum asks for.
    refine canonical_sum.2 ⟨⟨?_, ?_, ?_⟩, hall⟩
    · rcases hmap : a.terms.map Term.toExpr with _ | ⟨e, _ | ⟨f, rest⟩⟩
      · exact absurd hmap hnone
      · exact absurd hmap (hone e)
      · simp
    · rw [List.forall_mem_map]
      intro t ht
      obtain ⟨_, hsum, hsplit⟩ := hterm t ht
      exact ⟨hsum, by rw [hsplit]; exact a.nonzero t ht⟩
    · rw [List.pairwise_map]
      apply a.sorted.imp_of_mem
      intro s t hs ht hlt
      rw [Before, (hterm s hs).2.2, (hterm t ht).2.2, Keyed.of_expr, Keyed.of_expr]
      exact hlt

end Combination

/-! ## Products -/

namespace Factors

theorem cancel_fst_sublist (xs names : List String) : (cancel xs names).1.Sublist xs := by
  induction xs generalizing names with
  | nil => exact List.Sublist.refl _
  | cons x xs ih =>
    rw [cancel]
    split
    · exact (ih _).cons x
    · exact (ih _).cons_cons x

theorem cancel_snd_sublist (xs names : List String) : (cancel xs names).2.Sublist names := by
  induction xs generalizing names with
  | nil => exact List.Sublist.refl _
  | cons x xs ih =>
    rw [cancel]
    split
    · exact (ih _).trans List.erase_sublist
    · exact ih _

/-- What cancelling leaves of two lists has nothing in common. -/
theorem disjoint_cancel (xs names : List String) :
    (cancel xs names).1.Disjoint (cancel xs names).2 := by
  induction xs generalizing names with
  | nil => simp [cancel]
  | cons x xs ih =>
    rw [cancel]
    split
    · exact ih _
    · rename_i hx
      rw [List.disjoint_cons_left]
      exact ⟨fun hmem => hx ((cancel_snd_sublist xs names).subset hmem), ih names⟩

/-- Without a common variable nothing cancels. -/
theorem cancel_of_disjoint {xs names : List String} (h : xs.Disjoint names) :
    cancel xs names = (xs, names) := by
  induction xs with
  | nil => rfl
  | cons x xs ih =>
    rw [List.disjoint_cons_left] at h
    rw [cancel, if_neg h.1, ih h.2]

/-- If no variable was lost, there was none in common. -/
theorem disjoint_of_length_cancel {xs names : List String}
    (h : xs.length ≤ (cancel xs names).1.length) : xs.Disjoint names := by
  have hsame : (cancel xs names).1 = xs :=
    (cancel_fst_sublist xs names).eq_of_length (le_antisymm (length_cancel_le xs names) h)
  have hlength := length_cancel xs names
  have hsame' : (cancel xs names).2 = names :=
    (cancel_snd_sublist xs names).eq_of_length (by rw [hsame] at hlength; omega)
  have hdisjoint := disjoint_cancel xs names
  rwa [hsame, hsame'] at hdisjoint

/-- Quotients that share no variable with a product are left alone. -/
theorem cancelQuotients_of_apart {vs : List String} {fs : List Expr} (h : ∀ f ∈ fs, Apart vs f) :
    cancelQuotients vs fs = (vs, fs) := by
  induction fs with
  | nil => rfl
  | cons f fs ih =>
    obtain ⟨⟨n, d, rfl, hdisjoint⟩, htail⟩ := List.forall_mem_cons.1 h
    rw [cancelQuotients]
    split
    · rename_i names hnames
      rw [pureNames, hnames, Option.getD_some] at hdisjoint
      simp only [cancel_of_disjoint hdisjoint, ih htail, pureVariables?_eq_some hnames]
    · simp only [ih htail]

/-- Where no variable cancels, the quotients share none. -/
theorem apart_of_length_cancelQuotients {vs : List String} {fs : List Expr}
    (hfs : ∀ f ∈ fs, f.IsFraction) (h : vs.length ≤ (cancelQuotients vs fs).1.length) :
    ∀ f ∈ fs, Apart vs f := by
  fun_induction cancelQuotients vs fs with
  | case1 vs => simp
  | case2 vs fs n d names hnames left rest ih =>
    -- Not even the first quotient took a variable, so the next one meets the same variables.
    have hrest := length_cancelQuotients_le left.1 fs
    have hdisjoint : vs.Disjoint names := disjoint_of_length_cancel (h.trans hrest)
    have hleft : left = (vs, names) := cancel_of_disjoint hdisjoint
    rw [hleft] at ih
    refine List.forall_mem_cons.2 ⟨⟨n, d, rfl, ?_⟩, ih (List.forall_mem_cons.1 hfs).2 ?_⟩
    · rwa [pureNames, hnames, Option.getD_some]
    · simpa only [rest, hleft] using h
  | case3 vs fs n d hnone rest ih =>
    refine List.forall_mem_cons.2 ⟨⟨n, d, rfl, ?_⟩, ih (List.forall_mem_cons.1 hfs).2 h⟩
    rw [pureNames, hnone, Option.getD_none]
    exact List.disjoint_nil_right vs
  | case4 vs f fs rest hnot ih =>
    -- All factors are quotients.
    exfalso
    have hf := hfs f List.mem_cons_self
    cases f with
    | sum es => exact hf
    | product c ws gs => exact hf
    | fraction n d => exact hnot n d rfl

/-- Nothing cancels in a product exactly when its quotients share no variable with it. -/
theorem cancels_eq_false_iff {p : Factors} (hp : ∀ f ∈ p.quotients, f.IsFraction) :
    p.cancels = false ↔ ∀ f ∈ p.quotients, Apart p.names f := by
  rw [cancels, decide_eq_false_iff_not, not_lt]
  constructor
  · exact apart_of_length_cancelQuotients hp
  · intro h
    rw [cancelQuotients_of_apart h]

/-- The quotients of a product are canonical. -/
def CanonicalQuotients (p : Factors) : Prop :=
  ∀ f ∈ p.quotients, f.Canonical ∧ f.IsFraction

/-- A canonical factor that is no sum keeps the quotients of a product canonical. -/
theorem canonicalQuotients_times {p : Factors} (hp : p.CanonicalQuotients) {e : Expr}
    (he : e.Canonical) (hsum : ¬ e.IsSum) : (p.times e).CanonicalQuotients := by
  cases e with
  | sum es => exact absurd trivial hsum
  | product c vs fs =>
    obtain ⟨⟨_, _, hapart, _⟩, hfs⟩ := canonical_product.1 he
    exact List.forall_mem_append.2 ⟨hp, fun f hf => ⟨hfs f hf, (hapart f hf).isFraction⟩⟩
  | fraction n d =>
    exact List.forall_mem_append.2 ⟨hp, by simpa using ⟨he, trivial⟩⟩

/-- What cancelling leaves of a canonical quotient: one that is canonical still, or a product over
the constant one. -/
def IsRemnant (f : Expr) : Prop :=
  (f.Canonical ∧ f.IsFraction) ∨
    ∃ vs fs, f = fraction (product 1 vs fs) one ∧ (product 1 vs fs).Canonical

/-- Cancelling leaves quotients that are canonical, or of which only the numerator is left. -/
theorem isRemnant_cancelQuotients {vs : List String} {fs : List Expr}
    (hfs : ∀ f ∈ fs, f.Canonical ∧ f.IsFraction) :
    ∀ f ∈ (cancelQuotients vs fs).2, IsRemnant f := by
  fun_induction cancelQuotients vs fs with
  | case1 vs => simp
  | case2 vs fs n d names hnames left rest ih =>
    obtain ⟨⟨hhead, _⟩, htail⟩ := List.forall_mem_cons.1 hfs
    rw [pureVariables?_eq_some hnames] at hhead
    refine List.forall_mem_cons.2 ⟨?_, ih htail⟩
    -- The denominator is used up, or has lost only some of its variables.
    by_cases hleft : left.2 = []
    · right
      rw [hleft]
      rcases canonical_fraction.1 hhead with ⟨⟨_, hzero | hlowest⟩, hn, _⟩
      · simp [Expr.zero, const] at hzero
      · obtain ⟨ws, gs, rfl, _⟩ := hlowest.1
        exact ⟨ws, gs, rfl, hn⟩
    · left
      exact ⟨canonical_fraction_of_sublist hhead (cancel_snd_sublist vs names) hleft, trivial⟩
  | case3 vs fs n d _ rest ih =>
    obtain ⟨hhead, htail⟩ := List.forall_mem_cons.1 hfs
    exact List.forall_mem_cons.2 ⟨Or.inl hhead, ih htail⟩
  | case4 vs f fs rest _ ih =>
    obtain ⟨hhead, htail⟩ := List.forall_mem_cons.1 hfs
    exact List.forall_mem_cons.2 ⟨Or.inl hhead, ih htail⟩

/-- No canonical quotient has the denominator one. -/
theorem isOne_denominator {n d : Expr} (h : (fraction n d).Canonical) : d.isOne = false := by
  rcases h.shape.2 with rfl | ⟨_, hd | ⟨ws, gs, rfl, hne⟩⟩
  · rfl
  · cases d with
    | sum es => rfl
    | product c vs fs => exact absurd hd id
    | fraction a b => rfl
  · rw [isOne, beq_eq_false_iff_ne]
    exact fun h => hne (eq_const_of_asConstant? h)

/-- A canonical quotient has no denominator one, and joins the product whole. -/
theorem timesQuotient_of_canonical (p : Factors) {f : Expr} (hf : f.Canonical) :
    p.timesQuotient f = p.times f := by
  cases f with
  | sum es => rfl
  | product c vs fs => rfl
  | fraction n d => rw [timesQuotient, isOne_denominator hf, if_neg Bool.false_ne_true]

/-- Where the denominator is used up, the numerator joins the product. -/
theorem timesQuotient_one (p : Factors) (n : Expr) : p.timesQuotient (fraction n one) = p.times n :=
  rfl

/-- What cancelling leaves keeps the quotients of a product canonical. -/
theorem canonicalQuotients_timesQuotient {p : Factors} (hp : p.CanonicalQuotients) {f : Expr}
    (hf : IsRemnant f) : (p.timesQuotient f).CanonicalQuotients := by
  rcases hf with ⟨hf, hfraction⟩ | ⟨vs, fs, rfl, hn⟩
  · rw [timesQuotient_of_canonical p hf]
    exact canonicalQuotients_times hp hf hfraction.not_isSum
  · rw [timesQuotient_one]
    exact canonicalQuotients_times hp hn id

theorem canonicalQuotients_foldl {p : Factors} (hp : p.CanonicalQuotients) {fs : List Expr}
    (hfs : ∀ f ∈ fs, IsRemnant f) : (fs.foldl timesQuotient p).CanonicalQuotients := by
  induction fs generalizing p with
  | nil => exact hp
  | cons f fs ih =>
    obtain ⟨hhead, htail⟩ := List.forall_mem_cons.1 hfs
    exact ih (canonicalQuotients_timesQuotient hp hhead) htail

/-- A round of cancelling keeps the quotients of a product canonical. -/
theorem canonicalQuotients_cancelled {p : Factors} (hp : p.CanonicalQuotients) :
    p.cancelled.CanonicalQuotients :=
  canonicalQuotients_foldl (by simp [CanonicalQuotients]) (isRemnant_cancelQuotients hp)

theorem pairwise_names_ordered (p : Factors) : p.ordered.names.Pairwise (· ≤ ·) := by
  have htrans : ∀ x y z : String, decide (x ≤ y) = true → decide (y ≤ z) = true →
      decide (x ≤ z) = true := by
    intro x y z hxy hyz
    rw [decide_eq_true_eq] at *
    exact String.le_trans hxy hyz
  have htotal : ∀ x y : String, (decide (x ≤ y) || decide (y ≤ x)) = true := by
    intro x y
    simpa using String.le_total x y
  simpa [ordered] using List.pairwise_mergeSort htrans htotal p.names

/-- Sorted expressions are in canonical order. -/
theorem pairwise_sortList (es : List Expr) :
    (sortList es).Pairwise fun f g => Keyed.le (.of f) (.of g) := by
  rw [sortList, List.pairwise_map]
  simpa using List.pairwise_mergeSort Keyed.le_trans Keyed.le_total (es.map Keyed.of)

/-- A product with canonical quotients is reduced to one in which nothing cancels, in order. -/
theorem isMonomial_reduce {p : Factors} (hp : p.CanonicalQuotients) :
    (monomial p.reduce.names p.reduce.quotients).IsMonomial := by
  fun_induction reduce p with
  | case1 p _ ih => exact ih (canonicalQuotients_cancelled hp)
  | case2 p hcancels =>
    have hapart := (cancels_eq_false_iff fun f hf => (hp f hf).2).1 (by simpa using hcancels)
    apply isMonomial_monomial (pairwise_names_ordered p)
    · intro f hf
      have hmem := (sortList_perm p.quotients).mem_iff.1 hf
      refine ⟨(hp f hmem).1, (hapart f hmem).mono fun x hx => ?_⟩
      exact (List.mergeSort_perm p.names _).mem_iff.1 hx
    · exact pairwise_sortList p.quotients

/-- Sums whose addends are canonical and are themselves no sums. -/
def CanonicalSums (sums : List (List Expr)) : Prop :=
  ∀ addends ∈ sums, ∀ e ∈ addends, e.Canonical ∧ ¬ e.IsSum

/-- A product multiplied out is a combination of monomials. -/
theorem isMonomial_expand {p : Factors} (hp : p.CanonicalQuotients) {sums : List (List Expr)}
    (hsums : CanonicalSums sums) : (p.expand sums).All IsMonomial := by
  induction sums generalizing p with
  | nil =>
    refine Combination.all_empty.insert ?_ _
    rw [Keyed.expr_of]
    exact isMonomial_reduce hp
  | cons addends sums ih =>
    obtain ⟨hhead, htail⟩ := List.forall_mem_cons.1 hsums
    refine Combination.All.foldl (fun a e he ha => ha.add ?_) Combination.all_empty
    exact ih (canonicalQuotients_times hp (hhead e he).1 (hhead e he).2) htail

/-- Gathered factors are canonical, in the product and in the sums that are set aside. -/
theorem canonical_gather {p : Factors} (hp : p.CanonicalQuotients) {es : List Expr}
    (hes : ∀ e ∈ es, e.Canonical) :
    (gather p es).1.CanonicalQuotients ∧ CanonicalSums (gather p es).2 := by
  fun_induction gather p es with
  | case1 p => exact ⟨hp, by simp [CanonicalSums]⟩
  | case2 p addends es rest ih =>
    obtain ⟨hhead, htail⟩ := List.forall_mem_cons.1 hes
    have haddends := hhead.addends
    refine ⟨(ih hp htail).1, List.forall_mem_cons.2 ⟨?_, (ih hp htail).2⟩⟩
    exact fun e he => ⟨(haddends e he).1, (haddends e he).2.1⟩
  | case3 p e es hnot ih =>
    obtain ⟨hhead, htail⟩ := List.forall_mem_cons.1 hes
    refine ih (canonicalQuotients_times hp hhead ?_) htail
    cases e with
    | sum as => exact absurd rfl (hnot as)
    | product c vs fs => exact id
    | fraction n d => exact id

end Factors

namespace Expr

/-- The product of canonical expressions is canonical. -/
theorem canonical_multiply (c : Rat) (vs : List String) {es : List Expr}
    (hes : ∀ e ∈ es, e.Canonical) : (multiply c vs es).Canonical := by
  have hempty : Factors.CanonicalQuotients ⟨c, vs, []⟩ := by simp [Factors.CanonicalQuotients]
  obtain ⟨hquotients, hsums⟩ := Factors.canonical_gather hempty hes
  unfold multiply
  simp only
  split
  · exact canonical_const 0
  · exact Combination.canonical_toExpr (Factors.isMonomial_expand hquotients hsums)

theorem canonical_scale (k : Rat) {e : Expr} (he : e.Canonical) : (scale k e).Canonical :=
  canonical_multiply k [] (by simpa using he)

/-! ## Quotients -/

theorem eq_zero_iff_isZero {e : Expr} : e.isZero = true ↔ e = zero := by
  rw [isZero, beq_iff_eq]
  constructor
  · exact eq_const_of_asConstant?
  · rintro rfl
    rfl

/-- Without their common variables the parts of a quotient are canonical as before. -/
theorem canonical_cancelCommon {n d n' d' : Expr} (h : cancelCommon? n d = some (n', d'))
    (hn : n.Canonical) (hd : d.Canonical) (hzero : n ≠ zero) : n'.Canonical ∧ d'.Canonical := by
  unfold cancelCommon? at h
  split at h
  · rename_i c vs fs
    split at h
    · cases h
    · rename_i names hnames
      simp only at h
      split at h
      · cases h
        obtain ⟨⟨hc, hvs, hapart, hsorted, _⟩, hfs⟩ := canonical_product.1 hn
        rw [Factors.pureVariables?_eq_some hnames] at hd
        have hsub := Factors.cancel_fst_sublist vs names
        -- The numerator has lost variables and may be down to one factor; the denominator is still
        -- nothing but variables.
        constructor
        · apply canonical_ofTerm_monomial _ (hvs.sublist hsub) _ hsorted
          · rintro rfl
            obtain ⟨rfl, rfl⟩ := hc rfl
            exact hzero rfl
          · exact fun f hf => ⟨hfs f hf, (hapart f hf).mono hsub.subset⟩
        · exact canonical_names_of_sublist hd (Factors.cancel_snd_sublist vs names)
      · cases h
  · cases h

/-- Where nothing is common to a product and a denominator, they share no variable. -/
theorem disjoint_of_cancelCommon {c : Rat} {vs : List String} {fs : List Expr} {d : Expr}
    (h : cancelCommon? (product c vs fs) d = none) : vs.Disjoint d.pureNames := by
  simp only [cancelCommon?] at h
  split at h
  · rename_i hnone
    rw [pureNames, hnone]
    exact List.disjoint_nil_right vs
  · rename_i names hnames
    split at h
    · cases h
    · -- Nothing was lost, so nothing was common.
      rename_i hlength
      rw [pureNames, hnames]
      exact Factors.disjoint_of_length_cancel (not_lt.1 hlength)

/-- A denominator that is neither constant nor a quotient, and carries no coefficient. -/
theorem denominator_cases {d : Expr} (hconst : d.asConstant? = none)
    (hfraction : ∀ a b, d = fraction a b → False) (hone : d.split.1 = 1) :
    d.IsSum ∨ ∃ vs fs, d = product 1 vs fs ∧ d ≠ one := by
  cases d with
  | sum es => exact Or.inl trivial
  | product c vs fs =>
    have hc : c = 1 := hone
    subst hc
    refine Or.inr ⟨vs, fs, rfl, fun heq => ?_⟩
    rw [heq] at hconst
    cases hconst
  | fraction a b => exact (hfraction a b rfl).elim

/-- Zero is the only canonical expression with coefficient zero. -/
theorem split_fst_ne_zero {e : Expr} (h : e.Canonical) (hzero : e ≠ zero) : e.split.1 ≠ 0 := by
  cases e with
  | sum es => exact one_ne_zero
  | product c vs fs =>
    rintro (rfl : c = 0)
    obtain ⟨rfl, rfl⟩ := h.shape.1 rfl
    exact hzero rfl
  | fraction a b => exact one_ne_zero

/-- What is no constant has a coefficient other than zero. -/
theorem split_fst_ne_zero_of_asConstant? {d : Expr} (h : d.Canonical)
    (hconst : d.asConstant? = none) : d.split.1 ≠ 0 := by
  apply split_fst_ne_zero h
  rintro rfl
  cases hconst

/-- The quotient of canonical expressions is canonical. -/
theorem canonical_divide {n d : Expr} (hn : n.Canonical) (hd : d.Canonical) :
    (divide n d).Canonical := by
  -- One case for each rule. A rule that divides again hands canonical parts on; a rule that builds
  -- a quotient does so only where nothing else applies.
  fun_induction divide n d with
  | case1 n d _ => exact canonical_const 0
  | case2 n d hnonzero hconst =>
    rw [eq_zero_iff_isZero] at hnonzero
    refine canonical_fraction.2 ⟨⟨hnonzero, Or.inl ?_⟩, hn, hd⟩
    exact eq_const_of_asConstant? hconst
  | case3 n d _ k _ _ => exact canonical_scale _ hn
  | case4 addends d _ _ ih =>
    have haddends := (canonical_sum.1 hn).2
    apply Combination.canonical_toExpr
    apply Combination.isMonomial_ofExprs
    intro e he
    obtain ⟨e', _, rfl⟩ := List.mem_map.1 he
    exact ih e' (haddends _ e'.2) hd
  | case5 a b d _ _ ih =>
    obtain ⟨_, ha, hb⟩ := canonical_fraction.1 hn
    exact ih ha (canonical_multiply 1 [] (by simpa using ⟨hb, hd⟩))
  | case6 n a b _ _ _ _ ih =>
    obtain ⟨_, ha, hb⟩ := canonical_fraction.1 hd
    exact ih (canonical_multiply 1 [] (by simpa using ⟨hn, hb⟩)) ha
  | case7 n d _ _ _ p hp hnonzero _ ih =>
    rw [eq_zero_iff_isZero] at hnonzero
    obtain ⟨hn', hd'⟩ := canonical_cancelCommon hp hn hd hnonzero
    exact ih hn' hd'
  | case8 n d hsum hfraction hfraction' hcommon hone hnonzero hconst =>
    -- Neither part is a quotient, and neither carries a coefficient.
    rw [eq_zero_iff_isZero] at hnonzero
    refine canonical_fraction.2 ⟨⟨hnonzero, Or.inr ⟨?_, ?_⟩⟩, hn, hd⟩
    · cases n with
      | sum es => exact (hsum es rfl).elim
      | product c vs fs =>
        have hc : c = 1 := hone.1
        subst hc
        exact ⟨vs, fs, rfl, disjoint_of_cancelCommon hcommon⟩
      | fraction a b => exact (hfraction a b rfl).elim
    · exact denominator_cases hconst hfraction' hone.2
  | case9 n d _ _ _ _ _ hzero _ hconst =>
    -- A canonical denominator has coefficient zero only if it is the constant zero, which was
    -- divided by before.
    exact absurd hzero (split_fst_ne_zero_of_asConstant? hd hconst)
  | case10 n d _ _ _ _ _ _ _ _ ih => exact canonical_scale _ (ih hn.split_snd hd.split_snd)

/-! ## Normal forms -/

/-- Normal forms are canonical. -/
theorem canonical_normalize (e : Expr) : e.normalize.Canonical := by
  induction e using tree_induction with
  | sum es ih =>
    rw [normalize, normalizeList_eq]
    apply Combination.canonical_toExpr
    apply Combination.isMonomial_ofExprs
    rw [List.forall_mem_map]
    exact ih
  | product c vs fs ih =>
    rw [normalize, normalizeList_eq]
    split
    · exact canonical_const 0
    · apply canonical_multiply
      rw [List.forall_mem_map]
      exact ih
  | fraction n d ihn ihd =>
    rw [normalize]
    exact canonical_divide ihn ihd

/-- What a node of a normal form is like. In a sum no constant stands behind another addend; apart
from the leading constant the addends are in the order of the texts that they have without their
coefficients. -/
def NormalNode : Expr → Prop
  | sum es =>
    2 ≤ es.length ∧ (∀ e ∈ es, ¬ e.IsSum ∧ e ≠ zero) ∧ (∀ e ∈ es.tail, e.asConstant? = none) ∧
      (es.map fun e => e.split.2).Nodup ∧
      ((es.filter fun e => e.asConstant?.isNone).map fun e => e.split.2.text).Pairwise (· ≤ ·)
  | product c vs fs =>
    (c = 0 → vs = [] ∧ fs = []) ∧ vs.Pairwise (· ≤ ·) ∧ (∀ f ∈ fs, f.IsFraction) ∧
      (fs.map text).Pairwise (· ≤ ·) ∧ ¬ (c = 1 ∧ vs = [] ∧ ∃ f, fs = [f]) ∧
      ∀ f ∈ fs, ∀ n names, f = fraction n (product 1 names []) → vs.Disjoint names
  | fraction n d =>
    n ≠ zero ∧ ¬ d.IsFraction ∧ (∀ k, d = const k → k = 0) ∧
      (d ≠ zero → (∃ vs fs, n = product 1 vs fs) ∧ (d.IsSum ∨ ∃ vs fs, d = product 1 vs fs) ∧
        ∀ vs fs names, n = product 1 vs fs → d = product 1 names [] → vs.Disjoint names)

theorem isOne_iff {e : Expr} : e.isOne = true ↔ e = one := by
  rw [isOne, beq_iff_eq]
  constructor
  · exact eq_const_of_asConstant?
  · rintro rfl
    rfl

/-- Of two expressions in order the second is not one, and unless the first is one their texts are
in order. -/
theorem text_le_of_cmp {a b : Expr} (h : Keyed.cmp (.of a) (.of b) = .lt) :
    b ≠ one ∧ (a ≠ one → a.text ≤ b.text) := by
  have hirrefl : a ≠ b := by
    rintro rfl
    rw [Keyed.cmp_eq_iff.2 rfl] at h
    cases h
  simp only [Keyed.cmp, Ordering.then_eq_lt, Std.compare_eq_iff_eq, Nat.compare_eq_lt] at h
  constructor
  · rintro rfl
    have hone : (Keyed.of one).rank = 0 := rfl
    rw [hone] at h
    rcases h with h | ⟨h, _⟩
    · exact absurd h (Nat.not_lt_zero _)
    · -- Then the first is one as well.
      have ha : a.isOne = true := by
        by_contra hnot
        simp [Keyed.rank, hnot] at h
      exact hirrefl (isOne_iff.1 ha)
  · intro ha
    have ha : (Keyed.of a).rank = 1 := by
      simp [Keyed.rank, isOne_iff, ha]
    have hb : (Keyed.of b).rank ≤ 1 := by
      simp only [Keyed.rank]
      split <;> omega
    rcases h with h | ⟨_, h | ⟨h, _⟩⟩
    · omega
    · exact le_of_lt (compare_lt_iff_lt.1 h)
    · exact le_of_eq h

/-- A term is constant exactly when its monomial is one. -/
theorem Canonical.split_eq_one_iff {e : Expr} (h : e.Canonical) (hsum : ¬ e.IsSum) :
    e.split.2 = one ↔ e.asConstant?.isSome := by
  constructor
  · intro hone
    rw [← (h.split hsum).2, hone]
    rfl
  · rw [Option.isSome_iff_exists]
    rintro ⟨k, hk⟩
    rw [eq_const_of_asConstant? hk]
    rfl

/-- The addends of a canonical sum: constants first, the monomials distinct and in order. -/
theorem Canonical.normalNode_sum {es : List Expr} (h : (sum es).Canonical) :
    (sum es).NormalNode := by
  obtain ⟨⟨hlength, hterms, hbefore⟩, hes⟩ := canonical_sum.1 h
  have hone : ∀ e ∈ es, e.split.2 = one ↔ e.asConstant?.isSome :=
    fun e he => (hes e he).split_eq_one_iff (hterms e he).1
  -- Two addends or more, none of them zero or a sum; the constant first; no monomial twice; the
  -- rest by text.
  refine ⟨hlength, ?_, ?_, ?_, ?_⟩
  · intro e he
    refine ⟨(hterms e he).1, ?_⟩
    rintro rfl
    exact (hterms _ he).2 rfl
  · -- A constant behind another addend would stand behind it in the canonical order.
    intro e he
    cases es with
    | nil => cases he
    | cons a rest =>
      have hlt := (List.pairwise_cons.1 hbefore).1 e he
      have hne := (text_le_of_cmp hlt).1
      rw [Ne, hone e (List.mem_cons_of_mem a he)] at hne
      simpa using hne
  · rw [List.Nodup, List.pairwise_map]
    apply hbefore.imp
    intro a b hlt heq
    rw [Before, heq, Keyed.cmp_eq_iff.2 rfl] at hlt
    cases hlt
  · rw [List.pairwise_map]
    apply (hbefore.sublist List.filter_sublist).imp_of_mem
    intro a b ha _ hlt
    rw [List.mem_filter] at ha
    apply (text_le_of_cmp hlt).2
    rw [Ne, hone a ha.1]
    simpa using ha.2

/-- What the shape of a product says in detail. -/
theorem Canonical.normalNode_product {c : Rat} {vs : List String} {fs : List Expr}
    (h : (product c vs fs).Canonical) : (product c vs fs).NormalNode := by
  obtain ⟨hzero, hvs, hapart, hsorted, hsingle⟩ := h.shape
  refine ⟨hzero, hvs, fun f hf => (hapart f hf).isFraction, ?_, hsingle, ?_⟩
  · rw [List.pairwise_map]
    apply hsorted.imp_of_mem
    intro f g hf _ hle
    -- A quotient is not one, so its place is decided by its text.
    have hne : f ≠ one := by
      obtain ⟨n, d, rfl, _⟩ := hapart f hf
      simp [one, const]
    rcases Keyed.le_iff.1 hle with hlt | heq
    · exact (text_le_of_cmp hlt).2 hne
    · exact le_of_eq (congrArg Keyed.key heq)
  · rintro f hf n names rfl
    obtain ⟨n', d', heq, hdisjoint⟩ := hapart _ hf
    cases heq
    rwa [pureNames_product] at hdisjoint

/-- What the shape of a quotient says in detail. -/
theorem Canonical.normalNode_fraction {n d : Expr} (h : (fraction n d).Canonical) :
    (fraction n d).NormalNode := by
  -- A quotient by zero is kept as it is; any other is in lowest terms.
  rcases h.shape with ⟨hne, rfl | ⟨⟨vs, fs, rfl, hdisjoint⟩, hd⟩⟩
  · refine ⟨hne, id, ?_, fun hzero => absurd rfl hzero⟩
    intro k hk
    cases hk
    rfl
  · refine ⟨hne, ?_, ?_, fun _ => ⟨⟨vs, fs, rfl⟩, ?_, ?_⟩⟩
    · rcases hd with hd | ⟨ws, gs, rfl, _⟩
      · cases d with
        | sum es => exact id
        | product c ws gs => exact id
        | fraction a b => exact absurd hd id
      · exact id
    · rintro k rfl
      rcases hd with hd | ⟨ws, gs, heq, hone⟩
      · exact absurd hd id
      · cases heq
        exact absurd rfl hone
    · rcases hd with hd | ⟨ws, gs, heq, _⟩
      · exact Or.inl hd
      · exact Or.inr ⟨ws, gs, heq⟩
    · rintro vs' fs' names heq rfl
      cases heq
      rwa [pureNames_product] at hdisjoint

/-- Every node of a normal form is as `NormalNode` says. -/
theorem normalize_nodes {e p : Expr} (h : Within p e.normalize) : p.NormalNode := by
  have hp := (canonical_normalize e).within h
  cases p with
  | sum es => exact hp.normalNode_sum
  | product c vs fs => exact hp.normalNode_product
  | fraction n d => exact hp.normalNode_fraction

/-- A product of a sum, divided by a product with a coefficient: one of the quotients that this
becomes. -/
theorem normalNode_quotient_of_product :
    Within (fraction (product 1 ["x", "z"] []) (var "y"))
        (normalize (fraction (prod [sum [var "x", one], var "z"]) (product 2 ["y"] []))) ∧
      NormalNode (fraction (product 1 ["x", "z"] []) (var "y")) := by
  have heq : normalize (fraction (prod [sum [var "x", one], var "z"]) (product 2 ["y"] [])) =
      sum [product (1 / 2) [] [fraction (product 1 ["x", "z"] []) (var "y")],
        product (1 / 2) [] [fraction (var "z") (var "y")]] := by
    cbv
  have hwithin : Within (fraction (product 1 ["x", "z"] []) (var "y"))
      (normalize (fraction (prod [sum [var "x", one], var "z"]) (product 2 ["y"] []))) := by
    rw [heq]
    exact Within.addend List.mem_cons_self (Within.factor List.mem_cons_self (Within.refl _))
  exact ⟨hwithin, normalize_nodes hwithin⟩

/-- The leading constant of a sum need not have the first text: the text of a quotient can begin
with a bracket, which stands before all digits. -/
theorem addends_out_of_text_order :
    ∃ es, Within (sum es) (normalize (sum [one, fraction (prod [var "x", var "z"]) (var "y")])) ∧
      ¬ (es.map fun e => e.split.2.text).Pairwise (· ≤ ·) := by
  have heq : normalize (sum [one, fraction (prod [var "x", var "z"]) (var "y")]) =
      sum [one, fraction (product 1 ["x", "z"] []) (var "y")] := by
    cbv
  have htexts : ([one, fraction (product 1 ["x", "z"] []) (var "y")].map fun e => e.split.2.text) =
      ["1", "(x*z) / y"] := by
    cbv
  rw [heq]
  refine ⟨_, Within.refl _, ?_⟩
  rw [htexts]
  decide

end Expr

end RationalAlgebra
