import Mathlib
import RationalAlgebra.Proofs.Normal.Shape

/-!
# Normal forms are left alone

Normalization does nothing to a canonical expression: at a sum its terms are collected in the order
in which they stand, at a product there is nothing to multiply out and nothing cancels, and at a
quotient none of the rules of division applies. A normal form is canonical, and so is everything in
it, so normalizing again changes neither it nor any of its parts.

Main statements: `normalize_of_canonical` and `normalize_normalize`.
-/

namespace RationalAlgebra

open RationalAlgebra.Expr

/-! ## Sums -/

namespace Combination

theorem ext_terms {a b : Combination} (h : a.terms = b.terms) : a = b := by
  cases a
  cases b
  cases h
  rfl

/-- An expression that is no sum is added as one term. -/
theorem addExpr_of_not_isSum (a : Combination) {e : Expr} (h : ¬ e.IsSum) :
    a.addExpr e = a.addTerm e := by
  cases e with
  | sum es => exact absurd trivial h
  | product c vs fs => rfl
  | fraction n d => rfl

/-- A monomial that belongs behind all others is put there. -/
theorem insertTerm_of_forall_lt {m : Keyed} {c : Rat} (hc : c ≠ 0) {terms : List Term}
    (h : ∀ t ∈ terms, Keyed.cmp t.monomial m = .lt) : insertTerm m c terms = terms ++ [⟨m, c⟩] := by
  induction terms with
  | nil => rw [insertTerm, consTerm, if_neg hc, List.nil_append]
  | cons t terms ih =>
    obtain ⟨hhead, htail⟩ := List.forall_mem_cons.1 h
    rw [insertTerm, Keyed.cmp_eq_gt_iff.2 hhead]
    simp only [ih htail, List.cons_append]

/-- A term as it is kept in a combination. -/
def termOf (e : Expr) : Term :=
  ⟨.of e.split.2, e.split.1⟩

/-- Terms that come in order are added one behind the other. -/
theorem terms_foldl_addExpr {es : List Expr} (hterms : ∀ e ∈ es, ¬ e.IsSum ∧ e.split.1 ≠ 0)
    (hbefore : es.Pairwise Before) {a : Combination}
    (ha : ∀ t ∈ a.terms, ∀ e ∈ es, Keyed.cmp t.monomial (.of e.split.2) = .lt) :
    (es.foldl addExpr a).terms = a.terms ++ es.map termOf := by
  induction es generalizing a with
  | nil => simp
  | cons e es ih =>
    obtain ⟨⟨hsum, hne⟩, htail⟩ := List.forall_mem_cons.1 hterms
    obtain ⟨hfirst, hrest⟩ := List.pairwise_cons.1 hbefore
    -- Each addend comes behind all before it, so that the insertions put it last and never meet a
    -- monomial twice.
    have hlast : (a.addTerm e).terms = a.terms ++ [termOf e] :=
      insertTerm_of_forall_lt hne fun t ht => ha t ht e List.mem_cons_self
    rw [List.foldl_cons, addExpr_of_not_isSum a hsum, ih htail hrest, hlast, List.append_assoc,
      List.map_cons, List.singleton_append]
    intro t ht e' he'
    rw [hlast] at ht
    rcases List.mem_append.1 ht with ht | ht
    · exact ha t ht e' (List.mem_cons_of_mem e he')
    · rw [List.mem_singleton.1 ht]
      exact hfirst e' he'

/-- Canonical terms that come in order are the terms of their sum. -/
theorem map_toExpr_ofExprs {es : List Expr}
    (hterms : ∀ e ∈ es, e.Canonical ∧ ¬ e.IsSum ∧ e.split.1 ≠ 0) (hbefore : es.Pairwise Before) :
    (ofExprs es).terms.map Term.toExpr = es := by
  rw [ofExprs, terms_foldl_addExpr (fun e he => (hterms e he).2) hbefore (by simp [empty])]
  simp only [empty, List.nil_append, List.map_map]
  have hsame : ∀ e ∈ es, (Term.toExpr ∘ termOf) e = id e :=
    fun e he => ((hterms e he).1.split (hterms e he).2.1).2
  rw [List.map_congr_left hsame, List.map_id]

/-- The addends of a canonical sum add up to it. -/
theorem toExpr_ofExprs_of_canonical {es : List Expr} (h : (sum es).Canonical) :
    (ofExprs es).toExpr = sum es := by
  obtain ⟨hlength, _, hbefore⟩ := h.shape
  unfold toExpr
  rw [map_toExpr_ofExprs h.addends hbefore]
  rcases es with _ | ⟨e, _ | ⟨f, rest⟩⟩
  · simp at hlength
  · simp at hlength
  · rfl

theorem toExpr_empty_insert (m : Keyed) {c : Rat} (hc : c ≠ 0) :
    (empty.insert m c).toExpr = ofTerm c m.expr := by
  have hterms : (empty.insert m c).terms = [⟨m, c⟩] := by
    rw [insert]
    simp only [empty, insertTerm, consTerm, if_neg hc]
  rw [toExpr, hterms]
  rfl

end Combination

/-! ## Products -/

namespace Factors

/-- Quotients join a product one after another, and none is set aside. -/
theorem gather_of_isFraction {p : Factors} {fs : List Expr} (h : ∀ f ∈ fs, f.IsFraction) :
    gather p fs = (⟨p.coefficient, p.names, p.quotients ++ fs⟩, []) := by
  induction fs generalizing p with
  | nil => simp [gather]
  | cons f fs ih =>
    obtain ⟨hhead, htail⟩ := List.forall_mem_cons.1 h
    cases f with
    | sum es => exact absurd hhead id
    | product c vs gs => exact absurd hhead id
    | fraction n d =>
      rw [gather, ih htail]
      · simp [times]
      · simp

/-- Sorted variables and quotients stay as they are. -/
theorem ordered_of_pairwise {p : Factors} (hnames : p.names.Pairwise (· ≤ ·))
    (hquotients : p.quotients.Pairwise fun f g => Keyed.le (.of f) (.of g)) : p.ordered = p := by
  have hsame : p.names.mergeSort (fun x y => decide (x ≤ y)) = p.names :=
    List.mergeSort_of_pairwise (by simpa using hnames)
  have hsame' : sortList p.quotients = p.quotients := by
    rw [sortList, List.mergeSort_of_pairwise (List.pairwise_map.2 hquotients), List.map_map]
    exact List.map_id p.quotients
  rw [ordered, hsame, hsame']

end Factors

namespace Expr

/-- A product that has only quotients as factors is the one term to which it is reduced. -/
theorem multiply_of_isFraction {c : Rat} (hc : c ≠ 0) (vs : List String) {fs : List Expr}
    (hfs : ∀ f ∈ fs, f.IsFraction) :
    multiply c vs fs = (Factors.expand ⟨c, vs, fs⟩ []).toExpr := by
  rw [multiply, Factors.gather_of_isFraction hfs]
  simp only [List.nil_append, if_neg hc]

/-- Where nothing cancels and all is in order, a product is one term. -/
theorem multiply_of_apart {c : Rat} (hc : c ≠ 0) {vs : List String} {fs : List Expr}
    (hvs : vs.Pairwise (· ≤ ·)) (hapart : ∀ f ∈ fs, Apart vs f)
    (hsorted : fs.Pairwise fun f g => Keyed.le (.of f) (.of g)) :
    multiply c vs fs = ofTerm c (monomial vs fs) := by
  have hfractions : ∀ f ∈ fs, f.IsFraction := fun f hf => (hapart f hf).isFraction
  have hcancels : Factors.cancels ⟨c, vs, fs⟩ = false :=
    (Factors.cancels_eq_false_iff hfractions).2 hapart
  have hreduce : Factors.reduce ⟨c, vs, fs⟩ = ⟨c, vs, fs⟩ := by
    rw [Factors.reduce, dif_neg (by simp [hcancels]), Factors.ordered_of_pairwise hvs hsorted]
  rw [multiply_of_isFraction hc vs hfractions, Factors.expand]
  simp only [hreduce]
  rw [Combination.toExpr_empty_insert _ hc, Keyed.expr_of]

/-- A product in normal form multiplies to itself: nothing cancels, and its parts are in order. -/
theorem multiply_of_canonical {c : Rat} (hc : c ≠ 0) {vs : List String} {fs : List Expr}
    (h : (product c vs fs).Canonical) : multiply c vs fs = product c vs fs := by
  obtain ⟨_, hvs, hapart, hsorted, _⟩ := h.shape
  rw [multiply_of_apart hc hvs hapart hsorted]
  exact (h.split id).2

/-! ## Quotients -/

/-- Without a shared variable nothing cancels. -/
theorem cancelCommon_of_disjoint {c : Rat} {vs : List String} {fs : List Expr} {d : Expr}
    (h : vs.Disjoint d.pureNames) : cancelCommon? (product c vs fs) d = none := by
  simp only [cancelCommon?]
  split
  · rfl
  · rename_i names hnames
    rw [pureNames, hnames, Option.getD_some] at h
    simp [Factors.cancel_of_disjoint h]

/-- A quotient by zero is kept. -/
theorem divide_zero_right {n : Expr} (hn : n ≠ zero) : divide n zero = fraction n zero := by
  rw [divide.eq_def, if_neg (by simpa [eq_zero_iff_isZero] using hn)]
  simp [zero, const, asConstant?]

/-- A denominator in lowest terms is neither constant nor a quotient, and carries no coefficient. -/
theorem Lowest.denominator {n d : Expr} (h : Lowest n d) :
    d.asConstant? = none ∧ ¬ d.IsFraction ∧ d.split.1 = 1 := by
  rcases h.2 with hd | ⟨ws, gs, rfl, hone⟩
  · cases d with
    | sum es => exact ⟨rfl, id, rfl⟩
    | product c ws gs => exact absurd hd id
    | fraction a b => exact absurd hd id
  · refine ⟨?_, id, rfl⟩
    -- A product with coefficient one is constant only if it is one, which a denominator is not.
    cases hk : (product 1 ws gs).asConstant? with
    | none => rfl
    | some k =>
      have heq := eq_const_of_asConstant? hk
      cases heq
      exact absurd rfl hone

/-- No rule applies to a quotient in lowest terms. -/
theorem divide_of_lowest {n d : Expr} (hn : n ≠ zero) (h : Lowest n d) :
    divide n d = fraction n d := by
  obtain ⟨hconst, hfraction, hone⟩ := h.denominator
  obtain ⟨vs, fs, rfl, hdisjoint⟩ := h.1
  have hcommon : cancelCommon? (product 1 vs fs) d = none := cancelCommon_of_disjoint hdisjoint
  have hzero : ¬ (product 1 vs fs).isZero = true := by simpa [eq_zero_iff_isZero] using hn
  rw [divide.eq_def, if_neg hzero, hconst]
  -- A numerator that is a product leaves the last rule of the definition: neither cancelling nor
  -- taking out coefficients applies.
  cases d with
  | fraction a b => exact absurd trivial hfraction
  | sum es =>
    simp only
    split
    · rename_i p hp
      rw [hcommon] at hp
      cases hp
    · exact dif_pos ⟨rfl, hone⟩
  | product c ws gs =>
    simp only
    split
    · rename_i p hp
      rw [hcommon] at hp
      cases hp
    · exact dif_pos ⟨rfl, hone⟩

/-! ## Normal forms -/

/-- Normalization leaves canonical expressions alone. -/
theorem normalize_of_canonical {e : Expr} (h : e.Canonical) : e.normalize = e := by
  -- The parts are normal forms, so they stay; then the constructor builds what was there.
  induction e using tree_induction with
  | sum es ih =>
    have hsame : es.map normalize = es :=
      (List.map_congr_left fun e he => ih e he ((canonical_sum.1 h).2 e he)).trans (List.map_id es)
    rw [normalize, normalizeList_eq, hsame, Combination.toExpr_ofExprs_of_canonical h]
  | product c vs fs ih =>
    have hsame : fs.map normalize = fs :=
      (List.map_congr_left fun f hf => ih f hf ((canonical_product.1 h).2 f hf)).trans
        (List.map_id fs)
    rw [normalize, normalizeList_eq, hsame]
    split
    · rename_i hc
      -- The only product with coefficient zero is zero.
      obtain ⟨rfl, rfl⟩ := h.shape.1 hc
      rw [hc]
      rfl
    · rename_i hc
      exact multiply_of_canonical hc h
  | fraction n d ihn ihd =>
    obtain ⟨⟨hne, hd⟩, hn', hd'⟩ := canonical_fraction.1 h
    rw [normalize, ihn hn', ihd hd']
    rcases hd with rfl | hlowest
    · exact divide_zero_right hne
    · exact divide_of_lowest hne hlowest

/-- Normalizing twice is normalizing once, and every part of a normal form is a normal form. -/
theorem normalize_normalize (e : Expr) :
    e.normalize.normalize = e.normalize ∧ ∀ p, Within p e.normalize → p.normalize = p := by
  have hparts : ∀ p, Within p e.normalize → p.normalize = p :=
    fun p hp => normalize_of_canonical ((canonical_normalize e).within hp)
  exact ⟨hparts _ (Within.refl _), hparts⟩

end Expr

end RationalAlgebra
