import Mathlib
import RationalAlgebra.Normal.Rewriting
import RationalAlgebra.Proofs.Normal.FixedPoint

/-!
# Rewriting terminates

Rewriting comes to an end on every expression, with the normal form as its result. An expression
`Settles` if the calls that it makes are nested to a bounded depth. Canonical expressions settle, as
no rule applies to them. Of what the rules build every part is canonical or settles by induction, so
three inductions do the rest: for products on the number of sums among the factors and then on the
number of variables and quotients, which falls when a variable is cancelled; for quotients along the
recursion of `Expr.divide`; and over the tree.

Main statement: `exists_depth_rewriteWithin`.
-/

namespace RationalAlgebra

open RationalAlgebra.Expr

/-! ## Sums of sums -/

namespace Combination

/-- To add nothing of a monomial changes nothing. -/
theorem insertTerm_zero (m : Keyed) {terms : List Term} (h : ∀ t ∈ terms, t.coefficient ≠ 0) :
    insertTerm m 0 terms = terms := by
  induction terms with
  | nil => rfl
  | cons t terms ih =>
    obtain ⟨hhead, htail⟩ := List.forall_mem_cons.1 h
    rw [insertTerm]
    split
    · rfl
    · rename_i heq
      rw [add_zero, consTerm, if_neg hhead, Keyed.cmp_eq_iff.1 heq]
    · rw [ih htail]

theorem insert_zero (a : Combination) (m : Keyed) : a.insert m 0 = a :=
  ext_terms (insertTerm_zero m a.nonzero)

/-- To add a combination as an expression is to add its terms. -/
theorem addExpr_toExpr (a : Combination) {b : Combination} (hb : b.All IsMonomial) :
    a.addExpr b.toExpr = a.add b := by
  -- A term that is written down comes back as its coefficient and its monomial: no coefficient is
  -- zero.
  have hterm : ∀ (c : Combination), ∀ t ∈ b.terms,
      c.addTerm t.toExpr = c.insert t.monomial t.coefficient := by
    intro c t ht
    have hsplit : t.toExpr.split = (t.coefficient, t.monomial.expr) :=
      ((hb t ht).ofTerm (b.nonzero t ht)).2.2
    rw [addTerm, hsplit, Keyed.of_expr]
  have hsum : ∀ t ∈ b.terms, ¬ t.toExpr.IsSum := fun t ht => ((hb t ht).ofTerm (b.nonzero t ht)).2.1
  rw [toExpr, add]
  rcases hterms : b.terms with _ | ⟨s, _ | ⟨t, rest⟩⟩
  · -- Nothing is added, and zero is written for it.
    exact insert_zero a (.of one)
  · -- A single term is written without a sum around it.
    have hs : s ∈ b.terms := by simp [hterms]
    simp only [List.map_cons, List.map_nil, List.foldl_cons, List.foldl_nil]
    rw [addExpr_of_not_isSum a (hsum s hs), hterm a s hs]
  · simp only [List.map_cons]
    rw [addExpr, ← List.map_cons, ← List.map_cons, ← hterms, List.foldl_map]
    exact List.foldl_ext _ _ a fun c t ht => hterm c t ht

/-- Adding up expressions that are written from combinations adds up the combinations. -/
theorem ofExprs_map_toExpr {α : Type} (f : α → Combination) {xs : List α}
    (h : ∀ x ∈ xs, (f x).All IsMonomial) :
    ofExprs (xs.map fun x => (f x).toExpr) = xs.foldl (fun acc x => acc.add (f x)) empty := by
  rw [ofExprs, List.foldl_map]
  exact List.foldl_ext _ _ empty fun c x hx => addExpr_toExpr c (h x hx)

end Combination

/-! ## Gathering what was built -/

namespace Expr

/-- A multiple of a product is the product with the multiple of its constant. -/
theorem scale_product (k c : Rat) (vs : List String) {fs : List Expr}
    (hfs : ∀ f ∈ fs, f.IsFraction) : scale k (product c vs fs) = multiply (k * c) vs fs := by
  rw [scale, multiply, multiply, Factors.gather_of_isFraction hfs]
  simp [Factors.gather, Factors.times]

/-- A quotient with the denominator one is its numerator. -/
theorem normalize_fraction_one {vs : List String} {fs : List Expr}
    (h : (product 1 vs fs).Canonical) : (fraction (product 1 vs fs) one).normalize =
      product 1 vs fs := by
  have hfractions : ∀ f ∈ fs, f.IsFraction := fun f hf => (h.shape.2.2.1 f hf).isFraction
  have hzero : ¬ (product 1 vs fs).isZero = true := by
    simp [eq_zero_iff_isZero, zero, const]
  have hone : one.normalize = one := normalize_of_canonical (canonical_const 1)
  rw [normalize, normalize_of_canonical h, hone, divide.eq_def, if_neg hzero]
  simp only [one, const, asConstant?, if_neg one_ne_zero]
  rw [scale_product _ _ _ hfractions, inv_one, one_mul, multiply_of_canonical one_ne_zero h]

end Expr

namespace Factors

/-- Factors are taken apart from left to right. -/
theorem gather_append (p : Factors) (es fs : List Expr) :
    gather p (es ++ fs) =
      ((gather (gather p es).1 fs).1, (gather p es).2 ++ (gather (gather p es).1 fs).2) := by
  fun_induction gather p es with
  | case1 p => rfl
  | case2 p addends es rest ih =>
    rw [List.cons_append, gather, ih]
    rfl
  | case3 p e es hnot ih => rw [List.cons_append, gather, ih]; exact hnot

/-- Sums among the factors are set aside, and leave the product as it is. -/
theorem gather_map_sum (p : Factors) (sums : List (List Expr)) :
    gather p (sums.map Expr.sum) = (p, sums) := by
  induction sums with
  | nil => rfl
  | cons addends sums ih => rw [List.map_cons, gather, ih]

/-- Factors that are no sums all join the product. -/
theorem gather_of_not_isSum (p : Factors) {es : List Expr} (h : ∀ e ∈ es, ¬ e.IsSum) :
    gather p es = (es.foldl times p, []) := by
  induction es generalizing p with
  | nil => rfl
  | cons e es ih =>
    obtain ⟨hhead, htail⟩ := List.forall_mem_cons.1 h
    cases e with
    | sum as => exact absurd trivial hhead
    | product c vs fs => rw [gather, ih _ htail, List.foldl_cons]; simp
    | fraction n d => rw [gather, ih _ htail, List.foldl_cons]; simp

/-- The sums that are set aside are factors. -/
theorem sum_mem_of_mem_gather {p : Factors} {es : List Expr} {addends : List Expr}
    (h : addends ∈ (gather p es).2) : Expr.sum addends ∈ es := by
  fun_induction gather p es with
  | case1 p => cases h
  | case2 p as es rest ih =>
    rcases List.mem_cons.1 h with rfl | h
    · exact List.mem_cons_self
    · exact List.mem_cons_of_mem _ (ih h)
  | case3 p e es _ ih => exact List.mem_cons_of_mem _ (ih h)

/-- A distributed product, gathered again: one addend has joined the factors. -/
theorem gather_distributed {p : Factors} (hp : p.CanonicalQuotients) (sums : List (List Expr))
    {e : Expr} (he : ¬ e.IsSum) :
    gather ⟨p.coefficient, p.names, []⟩ (p.quotients ++ sums.map Expr.sum ++ [e]) =
      (p.times e, sums) := by
  have hquotients := gather_of_isFraction (p := ⟨p.coefficient, p.names, []⟩)
    fun f hf => (hp f hf).2
  rw [gather_append, gather_append, hquotients]
  simp only [List.nil_append, gather_map_sum]
  rw [gather_of_not_isSum p (by simpa using he)]
  simp

/-- A remnant is what its normal form multiplies by. -/
theorem normalize_of_isRemnant {f : Expr} (hf : IsRemnant f) :
    ¬ f.normalize.IsSum ∧ ∀ p : Factors, p.timesQuotient f = p.times f.normalize := by
  rcases hf with ⟨hf, hfraction⟩ | ⟨vs, fs, rfl, hn⟩
  · rw [normalize_of_canonical hf]
    exact ⟨hfraction.not_isSum, fun p => timesQuotient_of_canonical p hf⟩
  · rw [normalize_fraction_one hn]
    exact ⟨id, fun p => timesQuotient_one p _⟩

/-- Cancelling once leads to the product that is gathered from the remnants. -/
theorem gather_remnants (c : Rat) (vs : List String) {fs : List Expr}
    (hfs : ∀ f ∈ fs, IsRemnant f) :
    gather ⟨c, vs, []⟩ (fs.map normalize) = (fs.foldl timesQuotient ⟨c, vs, []⟩, []) := by
  have hnot : ∀ e ∈ fs.map normalize, ¬ e.IsSum :=
    List.forall_mem_map.2 fun f hf => (normalize_of_isRemnant (hfs f hf)).1
  rw [gather_of_not_isSum _ hnot, List.foldl_map]
  congr 1
  exact (List.foldl_ext _ _ _ fun p f hf => (normalize_of_isRemnant (hfs f hf)).2 p).symm

/-- What cancelling leaves of a quotient brings no coefficient. -/
theorem coefficient_timesQuotient (p : Factors) {f : Expr} (hf : IsRemnant f) :
    (p.timesQuotient f).coefficient = p.coefficient := by
  rcases hf with ⟨hf, hfraction⟩ | ⟨vs, fs, rfl, _⟩
  · rw [timesQuotient_of_canonical p hf]
    cases f with
    | sum es => rfl
    | product c vs fs => exact absurd hfraction id
    | fraction n d => rfl
  · rw [timesQuotient_one]
    exact mul_one _

theorem coefficient_foldl_timesQuotient (p : Factors) {fs : List Expr}
    (hfs : ∀ f ∈ fs, IsRemnant f) : (fs.foldl timesQuotient p).coefficient = p.coefficient := by
  induction fs generalizing p with
  | nil => rfl
  | cons f fs ih =>
    obtain ⟨hhead, htail⟩ := List.forall_mem_cons.1 hfs
    rw [List.foldl_cons, ih _ htail, coefficient_timesQuotient p hhead]

end Factors

namespace Expr

/-! ## Results within a bounded depth -/

/-- What calls rewriting has this result once the calls may be nested deep enough. -/
def Reaches {α : Type} (f : (Expr → Option Expr) → Option α) (a : α) : Prop :=
  ∃ depth, ∀ k, f (rewriteWithin (depth + k)) = some a

/-- Rewriting an expression leads to its normal form. -/
def Settles (e : Expr) : Prop :=
  Reaches (fun again => again e) e.normalize

/-- What calls nothing has its result at once. -/
theorem Reaches.of_some {α : Type} {f : (Expr → Option Expr) → Option α} {a : α}
    (h : ∀ again, f again = some a) : Reaches f a :=
  ⟨0, fun _ => h _⟩

/-- What is normalized again settles, and its normal form is the result. -/
theorem Reaches.of_again {f : (Expr → Option Expr) → Option Expr} {e r : Expr}
    (h : ∀ again, f again = again e) (he : e.Settles) (hr : e.normalize = r) : Reaches f r := by
  obtain ⟨depth, he⟩ := he
  refine ⟨depth, fun k => ?_⟩
  rw [h, ← hr]
  exact he k

/-- Two results one after the other need no more than their depths together. -/
theorem Reaches.bind {α β : Type} {f : (Expr → Option Expr) → Option α}
    {g : α → (Expr → Option Expr) → Option β} {a : α} {b : β} (hf : Reaches f a)
    (hg : Reaches (g a) b) : Reaches (fun again => (f again).bind fun x => g x again) b := by
  obtain ⟨depth, hf⟩ := hf
  obtain ⟨depth', hg⟩ := hg
  refine ⟨depth + depth', fun k => ?_⟩
  have hf' := hf (depth' + k)
  have hg' := hg (depth + k)
  rw [← Nat.add_assoc] at hf'
  rw [Nat.add_left_comm, ← Nat.add_assoc] at hg'
  simp only [hf', Option.bind_some, hg']

/-- An expression settles if the rewriting of it comes to its normal form. -/
theorem settles_of_rewrite {e : Expr} (h : Reaches (fun again => rewrite again e) e.normalize) :
    e.Settles := by
  obtain ⟨depth, h⟩ := h
  refine ⟨depth + 1, fun k => ?_⟩
  rw [Nat.add_right_comm]
  exact h k

/-- Expressions that settle one by one are normalized together. -/
theorem reaches_mapM {es : List Expr} (h : ∀ e ∈ es, e.Settles) :
    Reaches (fun again => es.mapM again) (es.map normalize) := by
  induction es with
  | nil => exact Reaches.of_some fun _ => rfl
  | cons e es ih =>
    obtain ⟨hhead, htail⟩ := List.forall_mem_cons.1 h
    simp only [List.mapM_cons]
    exact hhead.bind ((ih htail).bind (Reaches.of_some fun _ => rfl))

theorem settles_sum {es : List Expr} (h : ∀ e ∈ es, e.Settles) : (sum es).Settles := by
  apply settles_of_rewrite
  simp only [rewrite, rewriteSum, Option.map_eq_bind]
  rw [normalize, normalizeList_eq]
  exact (reaches_mapM h).bind (Reaches.of_some fun _ => rfl)

/-! ## Products and quotients of results -/

/-- Rewriting finds the product of some factors and sums. -/
def SettlesFactors (p : Factors) (sums : List (List Expr)) : Prop :=
  Reaches (fun again => rewriteFactors again p sums)
    (if p.coefficient = 0 then zero else (p.expand sums).toExpr)

/-- A product settles if its factors do and the product of their normal forms does. -/
theorem settles_product_of_gather {c : Rat} {vs : List String} {fs : List Expr}
    (hfs : ∀ f ∈ fs, f.Settles)
    (h : SettlesFactors (Factors.gather ⟨c, vs, []⟩ (fs.map normalize)).1
      (Factors.gather ⟨c, vs, []⟩ (fs.map normalize)).2) : (product c vs fs).Settles := by
  apply settles_of_rewrite
  simp only [rewrite, rewriteProduct]
  rw [normalize, normalizeList_eq]
  split
  · exact Reaches.of_some fun _ => rfl
  · exact (reaches_mapM hfs).bind h

/-- Rewriting finds this quotient of two normal forms. -/
def SettlesQuotient (n d r : Expr) : Prop :=
  Reaches (fun again => rewriteQuotient again n d) r

/-- A quotient settles if its parts do and the quotient of their normal forms does. -/
theorem settles_fraction_of_quotient {n d : Expr} (hn : n.Settles) (hd : d.Settles)
    (h : SettlesQuotient n.normalize d.normalize (divide n.normalize d.normalize)) :
    (fraction n d).Settles := by
  apply settles_of_rewrite
  simp only [rewrite]
  rw [normalize]
  exact hn.bind (hd.bind h)

/-! ## Canonical expressions settle -/

theorem map_normalize_of_canonical {es : List Expr} (h : ∀ e ∈ es, e.Canonical) :
    es.map normalize = es :=
  (List.map_congr_left fun e he => normalize_of_canonical (h e he)).trans (List.map_id es)

/-- A product with coefficient zero settles at once. -/
theorem settlesFactors_of_coefficient {p : Factors} (hp : p.coefficient = 0)
    (sums : List (List Expr)) : SettlesFactors p sums := by
  apply Reaches.of_some
  intro again
  rw [rewriteFactors.eq_def, if_pos hp, if_pos hp]

/-- A product of variables and quotients collapses to the term they make up. -/
theorem collapse_eq {c : Rat} {vs : List String} {fs : List Expr} (hfs : ∀ f ∈ fs, f.IsFraction) :
    collapse c vs fs = ofTerm c (monomial vs fs) := by
  unfold collapse
  split
  · rename_i f
    have hf := hfs f List.mem_cons_self
    cases f with
    | sum es => exact absurd hf id
    | product k ws gs => exact absurd hf id
    | fraction n d => rfl
  · rename_i hmany
    rw [monomial_eq_product]
    · rfl
    · rintro ⟨hvs, f, hf⟩
      exact hmany f hvs hf

/-- Where nothing cancels, a product of quotients is put in order, and that is all. -/
theorem settlesFactors_of_cancels {p : Factors} (hp : p.CanonicalQuotients)
    (hcancels : p.cancels = false) : SettlesFactors p [] := by
  by_cases hc : p.coefficient = 0
  · exact settlesFactors_of_coefficient hc []
  · have hordered : ∀ f ∈ p.ordered.quotients, f.IsFraction :=
      fun f hf => (hp f ((sortList_perm p.quotients).mem_iff.1 hf)).2
    have hreduce : p.reduce = p.ordered := by
      rw [Factors.reduce, dif_neg (by simp [hcancels])]
    have hc' : p.ordered.coefficient ≠ 0 := hc
    apply Reaches.of_some
    intro again
    rw [rewriteFactors, if_neg hc, if_neg hc, hcancels, if_neg Bool.false_ne_true, Factors.expand]
    simp only [collapse_eq hordered, hreduce]
    rw [Combination.toExpr_empty_insert _ hc', Keyed.expr_of]

/-- Without a common variable nothing is taken from numerator and denominator. -/
theorem withoutCommon_of_disjoint {c : Rat} {vs : List String} {fs : List Expr} {d : Expr}
    (h : vs.Disjoint d.pureNames) : withoutCommon? (product c vs fs) d = none := by
  simp only [withoutCommon?]
  split
  · rfl
  · rename_i names hnames
    rw [pureNames, hnames, Option.getD_some] at h
    simp [Factors.cancel_of_disjoint h]

theorem split_snd_of_monic {e : Expr} (h : e.Canonical) (hone : e.split.1 = 1) :
    e.split.2 = e := by
  by_cases hsum : e.IsSum
  · cases e with
    | sum es => rfl
    | product c vs fs => exact absurd hsum id
    | fraction n d => rfl
  · obtain ⟨hmonomial, heq⟩ := h.split hsum
    rwa [hone, ofTerm_one hmonomial.monic] at heq

/-- No rule applies to a quotient that is canonical. -/
theorem settlesQuotient_of_canonical {n d : Expr} (h : (fraction n d).Canonical) :
    SettlesQuotient n d (fraction n d) := by
  obtain ⟨⟨hne, hd⟩, hn', hd'⟩ := canonical_fraction.1 h
  have hzero : ¬ n.isZero = true := by simpa [eq_zero_iff_isZero] using hne
  apply Reaches.of_some
  intro again
  rw [rewriteQuotient.eq_def, if_neg hzero]
  -- A quotient by zero is kept by the first test for constants; one in lowest terms comes to the
  -- last branch.
  rcases hd with rfl | hlowest
  · rfl
  · obtain ⟨hconst, hfraction, hone⟩ := hlowest.denominator
    obtain ⟨vs, fs, rfl, hdisjoint⟩ := hlowest.1
    have hn := split_snd_of_monic hn' rfl
    have hcommon : withoutCommon? (product 1 vs fs) d = none :=
      withoutCommon_of_disjoint hdisjoint
    rw [hconst]
    cases d with
    | fraction a b => exact absurd trivial hfraction
    | sum es =>
      simp only [hcommon]
      rw [if_pos ⟨rfl, hone⟩, hn, split_snd_of_monic hd' hone]
    | product c ws gs =>
      simp only [hcommon]
      rw [if_pos ⟨rfl, hone⟩, hn, split_snd_of_monic hd' hone]

/-- Normal forms are divided as they are. -/
theorem normalize_fraction_of_canonical {n d : Expr} (hn : n.Canonical) (hd : d.Canonical) :
    (fraction n d).normalize = divide n d := by
  rw [normalize, normalize_of_canonical hn, normalize_of_canonical hd]

/-- A quotient of normal forms settles if their division does. -/
theorem settles_fraction_of_canonical {n d : Expr} (hn : n.Canonical) (hd : d.Canonical)
    (hn' : n.Settles) (hd' : d.Settles) (h : SettlesQuotient n d (fraction n d).normalize) :
    (fraction n d).Settles := by
  apply settles_fraction_of_quotient hn' hd'
  rw [normalize_fraction_of_canonical hn hd] at h
  rwa [normalize_of_canonical hn, normalize_of_canonical hd]

/-- A normal form settles, and each of its parts before it. -/
theorem settles_of_canonical {e : Expr} (h : e.Canonical) : e.Settles := by
  -- The parts settle to themselves, so the node is left as it is.
  induction e using tree_induction with
  | sum es ih => exact settles_sum fun e he => ih e he ((canonical_sum.1 h).2 e he)
  | product c vs fs ih =>
    obtain ⟨⟨_, _, hapart, _⟩, hfs⟩ := canonical_product.1 h
    have hfractions : ∀ f ∈ fs, f.IsFraction := fun f hf => (hapart f hf).isFraction
    apply settles_product_of_gather fun f hf => ih f hf (hfs f hf)
    rw [map_normalize_of_canonical hfs, Factors.gather_of_isFraction hfractions, List.nil_append]
    apply settlesFactors_of_cancels
    · exact fun f hf => ⟨hfs f hf, hfractions f hf⟩
    · exact (Factors.cancels_eq_false_iff hfractions).2 hapart
  | fraction n d ihn ihd =>
    obtain ⟨_, hn, hd⟩ := canonical_fraction.1 h
    apply settles_fraction_of_canonical hn hd (ihn hn) (ihd hd)
    rw [normalize_of_canonical h]
    exact settlesQuotient_of_canonical h

/-- A quotient with the denominator one is found to be its numerator. -/
theorem settlesQuotient_one {vs : List String} {fs : List Expr}
    (h : (product 1 vs fs).Canonical) :
    SettlesQuotient (product 1 vs fs) one (product 1 vs fs) := by
  have hzero : ¬ (product 1 vs fs).isZero = true := by
    simp [eq_zero_iff_isZero, zero, const]
  apply Reaches.of_again (e := product 1 vs fs)
  · intro again
    rw [rewriteQuotient.eq_def, if_neg hzero]
    simp [one, const, asConstant?, scaled]
  · exact settles_of_canonical h
  · exact normalize_of_canonical h

/-- What cancelling leaves of a quotient settles. -/
theorem settles_of_isRemnant {f : Expr} (hf : Factors.IsRemnant f) : f.Settles := by
  rcases hf with ⟨hf, _⟩ | ⟨vs, fs, rfl, hn⟩
  · exact settles_of_canonical hf
  · have hone : one.Canonical := canonical_const 1
    apply settles_fraction_of_canonical hn hone (settles_of_canonical hn)
      (settles_of_canonical hone)
    rw [normalize_fraction_one hn]
    exact settlesQuotient_one hn

/-! ## Products settle -/

/-- A product of quotients settles: each time a variable cancels its degree falls. -/
theorem settlesFactors_nil {p : Factors} (hp : p.CanonicalQuotients) : SettlesFactors p [] := by
  -- Each round in which something cancels has a product of smaller degree to go on with.
  induction hdegree : p.degree using Nat.strong_induction_on generalizing p with
  | _ degree ih =>
    by_cases hc : p.coefficient = 0
    · exact settlesFactors_of_coefficient hc []
    · cases hcancels : p.cancels with
      | false => exact settlesFactors_of_cancels hp hcancels
      | true =>
        have hremnants : ∀ f ∈ (Factors.cancelQuotients p.names p.quotients).2,
            Factors.IsRemnant f := Factors.isRemnant_cancelQuotients hp
        -- What the rewriting writes down and normalizes again is the product that a round of
        -- cancelling computes.
        have hgather : Factors.gather
            ⟨p.coefficient, (Factors.cancelQuotients p.names p.quotients).1, []⟩
            ((Factors.cancelQuotients p.names p.quotients).2.map normalize) = (p.cancelled, []) :=
          Factors.gather_remnants _ _ hremnants
        have hcoefficient : p.cancelled.coefficient = p.coefficient :=
          Factors.coefficient_foldl_timesQuotient _ hremnants
        have hreduce : p.reduce = p.cancelled.reduce := by
          rw [Factors.reduce, dif_pos hcancels]
        have hlt := Factors.degree_cancelled_lt hcancels
        have hcancelled := ih _ (hdegree ▸ hlt) (Factors.canonicalQuotients_cancelled hp) rfl
        apply Reaches.of_again (e := product p.coefficient
          (Factors.cancelQuotients p.names p.quotients).1
          (Factors.cancelQuotients p.names p.quotients).2)
        · intro again
          rw [rewriteFactors, if_neg hc, hcancels, if_pos rfl]
        · apply settles_product_of_gather
          · exact fun f hf => settles_of_isRemnant (hremnants f hf)
          · rw [hgather]
            exact hcancelled
        · rw [normalize, normalizeList_eq, if_neg hc, multiply, hgather]
          simp only [hcoefficient, if_neg hc, Factors.expand]
          rw [hreduce]

/-- Sums that are canonical have canonical addends. -/
theorem canonicalSums_of_forall {sums : List (List Expr)}
    (h : ∀ addends ∈ sums, (sum addends).Canonical) : Factors.CanonicalSums sums := by
  intro addends hmem e he
  obtain ⟨hcanonical, hsum, _⟩ := (h addends hmem).addends e he
  exact ⟨hcanonical, hsum⟩

/-- A coefficient other than zero stays so when a term other than zero joins. -/
theorem coefficient_times_ne_zero {p : Factors} (hp : p.coefficient ≠ 0) {e : Expr}
    (he : e.split.1 ≠ 0) : (p.times e).coefficient ≠ 0 := by
  cases e with
  | sum es => exact hp
  | product c vs fs => exact mul_ne_zero hp he
  | fraction n d => exact hp

/-- One of the products into which a sum is distributed: its addend has joined the factors. -/
theorem settles_distributed {p : Factors} (hp : p.CanonicalQuotients) (hc : p.coefficient ≠ 0)
    {sums : List (List Expr)} (hsums : ∀ addends ∈ sums, (sum addends).Canonical) {e : Expr}
    (he : e.Canonical) (hsum : ¬ e.IsSum) (hne : e.split.1 ≠ 0)
    (h : SettlesFactors (p.times e) sums) :
    (product p.coefficient p.names (p.quotients ++ sums.map sum ++ [e])).Settles ∧
      (product p.coefficient p.names (p.quotients ++ sums.map sum ++ [e])).normalize =
        ((p.times e).expand sums).toExpr := by
  have hfactors : ∀ f ∈ p.quotients ++ sums.map sum ++ [e], f.Canonical := by
    simp only [List.forall_mem_append, List.forall_mem_map, List.forall_mem_singleton]
    exact ⟨⟨fun f hf => (hp f hf).1, hsums⟩, he⟩
  -- All factors are normal forms already, and gathering them finds the same product and the sums
  -- that are left.
  have hgather : Factors.gather ⟨p.coefficient, p.names, []⟩
      ((p.quotients ++ sums.map sum ++ [e]).map normalize) = (p.times e, sums) := by
    rw [map_normalize_of_canonical hfactors]
    exact Factors.gather_distributed hp sums hsum
  constructor
  · apply settles_product_of_gather fun f hf => settles_of_canonical (hfactors f hf)
    rwa [hgather]
  · rw [normalize, normalizeList_eq, if_neg hc, multiply, hgather]
    simp only [if_neg (coefficient_times_ne_zero hc hne)]

/-- A product of quotients and sums settles: each time a sum is multiplied out there is one sum less
among the factors. -/
theorem settlesFactors {p : Factors} (hp : p.CanonicalQuotients) {sums : List (List Expr)}
    (hsums : ∀ addends ∈ sums, (sum addends).Canonical) : SettlesFactors p sums := by
  induction sums generalizing p with
  | nil => exact settlesFactors_nil hp
  | cons addends sums ih =>
    by_cases hc : p.coefficient = 0
    · exact settlesFactors_of_coefficient hc _
    · obtain ⟨hhead, htail⟩ := List.forall_mem_cons.1 hsums
      have haddends := hhead.addends
      have htimes : ∀ e ∈ addends, (p.times e).CanonicalQuotients :=
        fun e he => Factors.canonicalQuotients_times hp (haddends e he).1 (haddends e he).2.1
      have heach := fun e he => settles_distributed hp hc htail (haddends e he).1
        (haddends e he).2.1 (haddends e he).2.2 (ih (htimes e he) htail)
      have hmonomials : ∀ e ∈ addends, ((p.times e).expand sums).All IsMonomial :=
        fun e he => Factors.isMonomial_expand (htimes e he) (canonicalSums_of_forall htail)
      -- One sum is distributed, and the products that result have one sum fewer each.
      apply Reaches.of_again (e := distribute p sums addends)
      · intro again
        rw [rewriteFactors, if_neg hc]
      · apply settles_sum
        rw [List.forall_mem_map]
        exact fun e he => (heach e he).1
      · rw [distribute, normalize, normalizeList_eq, List.map_map, if_neg hc, Factors.expand,
          ← Combination.ofExprs_map_toExpr _ hmonomials]
        congr 2
        exact List.map_congr_left fun e he => (heach e he).2

/-- A product settles if its factors do. -/
theorem settles_product {c : Rat} {vs : List String} {fs : List Expr}
    (hfs : ∀ f ∈ fs, f.Settles) : (product c vs fs).Settles := by
  have hcanonical : ∀ e ∈ fs.map normalize, e.Canonical :=
    List.forall_mem_map.2 fun f _ => canonical_normalize f
  have hempty : Factors.CanonicalQuotients ⟨c, vs, []⟩ := by simp [Factors.CanonicalQuotients]
  apply settles_product_of_gather hfs
  apply settlesFactors (Factors.canonical_gather hempty hcanonical).1
  exact fun addends h => hcanonical _ (Factors.sum_mem_of_mem_gather h)

/-- A multiple of what settles does, if it is a normal form. -/
theorem settles_scaled {e : Expr} (he : e.Settles) (hfactors : e.Canonical) (k : Rat) :
    (e.scaled k).Settles := by
  cases e with
  | sum es => exact settles_product (by simpa using he)
  | product c vs fs =>
    exact settles_product fun f hf => settles_of_canonical ((canonical_product.1 hfactors).2 f hf)
  | fraction n d => exact settles_product (by simpa using he)

/-- A multiple of a canonical expression, normalized again. -/
theorem normalize_scaled {k : Rat} (hk : k ≠ 0) {e : Expr} (he : e.Canonical) :
    (e.scaled k).normalize = scale k e := by
  cases e with
  | sum es =>
    rw [scaled, normalize, if_neg hk, normalizeList_eq, map_normalize_of_canonical (by simpa)]
    · rfl
    · simp
  | product c vs fs =>
    obtain ⟨⟨hzero, _, hapart, _⟩, hfs⟩ := canonical_product.1 he
    have hfractions : ∀ f ∈ fs, f.IsFraction := fun f hf => (hapart f hf).isFraction
    rw [scaled, scale_product k c vs hfractions, normalize, normalizeList_eq,
      map_normalize_of_canonical hfs, mul_comm c k]
    split
    · -- The constant of the product is zero, and so is the multiple.
      rename_i hc
      rw [multiply, Factors.gather_of_isFraction hfractions]
      simp only [if_pos hc]
    · rfl
  | fraction n d =>
    rw [scaled, normalize, if_neg hk, normalizeList_eq, map_normalize_of_canonical (by simpa)]
    · rfl
    · simp

/-! ## Quotients settle -/

/-- The common variables that the one rule finds are those that the other finds, and where they find
some, normalizing makes up the difference. -/
theorem withoutCommon_of_cancelCommon {n d n' d' : Expr} (h : cancelCommon? n d = some (n', d'))
    (hn : n.Canonical) (hzero : n ≠ zero) :
    ∃ m, withoutCommon? n d = some (m, d') ∧ m.Settles ∧ m.normalize = n' := by
  unfold cancelCommon? at h
  split at h
  · rename_i c vs fs
    obtain ⟨⟨hc, hvs, hapart, hsorted, _⟩, hfs⟩ := canonical_product.1 hn
    split at h
    · cases h
    · rename_i names hnames
      simp only at h
      split at h
      · rename_i hlt
        cases h
        have hsub := Factors.cancel_fst_sublist vs names
        have hc' : c ≠ 0 := by
          rintro rfl
          obtain ⟨rfl, rfl⟩ := hc rfl
          exact hzero rfl
        -- The rewriting writes the numerator down as a product, which may collapse when it is
        -- normalized.
        refine ⟨product c (Factors.cancel vs names).1 fs, ?_, ?_, ?_⟩
        · simp only [withoutCommon?, hnames, if_pos hlt]
        · exact settles_product fun f hf => settles_of_canonical (hfs f hf)
        · rw [normalize, if_neg hc', normalizeList_eq, map_normalize_of_canonical hfs]
          exact multiply_of_apart hc' (hvs.sublist hsub)
            (fun f hf => (hapart f hf).mono hsub.subset) hsorted
      · cases h
  · cases h

/-- The rewriting finds no common variable where normalization finds none. -/
theorem withoutCommon_eq_none {n d : Expr} (h : cancelCommon? n d = none) :
    withoutCommon? n d = none := by
  unfold withoutCommon?
  split
  · rename_i c vs fs
    simp only [cancelCommon?] at h
    split
    · rfl
    · rename_i names hnames
      simp only [hnames] at h
      simp only
      split
      · rename_i hlt
        rw [if_pos hlt] at h
        cases h
      · rfl
  · rfl

/-- The quotient that a rule makes out of two parts is normalized to the quotient of what they are
normalized to. -/
theorem reaches_quotient {f : (Expr → Option Expr) → Option Expr} {a b n d : Expr}
    (h : ∀ again, f again = again (fraction a b)) (ha : a.Settles) (hn : a.normalize = n)
    (hb : b.Settles) (hd : b.normalize = d) (hquotient : SettlesQuotient n d (divide n d)) :
    Reaches f (divide n d) := by
  subst hn hd
  refine Reaches.of_again h (settles_fraction_of_quotient ha hb hquotient) ?_
  rw [normalize]

/-- A product of two canonical expressions settles, and is normalized to their product. -/
theorem settles_prod {a b : Expr} (ha : a.Canonical) (hb : b.Canonical) :
    (prod [a, b]).Settles ∧ (prod [a, b]).normalize = multiply 1 [] [a, b] := by
  have hboth : ∀ e ∈ [a, b], e.Canonical := by simpa using ⟨ha, hb⟩
  constructor
  · exact settles_product fun e he => settles_of_canonical (hboth e he)
  · rw [prod, normalize, if_neg one_ne_zero, normalizeList_eq, map_normalize_of_canonical hboth]

/-- A sum divided addend by addend settles if the quotients are found. -/
theorem settles_sum_of_fractions {addends : List Expr} {d : Expr}
    (haddends : ∀ e ∈ addends, e.Canonical) (hd : d.Canonical)
    (h : ∀ e ∈ addends, SettlesQuotient e d (divide e d)) :
    (sum (addends.map fun e => fraction e d)).Settles ∧
      (sum (addends.map fun e => fraction e d)).normalize =
        (Combination.ofExprs (addends.map fun e => divide e d)).toExpr := by
  have hnormal : ∀ e ∈ addends, (fraction e d).normalize = divide e d :=
    fun e he => normalize_fraction_of_canonical (haddends e he) hd
  constructor
  · apply settles_sum
    rw [List.forall_mem_map]
    intro e he
    apply settles_fraction_of_canonical (haddends e he) hd
      (settles_of_canonical (haddends e he)) (settles_of_canonical hd)
    rw [hnormal e he]
    exact h e he
  · rw [normalize, normalizeList_eq, List.map_map]
    congr 2
    exact List.map_congr_left hnormal

/-- A quotient with a coefficient in front settles if it is found without. -/
theorem settles_scaled_fraction {n d : Expr} (hn : n.Canonical) (hd : d.Canonical)
    (h : SettlesQuotient n d (divide n d)) {k : Rat} (hk : k ≠ 0) :
    ((fraction n d).scaled k).Settles ∧
      ((fraction n d).scaled k).normalize = scale k (divide n d) := by
  have hnormal := normalize_fraction_of_canonical hn hd
  have hsettles : (fraction n d).Settles := by
    apply settles_fraction_of_canonical hn hd (settles_of_canonical hn) (settles_of_canonical hd)
    rwa [hnormal]
  constructor
  · exact settles_product (by simpa using hsettles)
  · rw [scaled, normalize, if_neg hk, normalizeList_eq, List.map_singleton, hnormal, scale]
    · intro _ _ _ heq
      cases heq

/-! ### One lemma for each rule

A rule finds the quotient of a numerator and a denominator if rewriting finds that of the parts that
the rule builds out of them. -/

section Rules

variable {n d : Expr}

/-- A constant denominator becomes a coefficient. -/
theorem settlesQuotient_constant {k : Rat} (hnonzero : ¬ n.isZero = true)
    (hconst : d.asConstant? = some k) (hk : k ≠ 0) (hn : n.Canonical) :
    SettlesQuotient n d (scale k⁻¹ n) := by
  apply Reaches.of_again (e := n.scaled k⁻¹)
  · intro again
    rw [rewriteQuotient.eq_def, if_neg hnonzero, hconst]
    exact if_neg hk
  · exact settles_scaled (settles_of_canonical hn) hn _
  · exact normalize_scaled (inv_ne_zero hk) hn

/-- A sum is divided addend by addend. -/
theorem settlesQuotient_sum {addends : List Expr} (hnonzero : ¬ (sum addends).isZero = true)
    (hconst : d.asConstant? = none) (hn : (sum addends).Canonical) (hd : d.Canonical)
    (h : ∀ e ∈ addends, SettlesQuotient e d (divide e d)) :
    SettlesQuotient (sum addends) d
      (Combination.ofExprs (addends.map fun e => divide e d)).toExpr := by
  obtain ⟨hsettles, hnormal⟩ := settles_sum_of_fractions (canonical_sum.1 hn).2 hd h
  apply Reaches.of_again (e := sum (addends.map fun e => fraction e d))
  · intro again
    rw [rewriteQuotient.eq_def, if_neg hnonzero, hconst]
  · exact hsettles
  · exact hnormal

/-- The denominator of a quotient that is divided joins the divisor. -/
theorem settlesQuotient_fraction_left {a b : Expr} (hnonzero : ¬ (fraction a b).isZero = true)
    (hconst : d.asConstant? = none) (hn : (fraction a b).Canonical) (hd : d.Canonical)
    (h : SettlesQuotient a (multiply 1 [] [b, d]) (divide a (multiply 1 [] [b, d]))) :
    SettlesQuotient (fraction a b) d (divide a (multiply 1 [] [b, d])) := by
  obtain ⟨_, ha, hb⟩ := canonical_fraction.1 hn
  obtain ⟨hprod, hmultiply⟩ := settles_prod hb hd
  apply reaches_quotient (a := a) (b := prod [b, d])
  · intro again
    rw [rewriteQuotient.eq_def, if_neg hnonzero, hconst]
  · exact settles_of_canonical ha
  · exact normalize_of_canonical ha
  · exact hprod
  · exact hmultiply
  · exact h

/-- The denominator of a quotient that divides joins what is divided. -/
theorem settlesQuotient_fraction_right {a b : Expr} (hnonzero : ¬ n.isZero = true)
    (hconst : (fraction a b).asConstant? = none) (hsum : ∀ es, n ≠ sum es)
    (hfraction : ∀ a b, n ≠ fraction a b) (hn : n.Canonical) (hd : (fraction a b).Canonical)
    (h : SettlesQuotient (multiply 1 [] [n, b]) a (divide (multiply 1 [] [n, b]) a)) :
    SettlesQuotient n (fraction a b) (divide (multiply 1 [] [n, b]) a) := by
  obtain ⟨_, ha, hb⟩ := canonical_fraction.1 hd
  obtain ⟨hprod, hmultiply⟩ := settles_prod hn hb
  apply reaches_quotient (a := prod [n, b]) (b := a)
  · intro again
    rw [rewriteQuotient.eq_def, if_neg hnonzero, hconst]
    -- The rules for a sum and for a quotient that is divided come first.
    cases n with
    | sum es => exact absurd rfl (hsum es)
    | product c vs fs => rfl
    | fraction a' b' => exact absurd rfl (hfraction a' b')
  · exact hprod
  · exact hmultiply
  · exact settles_of_canonical ha
  · exact normalize_of_canonical ha
  · exact h

/-- Common variables are cancelled. -/
theorem settlesQuotient_common {m e : Expr} (hnonzero : n ≠ zero) (hconst : d.asConstant? = none)
    (hsum : ∀ es, n ≠ sum es) (hfraction : ∀ a b, n ≠ fraction a b)
    (hfraction' : ∀ a b, d ≠ fraction a b) (hn : n.Canonical) (hd : d.Canonical)
    (hcommon : cancelCommon? n d = some (m, e)) (h : SettlesQuotient m e (divide m e)) :
    SettlesQuotient n d (divide m e) := by
  have he := (canonical_cancelCommon hcommon hn hd hnonzero).2
  obtain ⟨m', hm', hsettles, hnormal⟩ := withoutCommon_of_cancelCommon hcommon hn hnonzero
  apply reaches_quotient (a := m') (b := e)
  · intro again
    rw [rewriteQuotient.eq_def, if_neg (by rwa [eq_zero_iff_isZero]), hconst]
    simp only [hm']
  · exact hsettles
  · exact hnormal
  · exact settles_of_canonical he
  · exact normalize_of_canonical he
  · exact h

/-- Coefficients are taken out in front. -/
theorem settlesQuotient_split (hnonzero : n ≠ zero) (hconst : d.asConstant? = none)
    (hsum : ∀ es, n ≠ sum es) (hfraction : ∀ a b, n ≠ fraction a b)
    (hfraction' : ∀ a b, d ≠ fraction a b) (hn : n.Canonical) (hd : d.Canonical)
    (hcommon : cancelCommon? n d = none) (hone : ¬ (n.split.1 = 1 ∧ d.split.1 = 1))
    (hzero : d.split.1 ≠ 0) (h : SettlesQuotient n.split.2 d.split.2 (divide n.split.2 d.split.2)) :
    SettlesQuotient n d (scale (n.split.1 / d.split.1) (divide n.split.2 d.split.2)) := by
  have hscale : n.split.1 / d.split.1 ≠ 0 := div_ne_zero (split_fst_ne_zero hn hnonzero) hzero
  obtain ⟨hsettles, hnormal⟩ := settles_scaled_fraction hn.split_snd hd.split_snd h hscale
  apply Reaches.of_again (e := (fraction n.split.2 d.split.2).scaled (n.split.1 / d.split.1))
  · intro again
    rw [rewriteQuotient.eq_def, if_neg (by rwa [eq_zero_iff_isZero]), hconst]
    simp only [withoutCommon_eq_none hcommon, if_neg hone, if_neg hzero]
  · exact hsettles
  · exact hnormal

end Rules

/-- The quotient of two canonical expressions is found by rewriting. -/
theorem settlesQuotient {n d : Expr} (hn : n.Canonical) (hd : d.Canonical) :
    SettlesQuotient n d (divide n d) := by
  have hresult := canonical_divide hn hd
  -- One lemma for each rule: the rewriting takes the same branch as division, and where it calls
  -- itself again, the induction goes on.
  fun_induction divide n d with
  | case1 n d hzero =>
    exact Reaches.of_some fun again => by rw [rewriteQuotient.eq_def, if_pos hzero]
  | case2 n d _ _ => exact settlesQuotient_of_canonical hresult
  | case3 n d hnonzero k hconst hk => exact settlesQuotient_constant hnonzero hconst hk hn
  | case4 addends d hnonzero hconst ih =>
    have haddends := (canonical_sum.1 hn).2
    rw [List.attach_map_val (f := fun e => divide e d)]
    apply settlesQuotient_sum hnonzero hconst hn hd
    exact fun e he => ih ⟨e, he⟩ (haddends e he) hd (canonical_divide (haddends e he) hd)
  | case5 a b d hnonzero hconst ih =>
    obtain ⟨_, ha, hb⟩ := canonical_fraction.1 hn
    apply settlesQuotient_fraction_left hnonzero hconst hn hd
    exact ih ha (canonical_multiply 1 [] (by simpa using ⟨hb, hd⟩)) hresult
  | case6 n a b hsum hfraction hnonzero hconst ih =>
    obtain ⟨_, ha, hb⟩ := canonical_fraction.1 hd
    apply settlesQuotient_fraction_right hnonzero hconst hsum hfraction hn hd
    exact ih (canonical_multiply 1 [] (by simpa using ⟨hn, hb⟩)) ha hresult
  | case7 n d hsum hfraction hfraction' p hp hnonzero hconst ih =>
    rw [eq_zero_iff_isZero] at hnonzero
    obtain ⟨hn', hd'⟩ := canonical_cancelCommon hp hn hd hnonzero
    exact settlesQuotient_common hnonzero hconst hsum hfraction hfraction' hn hd hp
      (ih hn' hd' hresult)
  | case8 n d _ _ _ _ _ _ _ => exact settlesQuotient_of_canonical hresult
  | case9 n d _ _ _ _ _ hzero _ hconst =>
    -- The coefficient of a denominator that is no constant is not zero.
    exact absurd hzero (split_fst_ne_zero_of_asConstant? hd hconst)
  | case10 n d hsum hfraction hfraction' hcommon hone hzero hnonzero hconst ih =>
    rw [eq_zero_iff_isZero] at hnonzero
    apply settlesQuotient_split hnonzero hconst hsum hfraction hfraction' hn hd hcommon hone hzero
    exact ih hn.split_snd hd.split_snd (canonical_divide hn.split_snd hd.split_snd)

/-! ## Everything settles -/

/-- Every expression settles: its rewriting ends, and at its normal form. -/
theorem settles (e : Expr) : e.Settles := by
  induction e using tree_induction with
  | sum es ih => exact settles_sum ih
  | product c vs fs ih => exact settles_product ih
  | fraction n d ihn ihd =>
    apply settles_fraction_of_quotient ihn ihd
    exact settlesQuotient (canonical_normalize n) (canonical_normalize d)

/-- Rewriting comes to an end on every expression: once calls may be nested to a certain depth, it
has a result, and the result is the normal form. -/
theorem exists_depth_rewriteWithin (e : Expr) :
    ∃ depth, ∀ k, rewriteWithin (depth + k) e = some e.normalize :=
  settles e

end Expr

end RationalAlgebra
