import Mathlib
import RationalAlgebra.Proofs.Expr.Reading
import RationalAlgebra.Proofs.Normal.Term

/-!
# The text of a normal form

What is read from the text of a normal form is another tree: its products are built up two factors
at a time, its constants are quotients and its signs negations. But nothing cancels, merges or
changes places in any of the products on the way, because each of them is the beginning of a product
in which nothing does. So the tree that is read has the normal form it was printed from, and normal
forms with the same text are the same.

Main statements: `normalize_reading` and `text_determines_normalize`.
-/

namespace RationalAlgebra

open RationalAlgebra.Expr

namespace Expr

/-! ## Readings of terms -/

/-- The normal form of a product of two is that of their normal forms. -/
theorem normalize_times (a b : Expr) :
    (times a b).normalize = multiply 1 [] [a.normalize, b.normalize] := by
  simp [times, prod, normalize, normalizeList]

/-- The normal form of a product of two factors, where all their parts are in order. -/
theorem normalize_times_of_inOrder {a b : Expr} {c d : Rat} {vs ws : List String}
    {fs gs : List Expr} (ha : a.normalize = ofTerm c (monomial vs fs))
    (hb : b.normalize = ofTerm d (monomial ws gs)) (hne : c * d ≠ 0)
    (h : InOrder (vs ++ ws) (fs ++ gs)) :
    (times a b).normalize = ofTerm (c * d) (monomial (vs ++ ws) (fs ++ gs)) := by
  obtain ⟨hfs, hgs⟩ := List.forall_mem_append.1 h.isFraction
  rw [normalize_times, ha, hb, multiply_ofTerm c d vs ws hfs hgs, h.multiply_eq hne]

/-- The negative of a term is the term with the negative coefficient. -/
theorem normalize_neg_of_inOrder {e : Expr} {c : Rat} {vs : List String} {fs : List Expr}
    (he : e.normalize = ofTerm c (monomial vs fs)) (hc : c ≠ 0) (h : InOrder vs fs) :
    (neg e).normalize = ofTerm (-c) (monomial vs fs) := by
  rw [normalize_neg, he, scale_ofTerm _ _ _ h.isFraction, neg_one_mul,
    h.multiply_eq (neg_ne_zero.2 hc)]

/-- The reading of an integer normalizes to the integer. -/
theorem normalize_integerReading (n : Int) : (integerReading n).normalize = const n := by
  cases n with
  | ofNat n => exact normalize_const n
  | negSucc n =>
    rw [integerReading, normalize_neg, normalize_const, scale_const, neg_one_mul,
      Int.cast_negSucc]

/-- The reading of a rational normalizes to the rational: its numerator is divided by its
denominator. -/
theorem normalize_numberReading (q : Rat) : (numberReading q).normalize = const q := by
  unfold numberReading
  split
  · rename_i hinteger
    rw [normalize_integerReading, Rat.coe_int_num_of_den_eq_one (beq_iff_eq.1 hinteger)]
  · have hden : (q.den : Rat) ≠ 0 := Nat.cast_ne_zero.2 q.den_nz
    rw [normalize, normalize_integerReading, normalize_const, divide_constant hden, scale_const,
      inv_mul_eq_div, Rat.num_div_den]

/-- A constant in front becomes the coefficient, however it is written. -/
theorem normalize_withConstant {e : Expr} {c : Rat} {vs : List String} {fs : List Expr}
    (he : e.normalize = ofTerm 1 (monomial vs fs)) (hc : c ≠ 0) (h : InOrder vs fs) :
    (withConstant c e).normalize = ofTerm c (monomial vs fs) := by
  unfold withConstant
  split
  · -- The constant one is not written, and minus one only as a sign.
    rename_i hone
    rw [hone, he]
  · split
    · rename_i hminus
      rw [hminus]
      exact normalize_neg_of_inOrder he one_ne_zero h
    · have hnumber : (numberReading c).normalize = ofTerm c (monomial [] []) :=
        normalize_numberReading c
      have htimes := normalize_times_of_inOrder hnumber he (by simpa using hc) (by simpa using h)
      rwa [mul_one, List.nil_append, List.nil_append] at htimes

/-- Variables that come in order join a term one by one. -/
theorem normalize_foldl_names {e : Expr} {c : Rat} {vs ws : List String} {fs : List Expr}
    (he : e.normalize = ofTerm c (monomial vs fs)) (hc : c ≠ 0) (h : InOrder (vs ++ ws) fs) :
    ((ws.map var).foldl times e).normalize = ofTerm c (monomial (vs ++ ws) fs) := by
  induction ws generalizing e vs with
  | nil => simpa using he
  | cons x ws ih =>
    rw [List.append_cons] at h ⊢
    -- The part in front is in order as well, being a part of the whole.
    have hfirst : InOrder (vs ++ [x]) (fs ++ []) := by
      rw [List.append_nil]
      exact h.sublist (List.sublist_append_left _ _) (List.Sublist.refl _)
    have hvar : (var x).normalize = ofTerm 1 (monomial [x] []) := normalize_var x
    have htimes := normalize_times_of_inOrder he hvar (by simpa using hc) hfirst
    rw [mul_one, List.append_nil] at htimes
    exact ih htimes h

/-- Quotients that come in order join a term one by one. -/
theorem normalize_foldl_quotients {e : Expr} {c : Rat} {vs : List String} {fs gs : List Expr}
    (he : e.normalize = ofTerm c (monomial vs fs)) (hc : c ≠ 0) (h : InOrder vs (fs ++ gs))
    (hgs : ∀ g ∈ gs, g.reading.normalize = g) :
    ((gs.map reading).foldl times e).normalize = ofTerm c (monomial vs (fs ++ gs)) := by
  induction gs generalizing e fs with
  | nil => simpa using he
  | cons g gs ih =>
    obtain ⟨hg, hrest⟩ := List.forall_mem_cons.1 hgs
    rw [List.append_cons] at h ⊢
    have hfirst : InOrder (vs ++ []) (fs ++ [g]) := by
      rw [List.append_nil]
      exact h.sublist (List.Sublist.refl _) (List.sublist_append_left _ _)
    -- A quotient is the term with coefficient one and itself as monomial.
    have hquotient : g.reading.normalize = ofTerm 1 (monomial [] [g]) := by
      rw [hg, ofTerm_singleton (h.isFraction g (by simp))]
    have htimes := normalize_times_of_inOrder he hquotient (by simpa using hc) hfirst
    rw [mul_one, List.append_nil] at htimes
    exact ih htimes h hrest

/-- The reading of a product in order is a tree of that product. -/
theorem normalize_productReading {c : Rat} (hc : c ≠ 0) {vs : List String} {fs : List Expr}
    (h : InOrder vs fs) (hfs : ∀ f ∈ fs, f.reading.normalize = f) :
    (productReading c (vs.map var ++ fs.map reading)).normalize = ofTerm c (monomial vs fs) := by
  -- The constant joins the first part, which is a variable if there is one, else a quotient.
  cases vs with
  | cons x xs =>
    have hfirst : InOrder [x] [] := h.sublist (by simp) (by simp)
    have hnames : InOrder ([x] ++ xs) [] := h.sublist (List.Sublist.refl _) (by simp)
    have hvar : (var x).normalize = ofTerm 1 (monomial [x] []) := normalize_var x
    have hterm := normalize_foldl_names (normalize_withConstant hvar hc hfirst) hc hnames
    rw [List.map_cons, List.cons_append, productReading, List.foldl_append]
    exact normalize_foldl_quotients hterm hc h hfs
  | nil =>
    cases fs with
    | nil => exact normalize_numberReading c
    | cons g gs =>
      obtain ⟨hg, hrest⟩ := List.forall_mem_cons.1 hfs
      have hfirst : InOrder [] [g] := h.sublist (by simp) (by simp)
      have hquotient : g.reading.normalize = ofTerm 1 (monomial [] [g]) := by
        rw [hg, ofTerm_singleton (h.isFraction g (by simp))]
      have hterm := normalize_withConstant hquotient hc hfirst
      exact normalize_foldl_quotients hterm hc h hrest

/-! ## Readings of normal forms -/

/-- Wherever it stands in a sum, an expression is read as one term, of which it is the normal form.
-/
def ReadsAsTerm (e : Expr) : Prop :=
  ∀ isFirst, ∃ t, signedTerms isFirst e = [t] ∧ t.normalize = e

/-- What reads as a single term with this normal form reads to it as a whole. -/
theorem ReadsAsTerm.normalize_reading {e : Expr} (h : e.ReadsAsTerm) : e.reading.normalize = e := by
  obtain ⟨t, ht, hnormal⟩ := h true
  rw [reading, ht]
  exact hnormal

/-- A product in normal form reads as a term, whose parts join in the order in which they stand. -/
theorem readsAsTerm_product {c : Rat} {vs : List String} {fs : List Expr}
    (h : (product c vs fs).Canonical) (hfs : ∀ f ∈ fs, f.reading.normalize = f) :
    (product c vs fs).ReadsAsTerm := by
  obtain ⟨hzero, hvs, hapart, hsorted, _⟩ := h.shape
  have hterm : ofTerm c (monomial vs fs) = product c vs fs := (h.split id).2
  have horder : InOrder vs fs := ⟨hvs, hapart, hsorted⟩
  intro isFirst
  rw [signedTerms, readings_eq]
  split
  · -- Behind other terms the sign is read as a negative of the positive product.
    rename_i hneg
    have hc : c ≠ 0 := ne_of_lt hneg.2
    refine ⟨_, rfl, ?_⟩
    have hproduct := normalize_productReading (neg_ne_zero.2 hc) horder hfs
    rw [normalize_neg_of_inOrder hproduct (neg_ne_zero.2 hc) horder, neg_neg, hterm]
  · refine ⟨_, rfl, ?_⟩
    by_cases hc : c = 0
    · -- A canonical product with the constant zero has no other parts.
      obtain ⟨rfl, rfl⟩ := hzero hc
      exact normalize_numberReading c
    · rw [normalize_productReading hc horder hfs, hterm]

/-- A quotient in normal form reads as a term. -/
theorem readsAsTerm_fraction {n d : Expr} (h : (fraction n d).Canonical)
    (hn : n.reading.normalize = n) (hd : d.reading.normalize = d) :
    (fraction n d).ReadsAsTerm := by
  obtain ⟨_, hcn, hcd⟩ := canonical_fraction.1 h
  intro isFirst
  refine ⟨.fraction n.reading d.reading, rfl, ?_⟩
  rw [normalize, hn, hd, ← normalize_fraction_of_canonical hcn hcd, normalize_of_canonical h]

/-- The terms that the addends read as normalize to the addends. -/
theorem map_normalize_addendTerms {es : List Expr} (h : ∀ e ∈ es, e.ReadsAsTerm)
    (isFirst : Bool) : (addendTerms isFirst es).map normalize = es := by
  induction es generalizing isFirst with
  | nil => rfl
  | cons e es ih =>
    obtain ⟨he, hrest⟩ := List.forall_mem_cons.1 h
    obtain ⟨t, ht, hnormal⟩ := he isFirst
    rw [addendTerms, ht, List.singleton_append, List.map_cons, hnormal, ih hrest]

/-- A sum in normal form reads to a sum with this normal form. -/
theorem normalize_reading_sum {es : List Expr} (h : (sum es).Canonical)
    (hes : ∀ e ∈ es, e.ReadsAsTerm) : (sum es).reading.normalize = sum es := by
  have hmap := map_normalize_addendTerms hes true
  have hlength : 2 ≤ (addendTerms true es).length := by
    have heq := congrArg List.length hmap
    rw [List.length_map] at heq
    rw [heq]
    exact h.shape.1
  -- There are two terms at least, so they stay a sum.
  have hjoined : joined (addendTerms true es) = sum (addendTerms true es) := by
    unfold joined
    split
    · rename_i t ht
      rw [ht] at hlength
      simp at hlength
    · rfl
  rw [reading_sum, hjoined, normalize, normalizeList_eq, hmap,
    Combination.toExpr_ofExprs_of_canonical h]

/-- Every normal form reads to itself; what is no sum reads as one term. Both are proved together,
since a sum needs the second of its addends. -/
theorem readsAsTerm_or_isSum {e : Expr} (h : e.Canonical) :
    e.reading.normalize = e ∧ (¬ e.IsSum → e.ReadsAsTerm) := by
  induction e using tree_induction with
  | sum es ih =>
    refine ⟨normalize_reading_sum h fun e he => ?_, fun hsum => absurd trivial hsum⟩
    obtain ⟨hcanonical, hterm, _⟩ := h.addends e he
    exact (ih e he hcanonical).2 hterm
  | product c vs fs ih =>
    have hfs := (canonical_product.1 h).2
    have hterm := readsAsTerm_product h fun f hf => (ih f hf (hfs f hf)).1
    exact ⟨hterm.normalize_reading, fun _ => hterm⟩
  | fraction n d ihn ihd =>
    obtain ⟨_, hn, hd⟩ := canonical_fraction.1 h
    have hterm := readsAsTerm_fraction h (ihn hn).1 (ihd hd).1
    exact ⟨hterm.normalize_reading, fun _ => hterm⟩

/-- A canonical expression is the normal form of its reading. -/
theorem normalize_reading {e : Expr} (h : e.Canonical) : e.reading.normalize = e :=
  (readsAsTerm_or_isSum h).1

/-- A normal form can be printed if its variables are names: its sums have addends. -/
theorem Canonical.printable {e : Expr} (h : e.Canonical)
    (hnames : ∀ x ∈ e.occurrences, isName x = true) : e.Printable := by
  refine ⟨hnames, fun p hp => ?_⟩
  rintro rfl
  have hlength := (h _ hp).1
  simp at hlength

/-- What is read from the text of a canonical expression is normalized to it. -/
theorem exists_parse_text_of_canonical {e : Expr} (h : e.Canonical)
    (hnames : ∀ x ∈ e.occurrences, isName x = true) :
    ∃ t, parse e.text = .ok t ∧ t.normalize = e :=
  ⟨e.reading, parse_text_eq_reading (h.printable hnames), normalize_reading h⟩

/-- Canonical expressions with the same text are the same. -/
theorem Canonical.text_inj {a b : Expr} (ha : a.Canonical) (hb : b.Canonical)
    (hnames : ∀ x ∈ a.occurrences, isName x = true)
    (hnames' : ∀ x ∈ b.occurrences, isName x = true) (h : a.text = b.text) : a = b := by
  obtain ⟨s, hs, rfl⟩ := exists_parse_text_of_canonical ha hnames
  obtain ⟨t, ht, rfl⟩ := exists_parse_text_of_canonical hb hnames'
  rw [h, ht] at hs
  rw [Except.ok.inj hs]

/-- The text of a normal form can be read and normalized back to it. So two normal forms with the
same text, the key by which they are ordered, are the same tree. -/
theorem text_determines_normalize :
    (∀ e : Expr, (∀ x ∈ e.occurrences, isName x = true) →
      ∃ t, parse e.normalize.text = .ok t ∧ t.normalize = e.normalize) ∧
    ∀ a b : Expr, (∀ x ∈ a.normalize.occurrences, isName x = true) →
      (∀ x ∈ b.normalize.occurrences, isName x = true) →
      (Keyed.of a.normalize).key = (Keyed.of b.normalize).key → a.normalize = b.normalize := by
  constructor
  · intro e hnames
    refine exists_parse_text_of_canonical (canonical_normalize e) fun x hx => ?_
    exact hnames x (mem_occurrences_of_normalize hx)
  · intro a b ha hb hkey
    exact (canonical_normalize a).text_inj (canonical_normalize b) ha hb hkey

/-- A quotient of a sum less a variable, and the same divided out by hand in another order: they
have one normal form, and it can be read back from its text. -/
theorem text_determines_normalize_of_quotients :
    let a := sub (fraction (sum [var "x", const 1]) (product 2 ["x", "y"] [])) (var "y")
    let b := sum [fraction (const (1 / 2)) (var "y"), neg (var "y"),
      fraction (const 1) (product 2 ["y", "x"] [])]
    a.normalize = sum [product (1 / 2) [] [fraction one (product 1 ["x", "y"] [])],
        product (1 / 2) [] [fraction one (var "y")], product (-1) ["y"] []] ∧
      a.normalize.text = "1/2*(1 / (x*y)) + 1/2*(1 / y) - y" ∧
      (∃ t, parse a.normalize.text = .ok t ∧ t.normalize = a.normalize) ∧
      a.normalize = b.normalize := by
  intro a b
  have ha : ∀ x ∈ a.occurrences, isName x = true := by
    simp [a, sub, neg, var, const, isName]
  have hb : ∀ x ∈ b.occurrences, isName x = true := by
    simp [b, neg, var, const, isName]
  refine ⟨by cbv, by cbv, text_determines_normalize.1 a ha, text_determines_normalize.2 a b ?_ ?_ ?_⟩
  · exact fun x hx => ha x (mem_occurrences_of_normalize hx)
  · exact fun x hx => hb x (mem_occurrences_of_normalize hx)
  · cbv

end Expr

end RationalAlgebra
