import Mathlib
import RationalAlgebra.Proofs.Equation.Coefficients

/-!
# The equations in which a variable can be isolated

To divide a variable out of a term that holds it once is to take it from the monomial of the term.
Monomials that were different stay different, so the quotient of a normal form has as many terms as
the normal form, and it is a constant only where the normal form is a multiple of the variable
(`coefficientOf?_eq_some_iff`). Whether a variable is isolated is therefore seen at once from the
terms that hold it, and the search for it is short: the terms that a round keeps all hold the
variable, so in the next round none can move.

Main statement: `isolate_iff`.
-/

namespace RationalAlgebra.Expr

open RationalAlgebra.Combination

variable {name : String}

/-! ## Monomials without the variable -/

/-- The variables and the quotients of a monomial can be read off from it. -/
theorem monomial_injective {vs ws : List String} {fs gs : List Expr}
    (hfs : ∀ f ∈ fs, f.IsFraction) (hgs : ∀ g ∈ gs, g.IsFraction)
    (h : monomial vs fs = monomial ws gs) : vs = ws ∧ fs = gs := by
  have htimes := times_ofTerm ⟨1, [], []⟩ 1 vs hfs
  rw [h, times_ofTerm ⟨1, [], []⟩ 1 ws hgs] at htimes
  simpa [eq_comm] using htimes

/-- Where a variable occurs once, the others determine all of them. -/
theorem eq_of_filter_ne {vs ws : List String} (hvs : vs.Pairwise (· ≤ ·))
    (hws : ws.Pairwise (· ≤ ·)) (hcount : vs.count name = 1) (hcount' : ws.count name = 1)
    (h : vs.filter (· ≠ name) = ws.filter (· ≠ name)) : vs = ws := by
  have hperm := perm_of_count_eq_one hcount
  rw [h] at hperm
  have hperm' := hperm.trans (perm_of_count_eq_one hcount').symm
  exact hperm'.eq_of_pairwise (fun _ _ _ _ => String.le_antisymm) hvs hws

/-- A term with the variable taken from its monomial. -/
def withoutVariable (name : String) : Expr → Term
  | product c vs fs => ⟨.of (monomial (vs.filter (· ≠ name)) fs), c⟩
  | e => termOf e

/-- A canonical term from which a variable can be divided out. -/
theorem exists_product_of_divideByVariable? {t q : Expr} (ht : t.Canonical) (hsum : ¬ t.IsSum)
    (h : t.divideByVariable? name = some q) :
    ∃ c vs fs, t = product c vs fs ∧ c ≠ 0 ∧ vs.count name = 1 ∧ InOrder vs fs ∧
      q = product c (vs.filter (· ≠ name)) fs := by
  cases t with
  | sum es => exact absurd trivial hsum
  | fraction n d => cases h
  | product c vs fs =>
    rw [divideByVariable?] at h
    split at h
    · rename_i hcount
      obtain ⟨hzero, hvs, hapart, hsorted, _⟩ := ht.shape
      refine ⟨c, vs, fs, rfl, ?_, hcount.1, ⟨hvs, hapart, hsorted⟩, (Option.some.inj h).symm⟩
      -- The zero product holds no variable.
      intro hc
      rw [(hzero hc).1] at hcount
      simp at hcount
    · cases h

/-- What is left of a term is the term with the variable taken from its monomial. -/
theorem coefficients_of_divideByVariable? {t q : Expr} (ht : t.Canonical) (hsum : ¬ t.IsSum)
    (h : t.divideByVariable? name = some q) :
    q.normalize.coefficients =
      Pi.single (withoutVariable name t).monomial (withoutVariable name t).coefficient := by
  obtain ⟨c, vs, fs, rfl, hc, _, horder, rfl⟩ := exists_product_of_divideByVariable? ht hsum h
  have hfs := (canonical_product.1 ht).2
  have hnormal : fs.map normalize = fs :=
    (List.map_congr_left fun f hf => normalize_of_canonical (hfs f hf)).trans (List.map_id fs)
  have horder' := horder.sublist (List.filter_sublist (p := (· ≠ name))) (List.Sublist.refl fs)
  have hmonomial : (monomial (vs.filter (· ≠ name)) fs).IsMonomial :=
    isMonomial_monomial horder'.names (fun f hf => ⟨hfs f hf, horder'.apart f hf⟩) horder'.quotients
  rw [normalize, normalizeList_eq, hnormal, if_neg hc, horder'.multiply_eq hc,
    coefficients_ofTerm hmonomial hc]
  rfl

/-- Terms with different monomials have different monomials without the variable. -/
theorem monomial_withoutVariable_ne {t u q r : Expr} (ht : t.Canonical) (htsum : ¬ t.IsSum)
    (hu : u.Canonical) (husum : ¬ u.IsSum) (hq : t.divideByVariable? name = some q)
    (hr : u.divideByVariable? name = some r) (hne : t.split.2 ≠ u.split.2) :
    (withoutVariable name t).monomial ≠ (withoutVariable name u).monomial := by
  obtain ⟨c, vs, fs, rfl, _, hcount, horder, _⟩ := exists_product_of_divideByVariable? ht htsum hq
  obtain ⟨d, ws, gs, rfl, _, hcount', horder', _⟩ := exists_product_of_divideByVariable? hu husum hr
  intro hsame
  obtain ⟨hnames, rfl⟩ :=
    monomial_injective horder.isFraction horder'.isFraction (congrArg Keyed.expr hsame)
  have hvs := eq_of_filter_ne horder.names horder'.names hcount hcount' hnames
  rw [hvs] at hne
  exact hne rfl

/-- A term of which only the constant is left is a multiple of the variable. -/
theorem eq_product_of_withoutVariable {t q : Expr} (ht : t.Canonical) (hsum : ¬ t.IsSum)
    (hq : t.divideByVariable? name = some q)
    (hone : (withoutVariable name t).monomial = .of one) :
    t = product (withoutVariable name t).coefficient [name] [] := by
  obtain ⟨c, vs, fs, rfl, _, hcount, horder, _⟩ := exists_product_of_divideByVariable? ht hsum hq
  have hparts : monomial (vs.filter (· ≠ name)) fs = monomial [] [] := congrArg Keyed.expr hone
  obtain ⟨hnames, rfl⟩ := monomial_injective horder.isFraction (by simp) hparts
  have hperm := perm_of_count_eq_one hcount
  rw [hnames, List.perm_singleton] at hperm
  rw [hperm]
  rfl

/-! ## The quotient by the variable -/

/-- Several terms divided by a variable have the coefficients of the terms, at the monomials without
the variable. -/
theorem coefficients_of_divideAllByVariable? {es qs : List Expr}
    (hes : ∀ t ∈ es, t.Canonical ∧ ¬ t.IsSum) (h : divideAllByVariable? name es = some qs) :
    (∀ t ∈ es, ∃ q, t.divideByVariable? name = some q) ∧
      (qs.map fun q => q.normalize.coefficients).sum =
        termsCoefficients (es.map (withoutVariable name)) := by
  induction es generalizing qs with
  | nil =>
    cases h
    simp [termsCoefficients]
  | cons t es ih =>
    obtain ⟨⟨ht, hsum⟩, hrest⟩ := List.forall_mem_cons.1 hes
    rw [divideAllByVariable?] at h
    split at h
    · rename_i q qs' hq hqs'
      cases h
      obtain ⟨hall, htail⟩ := ih hrest hqs'
      refine ⟨List.forall_mem_cons.2 ⟨⟨q, hq⟩, hall⟩, ?_⟩
      rw [List.map_cons, List.sum_cons, List.map_cons, termsCoefficients_cons, htail,
        coefficients_of_divideByVariable? ht hsum hq]
    · cases h

/-- Dividing the variable out takes it from every addend of a canonical expression. -/
theorem coefficients_quotient {e q : Expr} (he : e.Canonical)
    (h : e.divideByVariable? name = some q) :
    (∀ t ∈ e.addends, ∃ r, t.divideByVariable? name = some r) ∧
      q.normalize.coefficients = termsCoefficients (e.addends.map (withoutVariable name)) := by
  -- What is no sum is divided as a single term.
  have hsingle : ¬ e.IsSum → (∀ t ∈ [e], ∃ r, t.divideByVariable? name = some r) ∧
      q.normalize.coefficients = termsCoefficients ([e].map (withoutVariable name)) := by
    intro hsum
    refine ⟨List.forall_mem_singleton.2 ⟨q, h⟩, ?_⟩
    rw [coefficients_of_divideByVariable? he hsum h]
    simp [termsCoefficients]
  cases e with
  | sum es =>
    rw [divideByVariable?, Option.map_eq_some_iff] at h
    obtain ⟨qs, hqs, rfl⟩ := h
    rw [coefficients_normalize_sum]
    exact coefficients_of_divideAllByVariable? he.forall_addends hqs
  | product c vs fs => exact hsingle id
  | fraction n d => exact hsingle id

theorem Before.split_ne {t u : Expr} (h : Before t u) : t.split.2 ≠ u.split.2 := by
  intro heq
  rw [Before, heq, Keyed.cmp_eq_iff.2 rfl] at h
  cases h

/-- Taking a variable out of a term keeps its coefficient. -/
theorem coefficient_withoutVariable (name : String) (t : Expr) :
    (withoutVariable name t).coefficient = t.split.1 := by
  cases t with
  | sum es => rfl
  | product c vs fs => rfl
  | fraction n d => rfl

/-- If only a constant is left, every addend is that multiple of the variable. -/
theorem forall_addends_eq_product {e q : Expr} {k : Rat} (he : e.Canonical)
    (hq : e.divideByVariable? name = some q) (hconst : q.normalize = const k) :
    ∀ t ∈ e.addends, t = product k [name] [] := by
  have hzero : e ≠ zero := by
    rintro rfl
    simp [zero, const, divideByVariable?] at hq
  obtain ⟨hterms, hbefore⟩ := canonical_terms he hzero
  obtain ⟨hall, hquotient⟩ := coefficients_quotient he hq
  -- The variable occurs once in each term, so different terms leave different monomials.
  have hne : (e.addends.map (withoutVariable name)).Pairwise
      fun s t => s.monomial ≠ t.monomial := by
    rw [List.pairwise_map]
    refine hbefore.imp_of_mem ?_
    intro t u ht hu hlt
    obtain ⟨r, hr⟩ := hall t ht
    obtain ⟨r', hr'⟩ := hall u hu
    exact monomial_withoutVariable_ne (hterms t ht).1 (hterms t ht).2.1 (hterms u hu).1
      (hterms u hu).2.1 hr hr' hlt.split_ne
  rw [hconst, coefficients_const] at hquotient
  intro t ht
  obtain ⟨hcanonical, hsum, hcoefficient⟩ := hterms t ht
  obtain ⟨r, hr⟩ := hall t ht
  -- The monomial of the term is left in the quotient with the coefficient of the term.
  have hleft := termsCoefficients_of_mem hne (List.mem_map_of_mem ht)
  rw [← hquotient, coefficient_withoutVariable] at hleft
  have hone : (withoutVariable name t).monomial = .of one := by
    by_contra hother
    rw [Pi.single_eq_of_ne hother] at hleft
    exact hcoefficient hleft.symm
  have ht' := eq_product_of_withoutVariable hcanonical hsum hr hone
  rw [hone] at hleft
  have hk : k = t.split.1 := (Pi.single_eq_same _ _).symm.trans hleft
  rwa [coefficient_withoutVariable, ← hk] at ht'

/-- An expression has a coefficient of the variable exactly if it is a multiple of the variable. -/
theorem coefficientOf?_eq_some_iff {e : Expr} (he : e.Canonical) {k : Rat} :
    e.coefficientOf? name = some k ↔ k ≠ 0 ∧ e = product k [name] [] := by
  constructor
  · intro h
    obtain ⟨hk, q, hq, hconst⟩ := exists_quotient_of_coefficientOf? h
    refine ⟨hk, ?_⟩
    have hall := forall_addends_eq_product he hq hconst
    cases e with
    | product c vs fs => exact hall _ (List.mem_singleton_self _)
    | fraction n d => exact hall _ (List.mem_singleton_self _)
    | sum es =>
      -- A sum has two addends with different monomials, of which only one can be this multiple.
      obtain ⟨hlength, _, hbefore⟩ := he.shape
      rcases es with _ | ⟨t, _ | ⟨u, rest⟩⟩
      · simp at hlength
      · simp at hlength
      · have hfirst := (List.pairwise_cons.1 hbefore).1 u List.mem_cons_self
        rw [hall t (by simp [addends]), hall u (by simp [addends])] at hfirst
        exact absurd rfl hfirst.split_ne
  · rintro ⟨hk, rfl⟩
    exact coefficientOf?_product hk name

/-! ## Rounds of the search -/

/-- Canonical expressions with the same addends are the same. -/
theorem Canonical.ext_addends {a b : Expr} (ha : a.Canonical) (hb : b.Canonical)
    (h : a.addends = b.addends) : a = b := by
  apply ha.ext_coefficients hb
  rw [← ha.sum_coefficients_addends, h, hb.sum_coefficients_addends]

/-- The addends of the kept side all hold the variable, so that it is its own kept side. -/
theorem keptSide_keptSide {e : Expr} (he : e.Canonical) (hname : name ∈ e.occurrences) :
    keptSide name (keptSide name e.addends).addends = keptSide name e.addends := by
  have hkept := canonical_keptSide name e.addends
  apply (canonical_keptSide _ _).ext_addends hkept
  rw [addends_keptSide hkept (name_mem_occurrences_keptSide he hname), addends_keptSide he hname,
    List.filter_filter]
  simp

/-- The variable has a coefficient if the kept side is a multiple of it, which is then the only term
that holds it. -/
theorem coefficientOf?_keptSide_iff {e : Expr} (he : e.Canonical) {k : Rat} :
    (keptSide name e.addends).coefficientOf? name = some k ↔
      k ≠ 0 ∧ (e.addends.filter fun t => t.mentions name) = [product k [name] []] := by
  rw [coefficientOf?_eq_some_iff (canonical_keptSide name e.addends)]
  refine and_congr_right ?_
  intro hk
  constructor
  · intro hkept
    have hkept' : name ∈ (keptSide name e.addends).occurrences := by
      rw [hkept]
      simp
    -- The variable is there on either side of the equivalence, so the kept side has the terms kept
    -- as addends.
    have hname := mem_occurrences_addends.1 (mem_occurrences_of_keptSide hkept')
    rw [← addends_keptSide he hname, hkept]
    rfl
  · intro hterms
    have hname : name ∈ e.occurrences := by
      have hmem := List.mem_filter.1 (hterms ▸ List.mem_singleton_self (product k [name] []))
      exact mem_occurrences_addends.1 ⟨_, hmem.1, mentions_iff.1 hmem.2⟩
    apply (canonical_keptSide _ _).ext_addends ((isMonomial_var name).ofTerm hk).1
    exact (addends_keptSide he hname).trans hterms

/-- A search that succeeds does so in its first round. -/
theorem Rounds.exists_coefficientOf? {n : Nat} {e right E : Expr} (he : e.Canonical)
    (h : Rounds name n right e.addends (.ok E)) :
    ∃ k, (keptSide name e.addends).coefficientOf? name = some k := by
  generalize hresult : (Except.ok E : Except Failure Expr) = result at h
  generalize hterms : e.addends = terms at h ⊢
  induction h generalizing e with
  | missing _ => cases hresult
  | stuck _ _ _ => cases hresult
  | isolated _ hk => exact ⟨_, hk⟩
  | again hsome hk hnext _ _ ih =>
    -- The next round has the same kept side, which would have a coefficient after all.
    subst hterms
    have hname := mem_occurrences_addends.1 hsome
    have hsame := keptSide_keptSide he hname
    obtain ⟨k, hk'⟩ := ih (canonical_keptSide name e.addends) hresult (congrArg addends hnext)
    rw [hnext, addends, ← hnext] at hsame
    rw [hsame, hk] at hk'
    cases hk'

/-- A search among terms that all hold the variable takes one round. -/
theorem Rounds.eq_one {n : Nat} {right : Expr} {terms : List Expr} {result : Except Failure Expr}
    (hall : ∀ t ∈ terms, name ∈ t.occurrences) (h : Rounds name n right terms result) : n = 1 := by
  cases h with
  | missing _ => rfl
  | isolated _ _ => rfl
  | stuck _ _ _ => rfl
  | again _ _ _ hmoved _ =>
    obtain ⟨t, ht, hnot⟩ := hmoved
    exact absurd (hall t ht) hnot

/-- A search through the addends of a normal form takes at most two rounds. -/
theorem Rounds.le_two {n : Nat} {e right : Expr} {result : Except Failure Expr} (he : e.Canonical)
    (h : Rounds name n right e.addends result) : n ≤ 2 := by
  cases h with
  | missing _ => omega
  | isolated _ _ => omega
  | stuck _ _ _ => omega
  | again hsome _ hnext _ hrest =>
    -- The terms of the second round are those that the first has kept.
    have hkept := addends_keptSide he (mem_occurrences_addends.1 hsome)
    rw [hnext, addends] at hkept
    have hone := hrest.eq_one ?_
    · omega
    · intro t ht
      rw [hkept] at ht
      exact mentions_iff.1 (List.mem_filter.1 ht).2

/-! ## Which equations can be isolated -/

/-- The variable is not found exactly if the normal form does not hold it. -/
theorem isolate_eq_variableNotFound_iff_not_mem {e : Expr} :
    e.isolate name = .error (.variableNotFound name) ↔ name ∉ e.normalize.occurrences := by
  constructor
  · exact not_mem_occurrences_of_isolate_eq_error
  · intro hname
    have hnone : ∀ t ∈ e.normalize.addends, name ∉ t.occurrences :=
      fun t ht hx => hname (mem_occurrences_addends.1 ⟨t, ht, hx⟩)
    exact (Rounds.missing hnone).isolateIn_eq (canonical_normalize e)

/-- In other words, no addend of the normal form mentions it. -/
theorem isolate_eq_variableNotFound_iff {e : Expr} :
    e.isolate name = .error (.variableNotFound name) ↔
      ∀ t ∈ e.normalize.addends, t.mentions name = false := by
  have hmentions : ∀ t : Expr, t.mentions name = false ↔ name ∉ t.occurrences := by
    intro t
    rw [← mentions_iff, Bool.not_eq_true]
  rw [isolate_eq_variableNotFound_iff_not_mem, ← mem_occurrences_addends]
  simp only [hmentions, not_exists, not_and]

/-- The variable is isolated exactly if the addends that mention it are a single multiple of it. -/
theorem exists_isolate_eq_ok_iff {e : Expr} :
    (∃ E, e.isolate name = .ok E) ↔ ∃ c, c ≠ 0 ∧
      (e.normalize.addends.filter fun t => t.mentions name) = [product c [name] []] := by
  have hnormal := canonical_normalize e
  constructor
  · rintro ⟨E, hE⟩
    obtain ⟨n, hrounds⟩ := exists_rounds_of_isolate hE
    obtain ⟨k, hk⟩ := hrounds.exists_coefficientOf? hnormal
    exact ⟨k, (coefficientOf?_keptSide_iff hnormal).1 hk⟩
  · rintro ⟨c, hc, hterms⟩
    have hmem := List.mem_filter.1 (hterms ▸ List.mem_singleton_self (product c [name] []))
    exact ⟨_, isolateIn_of_coefficientOf? hnormal ⟨_, hmem.1, mentions_iff.1 hmem.2⟩
      ((coefficientOf?_keptSide_iff hnormal).2 ⟨hc, hterms⟩)⟩

/-- An equation in which a variable is isolated is a multiple of the difference between the variable
and what it is isolated to. -/
theorem coefficients_of_isolate {e E : Expr} (h : e.isolate name = .ok E) :
    ∃ c : Rat, c ≠ 0 ∧
      e.normalize.coefficients = c • ((var name).coefficients - E.coefficients) := by
  have hnormal := canonical_normalize e
  obtain ⟨c, hc, hterms⟩ := exists_isolate_eq_ok_iff.1 ⟨E, h⟩
  have hname := List.mem_filter.1 (hterms ▸ List.mem_singleton_self (product c [name] []))
  have hcoefficient := (coefficientOf?_keptSide_iff hnormal).2 ⟨hc, hterms⟩
  have hkept := ((coefficientOf?_eq_some_iff (canonical_keptSide _ _)).1 hcoefficient).2
  -- The kept side is the multiple of the variable, so the rest of the coefficients is on the other
  -- side.
  have hindicator : (holding name).indicator e.normalize.coefficients =
      c • (var name).coefficients := by
    rw [← coefficients_keptSide hnormal, hkept, coefficients_multiple hc]
  have hmoved := canonical_movedSide name zero e.normalize.addends
  have hzero : zero.Canonical := canonical_const 0
  rw [isolate,
    isolateIn_of_coefficientOf? hnormal ⟨_, hname.1, mentions_iff.1 hname.2⟩ hcoefficient, normalize,
    normalize_of_canonical hmoved, normalize_const, divide_constant hc] at h
  refine ⟨c, hc, ?_⟩
  rw [← Except.ok.inj h, coefficients_scale _ hmoved, smul_sub, smul_inv_smul₀ hc,
    coefficients_movedSide hzero hnormal, coefficients_zero, hindicator]
  abel

/-- What is isolated is determined by the coefficients of the equation. -/
theorem isolate_eq_ok_iff {e E : Expr} : e.isolate name = .ok E ↔
    E.Canonical ∧ name ∉ E.occurrences ∧ ∃ c : Rat, c ≠ 0 ∧
      e.normalize.coefficients = c • ((var name).coefficients - E.coefficients) := by
  constructor
  · intro h
    refine ⟨canonical_of_isolate h, ?_, coefficients_of_isolate h⟩
    intro hname
    exact (mem_occurrences_of_isolate h hname).1 rfl
  · rintro ⟨hE, hname, c, hc, hcoefficients⟩
    exact isolate_of_coefficients hc hE hname hcoefficients

/-- What is beyond the method are the equations that hold the variable in another way. -/
theorem exists_isolate_eq_unsupported_iff {e : Expr} :
    (∃ left, e.isolate name = .error (.unsupportedIsolation name left)) ↔
      (∃ t ∈ e.normalize.addends, t.mentions name = true) ∧ ∀ c, c ≠ 0 →
        (e.normalize.addends.filter fun t => t.mentions name) ≠ [product c [name] []] := by
  constructor
  · rintro ⟨left, hleft⟩
    constructor
    · by_contra hnone
      push Not at hnone
      rw [isolate_eq_variableNotFound_iff.2 (by simpa using hnone)] at hleft
      cases hleft
    · intro c hc hterms
      obtain ⟨E, hE⟩ := exists_isolate_eq_ok_iff.2 ⟨c, hc, hterms⟩
      rw [hE] at hleft
      cases hleft
  · rintro ⟨⟨t, ht, hmentions⟩, hother⟩
    -- Neither a value nor a missing variable is left as a result.
    cases hresult : e.isolate name with
    | ok E =>
      obtain ⟨c, hc, hterms⟩ := exists_isolate_eq_ok_iff.1 ⟨E, hresult⟩
      exact absurd hterms (hother c hc)
    | error f =>
      rcases isolate_eq_error hresult with rfl | ⟨left, rfl⟩
      · rw [isolate_eq_variableNotFound_iff.1 hresult t ht] at hmentions
        cases hmentions
      · exact ⟨left, rfl⟩

/-- Whether a variable can be isolated in an equation is decided by the terms of its normal form
that hold the variable. It is missing if there is none, and it is isolated if there is one, which is
a multiple of the variable; all other equations are beyond the method. The search takes one round or
two. -/
theorem isolate_iff (e : Expr) (name : String) :
    (e.isolate name = .error (.variableNotFound name) ↔
      ∀ t ∈ e.normalize.addends, t.mentions name = false) ∧
    ((∃ E, e.isolate name = .ok E) ↔ ∃ c, c ≠ 0 ∧
      (e.normalize.addends.filter fun t => t.mentions name) = [product c [name] []]) ∧
    ((∃ left, e.isolate name = .error (.unsupportedIsolation name left)) ↔
      (∃ t ∈ e.normalize.addends, t.mentions name = true) ∧ ∀ c, c ≠ 0 →
        (e.normalize.addends.filter fun t => t.mentions name) ≠ [product c [name] []]) ∧
    (∀ f, e.isolate name = .error f →
      f = .variableNotFound name ∨ ∃ left, f = .unsupportedIsolation name left) ∧
    ∃ n ≤ 2, ∀ m result, Rounds name m zero e.normalize.addends result ↔
      m = n ∧ result = e.isolate name := by
  refine ⟨isolate_eq_variableNotFound_iff, exists_isolate_eq_ok_iff,
    exists_isolate_eq_unsupported_iff, ?_, ?_⟩
  · intro f hf
    exact isolate_eq_error hf
  · -- A search has one end, so the rounds it takes are determined.
    obtain ⟨n, hrounds⟩ := exists_rounds name zero (canonical_normalize e)
    refine ⟨n, hrounds.le_two (canonical_normalize e), ?_⟩
    intro m result
    constructor
    · intro hother
      exact hother.unique hrounds
    · rintro ⟨rfl, rfl⟩
      exact hrounds

-- The terms with x are kept in a first round, which moves the constant; in the second none moves.
example : (sum [product 1 ["x", "x"] [], product 1 ["x", "y"] [], const 5]).isolate "x" =
    .error (.unsupportedIsolation "x"
      (sum [product 1 ["x", "x"] [], product 1 ["x", "y"] []])) := by
  cbv

end RationalAlgebra.Expr
