import Mathlib
import RationalAlgebra.Equation.Isolation
import RationalAlgebra.Proofs.Normal.FixedPoint
import RationalAlgebra.Proofs.Normal.Value

/-!
# What isolation gives

An isolated variable stands for its equation: where the equation has a value, that value is a fixed
nonzero multiple of the difference between the variable and the expression found for it. The search
is a sequence of rounds (`Rounds`), of which each keeps the difference of the two sides, and the
last one divides it by the coefficient of the variable.

The terms that a round keeps are addends of a normal form, so adding them up gives them back. Hence
a round in which a term moves leaves fewer terms, so that every search ends (`exists_rounds`); and
no round loses the variable, so a search that does not find it has looked at an equation without it.

Main statements: `isolate_eq_ok` for the values, `mem_occurrences_of_isolate` for the variables,
`eval_of_isolate` for both, and `not_mem_occurrences_of_isolate_eq_error` for the failure.
-/

namespace RationalAlgebra.Expr

variable {v : Valuation} {name : String}

/-! ## Dividing a variable out -/

/-- A variable that occurs once stands first, up to order. -/
theorem perm_of_count_eq_one {vs : List String} (h : vs.count name = 1) :
    vs.Perm (name :: vs.filter (· ≠ name)) := by
  have hsplit := List.filter_append_perm (· = name) vs
  have hfound : vs.filter (· = name) = [name] := by
    have hall := List.filter_beq (l := vs) name
    rw [h, List.replicate_one] at hall
    simpa only [beq_eq_decide] using hall
  rw [hfound] at hsplit
  simpa using hsplit.symm

/-- Several quotients by a variable have values where the expressions have, and multiply back to
them. -/
theorem defined_divideAllByVariable? {es qs : List Expr}
    (ih : ∀ e ∈ es, ∀ q, e.divideByVariable? name = some q → e.Defined v →
      q.Defined v ∧ e.value v = q.value v * v.read name)
    (h : divideAllByVariable? name es = some qs) (hes : ∀ e ∈ es, e.Defined v) :
    (∀ q ∈ qs, q.Defined v) ∧
      (es.map (value v)).sum = (qs.map (value v)).sum * v.read name := by
  induction es generalizing qs with
  | nil =>
    cases h
    simp
  | cons e es ihes =>
    obtain ⟨ihhead, ihtail⟩ := List.forall_mem_cons.1 ih
    obtain ⟨hhead, htail⟩ := List.forall_mem_cons.1 hes
    rw [divideAllByVariable?] at h
    split at h
    · rename_i q qs' hq hqs'
      cases h
      obtain ⟨hdefined, hvalue⟩ := ihhead q hq hhead
      obtain ⟨hdefined', hvalue'⟩ := ihes ihtail hqs' htail
      constructor
      · exact List.forall_mem_cons.2 ⟨hdefined, hdefined'⟩
      · rw [List.map_cons, List.map_cons, List.sum_cons, List.sum_cons, hvalue, hvalue']
        ring
    · cases h

/-- What is left when a variable is divided out, times the variable, is the expression. -/
theorem defined_divideByVariable? {e q : Expr} (h : e.divideByVariable? name = some q)
    (he : e.Defined v) : q.Defined v ∧ e.value v = q.value v * v.read name := by
  induction e using tree_induction generalizing q with
  | sum es ih =>
    rw [divideByVariable?, Option.map_eq_some_iff] at h
    obtain ⟨qs, hqs, rfl⟩ := h
    rw [defined_sum, value_sum, value_sum]
    exact defined_divideAllByVariable? (fun e he _ => ih e he) hqs (defined_sum.1 he)
  | product c vs fs _ =>
    rw [divideByVariable?] at h
    split at h
    · -- The variable occurs once among the variables, and the others stay.
      rename_i hcount
      cases h
      obtain ⟨hvs, hfs⟩ := defined_product.1 he
      have hperm := ((perm_of_count_eq_one hcount.1).map v.read).prod_eq
      rw [List.map_cons, List.prod_cons] at hperm
      constructor
      · exact defined_product.2 ⟨fun x hx => hvs x (List.mem_of_mem_filter hx), hfs⟩
      · rw [value_product, value_product, hperm]
        ring
    · cases h
  | fraction n d _ _ => cases h

/-- An expression with a coefficient is reduced to it when the variable is divided out. -/
theorem exists_quotient_of_coefficientOf? {e : Expr} {k : Rat}
    (h : e.coefficientOf? name = some k) :
    k ≠ 0 ∧ ∃ q, e.divideByVariable? name = some q ∧ q.normalize = const k := by
  unfold coefficientOf? at h
  split at h
  · rename_i k' hk'
    obtain ⟨q, hq, hconst⟩ := Option.bind_eq_some_iff.1 hk'
    split at h
    · cases h
    · rename_i hne
      cases h
      exact ⟨hne, q, hq, eq_const_of_asConstant? hconst⟩
  · cases h

/-- An expression with a coefficient is that multiple of the variable. -/
theorem value_of_coefficientOf? {e : Expr} {k : Rat} (h : e.coefficientOf? name = some k)
    (he : e.Defined v) : e.value v = k * v.read name := by
  obtain ⟨_, q, hq, hconst⟩ := exists_quotient_of_coefficientOf? h
  obtain ⟨hdefined, hvalue⟩ := defined_divideByVariable? hq he
  -- What is left is normalized to the coefficient, so it has that value.
  have hnormal := (defined_normalize hdefined).2
  rw [hconst, value_const] at hnormal
  rw [hvalue, hnormal]

/-! ## Addends -/

theorem sum_addends (v : Valuation) (e : Expr) : (e.addends.map (value v)).sum = e.value v := by
  cases e <;> simp [addends]

theorem defined_addends {e : Expr} : (∀ a ∈ e.addends, a.Defined v) ↔ e.Defined v := by
  cases e <;> simp [addends]

/-- The variables of an expression are those of its addends. -/
theorem mem_occurrences_addends {e : Expr} {x : String} :
    (∃ a ∈ e.addends, x ∈ a.occurrences) ↔ x ∈ e.occurrences := by
  cases e <;> simp [addends]

/-- The addends of a normal form other than zero are canonical terms in order. -/
theorem canonical_terms {e : Expr} (he : e.Canonical) (hzero : e ≠ zero) :
    (∀ t ∈ e.addends, t.Canonical ∧ ¬ t.IsSum ∧ t.split.1 ≠ 0) ∧ e.addends.Pairwise Before := by
  have hsingle : ¬ e.IsSum → (∀ t ∈ [e], t.Canonical ∧ ¬ t.IsSum ∧ t.split.1 ≠ 0) ∧
      [e].Pairwise Before := by
    intro hsum
    have hne := split_fst_ne_zero he hzero
    exact ⟨by simpa using ⟨he, hsum, hne⟩, List.pairwise_singleton _ _⟩
  cases e with
  | sum es => exact ⟨he.addends, he.shape.2.2⟩
  | product c vs fs => exact hsingle id
  | fraction n d => exact hsingle id

/-- Some of the addends of a normal form, if there are any, are the addends of their own sum. -/
theorem addends_normalize_sum {e : Expr} (he : e.Canonical) (hzero : e ≠ zero) {es : List Expr}
    (hsub : es.Sublist e.addends) (hes : es ≠ []) : (sum es).normalize.addends = es := by
  obtain ⟨hterms, hbefore⟩ := canonical_terms he hzero
  have hterms' : ∀ t ∈ es, t.Canonical ∧ ¬ t.IsSum ∧ t.split.1 ≠ 0 :=
    fun t ht => hterms t (hsub.subset ht)
  -- The terms are normal forms in order, so the sum of them is built again as it is.
  have hnormal : es.map normalize = es :=
    (List.map_congr_left fun t ht => normalize_of_canonical (hterms' t ht).1).trans
      (List.map_id es)
  rw [normalize, normalizeList_eq, hnormal, Combination.toExpr,
    Combination.map_toExpr_ofExprs hterms' (hbefore.sublist hsub)]
  rcases es with _ | ⟨t, _ | ⟨u, rest⟩⟩
  · exact absurd rfl hes
  · -- A single term is not a sum, so it is its own only addend.
    have hsum := (hterms' t List.mem_cons_self).2.1
    cases t with
    | sum ts => exact absurd trivial hsum
    | product c vs fs => rfl
    | fraction n d => rfl
  · rfl

/-! ## The sides after a round -/

/-- No term is kept exactly if no term holds the variable. -/
theorem isEmpty_kept_iff {terms : List Expr} :
    (terms.filter fun e => e.mentions name).isEmpty = true ↔ ∀ e ∈ terms, name ∉ e.occurrences := by
  simp [mentions_iff]

/-- A term moves exactly if one is without the variable. -/
theorem not_isEmpty_moved_iff {terms : List Expr} :
    ¬ (terms.filter fun e => !e.mentions name).isEmpty = true ↔
      ∃ e ∈ terms, name ∉ e.occurrences := by
  simp [mentions_iff]

/-- The terms that stay and the terms that move are all of them. -/
theorem sum_kept_add_moved (v : Valuation) (name : String) (terms : List Expr) :
    ((terms.filter fun e => e.mentions name).map (value v)).sum +
        ((terms.filter fun e => !e.mentions name).map (value v)).sum =
      (terms.map (value v)).sum := by
  have hperm := (List.filter_append_perm (fun e => e.mentions name) terms).map (value v)
  rw [List.map_append] at hperm
  rw [← hperm.sum_eq, List.sum_append]

theorem sum_map_scaled (v : Valuation) (k : Rat) (es : List Expr) :
    ((es.map (scaled k)).map (value v)).sum = k * (es.map (value v)).sum := by
  rw [List.map_map, ← List.sum_map_mul_left]
  exact congrArg List.sum (List.map_congr_left fun e _ => value_scaled v k e)

/-- After a round both sides are defined where they were before, with the same difference. -/
theorem defined_round (name : String) {right : Expr} {terms : List Expr} (hright : right.Defined v)
    (hterms : ∀ e ∈ terms, e.Defined v) :
    (keptSide name terms).Defined v ∧ (movedSide name right terms).Defined v ∧
      (keptSide name terms).value v - (movedSide name right terms).value v =
        (terms.map (value v)).sum - right.value v := by
  have hkept : (sum (terms.filter fun e => e.mentions name)).Defined v :=
    defined_sum.2 fun e he => hterms e (List.mem_of_mem_filter he)
  have hmoved :
      (sum (right :: (terms.filter fun e => !e.mentions name).map (scaled (-1)))).Defined v := by
    simp only [defined_sum, List.forall_mem_cons, List.forall_mem_map, defined_scaled]
    exact ⟨hright, fun e he => hterms e (List.mem_of_mem_filter he)⟩
  have hkept' := defined_normalize hkept
  have hmoved' := defined_normalize hmoved
  refine ⟨hkept'.1.2, hmoved'.1.2, ?_⟩
  -- The terms that move are subtracted from both sides.
  rw [keptSide, movedSide, hkept'.2, hmoved'.2, value_sum, value_sum, List.map_cons, List.sum_cons,
    sum_map_scaled, ← sum_kept_add_moved v name terms]
  ring

/-- What moves over does not hold the variable. -/
theorem mem_occurrences_of_movedSide {right : Expr} {terms : List Expr} {x : String}
    (h : x ∈ (movedSide name right terms).occurrences) :
    x ∈ right.occurrences ∨ x ≠ name ∧ ∃ e ∈ terms, x ∈ e.occurrences := by
  have hx := mem_occurrences_of_normalize h
  simp only [mem_occurrences_sum, List.mem_cons, List.mem_map, List.mem_filter] at hx
  rcases hx with ⟨e', rfl | ⟨e, ⟨he, hname⟩, rfl⟩, hx⟩
  · exact Or.inl hx
  · rw [mem_occurrences_scaled] at hx
    -- A term that moves over has been tested for the variable.
    have hne : x ≠ name := by
      intro heq
      subst heq
      rw [mentions_iff.2 hx] at hname
      cases hname
    exact Or.inr ⟨hne, e, he, hx⟩

/-- The kept side has no variables but those of the terms. -/
theorem mem_occurrences_of_keptSide {terms : List Expr} {x : String}
    (h : x ∈ (keptSide name terms).occurrences) : ∃ e ∈ terms, x ∈ e.occurrences := by
  have hx := mem_occurrences_of_normalize h
  rw [mem_occurrences_sum] at hx
  obtain ⟨e, he, hx⟩ := hx
  exact ⟨e, List.mem_of_mem_filter he, hx⟩

/-- The kept side of a normal form with the variable has the terms that are kept as its addends. -/
theorem addends_keptSide {e : Expr} (he : e.Canonical) (hname : name ∈ e.occurrences) :
    (keptSide name e.addends).addends = e.addends.filter fun t => t.mentions name := by
  have hzero : e ≠ zero := by
    rintro rfl
    simp [zero, const] at hname
  apply addends_normalize_sum he hzero List.filter_sublist
  obtain ⟨t, ht, hx⟩ := mem_occurrences_addends.2 hname
  exact List.ne_nil_of_mem (List.mem_filter.2 ⟨ht, mentions_iff.2 hx⟩)

/-- The kept side still holds the variable. -/
theorem name_mem_occurrences_keptSide {e : Expr} (he : e.Canonical) (hname : name ∈ e.occurrences) :
    name ∈ (keptSide name e.addends).occurrences := by
  obtain ⟨t, ht, hx⟩ := mem_occurrences_addends.2 hname
  rw [← mem_occurrences_addends, addends_keptSide he hname]
  exact ⟨t, List.mem_filter.2 ⟨ht, mentions_iff.2 hx⟩, hx⟩

/-- Where a term of a normal form has moved, the kept side has fewer addends than the normal form.
-/
theorem length_lt_of_moved {e : Expr} (he : e.Canonical) (hname : name ∈ e.occurrences)
    {next : List Expr} (hnext : keptSide name e.addends = sum next)
    (hmoved : ∃ t ∈ e.addends, name ∉ t.occurrences) : next.length < e.addends.length := by
  have hkept : next = e.addends.filter fun t => t.mentions name := by
    rw [← addends_keptSide he hname, hnext, addends]
  rw [hkept, List.length_filter_lt_length_iff_exists]
  simpa [mentions_iff] using hmoved

/-! ## The search -/

/-- A search from these sides ends in this many rounds. It ends when no term is kept, when the kept
side has a coefficient, and when the kept side has none and is no sum or no term has moved;
otherwise it goes on with the addends of the kept side. -/
inductive Rounds (name : String) : Nat → Expr → List Expr → Except Failure Expr → Prop
  | missing {right : Expr} {terms : List Expr} (hnone : ∀ t ∈ terms, name ∉ t.occurrences) :
      Rounds name 1 right terms (.error (.variableNotFound name))
  | isolated {right : Expr} {terms : List Expr} {k : Rat}
      (hsome : ∃ t ∈ terms, name ∈ t.occurrences)
      (hk : (keptSide name terms).coefficientOf? name = some k) :
      Rounds name 1 right terms (.ok (fraction (movedSide name right terms) (const k)).normalize)
  | stuck {right : Expr} {terms : List Expr} (hsome : ∃ t ∈ terms, name ∈ t.occurrences)
      (hk : (keptSide name terms).coefficientOf? name = none)
      (hlast : ∀ next, keptSide name terms = sum next → ∀ t ∈ terms, name ∈ t.occurrences) :
      Rounds name 1 right terms (.error (.unsupportedIsolation name (keptSide name terms)))
  | again {n : Nat} {right : Expr} {terms next : List Expr} {result : Except Failure Expr}
      (hsome : ∃ t ∈ terms, name ∈ t.occurrences)
      (hk : (keptSide name terms).coefficientOf? name = none)
      (hnext : keptSide name terms = sum next) (hmoved : ∃ t ∈ terms, name ∉ t.occurrences)
      (hrest : Rounds name n (movedSide name right terms) next result) :
      Rounds name (n + 1) right terms result

/-- Every search through the addends of a normal form ends in some number of rounds. -/
theorem exists_rounds (name : String) (right : Expr) {e : Expr} (he : e.Canonical) :
    ∃ n, Rounds name n right e.addends (isolateIn name right e.addends) := by
  -- The kept side is a normal form again, with fewer addends where a term has moved.
  induction hlength : e.addends.length using Nat.strong_induction_on generalizing right e with
  | _ length ih =>
    rw [isolateIn]
    simp only
    split
    · rename_i hkept
      exact ⟨1, Rounds.missing (isEmpty_kept_iff.1 hkept)⟩
    · rename_i hkept
      rw [isEmpty_kept_iff] at hkept
      push Not at hkept
      split
      · rename_i k hk
        exact ⟨1, Rounds.isolated hkept hk⟩
      · rename_i hk
        split
        · rename_i next hnext
          have hshorter := length_lt_of_moved he (mem_occurrences_addends.1 hkept) hnext
          split
          · -- A term has moved: the search goes on with fewer addends.
            rename_i hgoes
            obtain ⟨hmoved, hlt⟩ := hgoes
            rw [not_isEmpty_moved_iff] at hmoved
            have hcanonical : (sum next).Canonical := hnext ▸ canonical_normalize _
            obtain ⟨n, hrest⟩ := ih next.length (hlength ▸ hlt)
              (movedSide name right e.addends) hcanonical rfl
            exact ⟨n + 1, Rounds.again hkept hk hnext hmoved hrest⟩
          · rename_i hends
            refine ⟨1, Rounds.stuck hkept hk ?_⟩
            intro _ _
            -- Had a term moved, there would be fewer terms.
            by_contra hmoved
            push Not at hmoved
            exact hends ⟨not_isEmpty_moved_iff.2 hmoved, hshorter hmoved⟩
        · rename_i hnext
          exact ⟨1, Rounds.stuck hkept hk fun next hnext' => absurd hnext' (hnext next)⟩

/-- A search ends in one way only. -/
theorem Rounds.unique {n n' : Nat} {right : Expr} {terms : List Expr}
    {result result' : Except Failure Expr} (h : Rounds name n right terms result)
    (h' : Rounds name n' right terms result') : n = n' ∧ result = result' := by
  -- The conditions of the four rules exclude each other, and the side that is kept is the same.
  induction h generalizing n' with
  | missing hnone =>
    cases h' with
    | missing _ => exact ⟨rfl, rfl⟩
    | isolated hsome _ => exact absurd hsome (by simpa using hnone)
    | stuck hsome _ _ => exact absurd hsome (by simpa using hnone)
    | again hsome _ _ _ _ => exact absurd hsome (by simpa using hnone)
  | isolated hsome hk =>
    cases h' with
    | missing hnone => exact absurd hsome (by simpa using hnone)
    | isolated _ hk' =>
      cases hk.symm.trans hk'
      exact ⟨rfl, rfl⟩
    | stuck _ hk' _ => cases hk.symm.trans hk'
    | again _ hk' _ _ _ => cases hk.symm.trans hk'
  | stuck hsome hk hlast =>
    cases h' with
    | missing hnone => exact absurd hsome (by simpa using hnone)
    | isolated _ hk' => cases hk.symm.trans hk'
    | stuck _ _ _ => exact ⟨rfl, rfl⟩
    | again _ _ hnext hmoved _ => exact absurd (hlast _ hnext) (by simpa using hmoved)
  | again hsome hk hnext hmoved _ ih =>
    cases h' with
    | missing hnone => exact absurd hsome (by simpa using hnone)
    | isolated _ hk' => cases hk.symm.trans hk'
    | stuck _ _ hlast => exact absurd (hlast _ hnext) (by simpa using hmoved)
    | again _ _ hnext' _ hrest' =>
      cases hnext.symm.trans hnext'
      obtain ⟨rfl, rfl⟩ := ih hrest'
      exact ⟨rfl, rfl⟩

/-- What a search ends in is what is isolated. -/
theorem Rounds.isolateIn_eq {n : Nat} {right e : Expr} {result : Except Failure Expr}
    (he : e.Canonical) (h : Rounds name n right e.addends result) :
    isolateIn name right e.addends = result := by
  obtain ⟨m, hrounds⟩ := exists_rounds name right he
  exact (hrounds.unique h).2

/-- A search fails because the variable does not occur or because it is beyond the method. -/
theorem Rounds.eq_error {n : Nat} {right : Expr} {terms : List Expr} {f : Failure}
    (h : Rounds name n right terms (.error f)) :
    f = .variableNotFound name ∨ ∃ left, f = .unsupportedIsolation name left := by
  generalize hresult : (Except.error f : Except Failure Expr) = result at h
  induction h with
  | missing _ => exact Or.inl (Except.error.inj hresult)
  | isolated _ _ => cases hresult
  | stuck _ _ _ => exact Or.inr ⟨_, Except.error.inj hresult⟩
  | again _ _ _ _ _ ih => exact ih hresult

/-- A round keeps the difference of the two sides; the last one takes the coefficient out of it. -/
theorem Rounds.eq_ok {n : Nat} {right E : Expr} {terms : List Expr}
    (h : Rounds name n right terms (.ok E)) :
    ∃ k : Rat, k ≠ 0 ∧ ∀ v : Valuation, right.Defined v → (∀ e ∈ terms, e.Defined v) →
      E.Defined v ∧
        (terms.map (value v)).sum - right.value v = k * (v.read name - E.value v) := by
  generalize hresult : (Except.ok E : Except Failure Expr) = result at h
  induction h with
  | missing _ => cases hresult
  | stuck _ _ _ => cases hresult
  | @isolated right terms k _ hk =>
    -- The last round: the kept side is a multiple of the variable, and the other side is divided.
    cases hresult
    have hne := (exists_quotient_of_coefficientOf? hk).1
    refine ⟨k, hne, ?_⟩
    intro v hright hterms
    obtain ⟨hkept, hmoved, hdifference⟩ := defined_round name hright hterms
    have hquotient : (fraction (movedSide name right terms) (const k)).Defined v :=
      defined_fraction.2 ⟨hmoved, defined_const k, by simpa using hne⟩
    obtain ⟨⟨_, hdefined⟩, hvalue⟩ := defined_normalize hquotient
    refine ⟨hdefined, ?_⟩
    rw [hvalue, value_fraction, value_const, ← hdifference,
      value_of_coefficientOf? hk hkept]
    field_simp
  | again _ _ hnext _ _ ih =>
    -- One more round, with the difference of the sides that this one leaves.
    obtain ⟨k, hne, hsides⟩ := ih hresult
    refine ⟨k, hne, ?_⟩
    intro v hright hterms
    obtain ⟨hkept, hmoved, hdifference⟩ := defined_round name hright hterms
    rw [hnext] at hkept hdifference
    rw [← hdifference, value_sum]
    exact hsides v hmoved (defined_sum.1 hkept)

/-! ## The variables of the result -/

/-- What is isolated has variables of the two sides, and not the variable itself. -/
theorem Rounds.mem_occurrences {n : Nat} {right E : Expr} {terms : List Expr} {x : String}
    (h : Rounds name n right terms (.ok E)) (hx : x ∈ E.occurrences) :
    x ∈ right.occurrences ∨ x ≠ name ∧ ∃ e ∈ terms, x ∈ e.occurrences := by
  generalize hresult : (Except.ok E : Except Failure Expr) = result at h
  induction h with
  | missing _ => cases hresult
  | stuck _ _ _ => cases hresult
  | isolated _ _ =>
    cases hresult
    have hx' := mem_occurrences_of_normalize hx
    rw [mem_occurrences_fraction] at hx'
    rcases hx' with hx' | hx'
    · exact mem_occurrences_of_movedSide hx'
    · simp [const] at hx'
  -- Each round draws on the sides that the round before has left.
  | again _ _ hnext _ _ ih =>
    rcases ih hresult with hx' | ⟨hne, hx'⟩
    · exact mem_occurrences_of_movedSide hx'
    · -- An addend of the kept side has its variables from the terms.
      rw [← mem_occurrences_sum, ← hnext] at hx'
      exact Or.inr ⟨hne, mem_occurrences_of_keptSide hx'⟩

/-- A search that succeeds has found the variable in one of its terms. -/
theorem Rounds.exists_mem_occurrences {n : Nat} {right E : Expr} {terms : List Expr}
    (h : Rounds name n right terms (.ok E)) : ∃ e ∈ terms, name ∈ e.occurrences := by
  cases h with
  | isolated hsome _ => exact hsome
  | again hsome _ _ _ _ => exact hsome

/-- No round of a search through the addends of a normal form loses the variable. -/
theorem Rounds.not_mem_occurrences {n : Nat} {e right : Expr} (he : e.Canonical) {x : String}
    (h : Rounds name n right e.addends (.error (.variableNotFound x))) : name ∉ e.occurrences := by
  generalize hresult : (Except.error (.variableNotFound x) : Except Failure Expr) = result at h
  generalize hterms : e.addends = terms at h
  induction h generalizing e with
  | missing hnone =>
    intro hname
    obtain ⟨t, ht, hx⟩ := mem_occurrences_addends.2 hname
    exact hnone t (hterms ▸ ht) hx
  | isolated _ _ => cases hresult
  | stuck _ _ _ => cases hresult
  | again _ _ hnext _ _ ih =>
    intro hname
    -- The kept side is a normal form again, and holds the variable.
    have hname' := name_mem_occurrences_keptSide he hname
    rw [hterms] at hname'
    exact ih (canonical_normalize _) hresult (congrArg addends hnext) hname'

/-! ## The parts of an answer are normal forms -/

/-- What is isolated is a normal form, being normalized in the last round. -/
theorem Rounds.canonical {n : Nat} {right E : Expr} {terms : List Expr}
    (h : Rounds name n right terms (.ok E)) : E.Canonical := by
  generalize hresult : (Except.ok E : Except Failure Expr) = result at h
  induction h with
  | missing _ => cases hresult
  | stuck _ _ _ => cases hresult
  | isolated _ _ =>
    cases hresult
    exact canonical_normalize _
  | again _ _ _ _ _ ih => exact ih hresult

/-- A search that is beyond the method reports the kept side of its last round. -/
theorem Rounds.canonical_unsupported {n : Nat} {right left : Expr} {terms : List Expr} {x : String}
    (h : Rounds name n right terms (.error (.unsupportedIsolation x left))) :
    x = name ∧ left.Canonical ∧ ∀ y ∈ left.occurrences, ∃ t ∈ terms, y ∈ t.occurrences := by
  generalize hresult : (Except.error (.unsupportedIsolation x left) : Except Failure Expr) =
    result at h
  induction h with
  | missing _ => cases hresult
  | isolated _ _ => cases hresult
  | stuck _ _ _ =>
    cases hresult
    exact ⟨rfl, canonical_normalize _, fun y hy => mem_occurrences_of_keptSide hy⟩
  | again _ _ hnext _ _ ih =>
    obtain ⟨rfl, hleft, hnames⟩ := ih hresult
    refine ⟨rfl, hleft, ?_⟩
    intro y hy
    obtain ⟨t, ht, hy'⟩ := hnames y hy
    apply mem_occurrences_of_keptSide
    rw [hnext, mem_occurrences_sum]
    exact ⟨t, ht, hy'⟩

/-! ## Equations -/

/-- An isolation is a search from the addends of the normal form, against zero. -/
theorem exists_rounds_of_isolate {e : Expr} {result : Except Failure Expr}
    (h : e.isolate name = result) : ∃ n, Rounds name n zero e.normalize.addends result :=
  h ▸ exists_rounds name zero (canonical_normalize e)

/-- Where the equation has a value, it is a fixed multiple of the difference between the variable
and what the variable is isolated to. -/
theorem isolate_eq_ok {e E : Expr} (h : e.isolate name = .ok E) :
    ∃ k : Rat, k ≠ 0 ∧ ∀ v : Valuation, e.Defined v →
      E.Defined v ∧ e.value v = k * (v.read name - E.value v) := by
  obtain ⟨n, hrounds⟩ := exists_rounds_of_isolate h
  obtain ⟨k, hne, hsides⟩ := hrounds.eq_ok
  refine ⟨k, hne, ?_⟩
  intro v he
  obtain ⟨⟨_, hdefined⟩, hvalue⟩ := defined_normalize he
  have hsides' := hsides v defined_zero (defined_addends.2 hdefined)
  rwa [sum_addends, hvalue, value_zero, sub_zero] at hsides'

/-- An isolation fails because the variable does not occur or because it is beyond the method. -/
theorem isolate_eq_error {e : Expr} {f : Failure} (h : e.isolate name = .error f) :
    f = .variableNotFound name ∨ ∃ left, f = .unsupportedIsolation name left := by
  obtain ⟨n, hrounds⟩ := exists_rounds_of_isolate h
  exact hrounds.eq_error

/-- What a variable is isolated to has variables of the equation only, and not that variable. -/
theorem mem_occurrences_of_isolate {e E : Expr} {x : String} (h : e.isolate name = .ok E)
    (hx : x ∈ E.occurrences) : x ≠ name ∧ x ∈ e.occurrences := by
  obtain ⟨n, hrounds⟩ := exists_rounds_of_isolate h
  rcases hrounds.mem_occurrences hx with hx' | ⟨hne, hx'⟩
  · simp [zero, const] at hx'
  · exact ⟨hne, mem_occurrences_of_normalize (mem_occurrences_addends.1 hx')⟩

/-- A variable that is isolated occurs in the equation. -/
theorem name_mem_occurrences_of_isolate {e E : Expr} (h : e.isolate name = .ok E) :
    name ∈ e.occurrences := by
  obtain ⟨n, hrounds⟩ := exists_rounds_of_isolate h
  have hname := mem_occurrences_addends.1 hrounds.exists_mem_occurrences
  exact mem_occurrences_of_normalize hname

/-- A variable is reported as missing only if the normal form of the equation is without it. -/
theorem not_mem_occurrences_of_isolate_eq_error {e : Expr} {x : String}
    (h : e.isolate name = .error (.variableNotFound x)) : name ∉ e.normalize.occurrences := by
  obtain ⟨n, hrounds⟩ := exists_rounds_of_isolate h
  exact hrounds.not_mem_occurrences (canonical_normalize e)

/-- What a variable is isolated to is a normal form. -/
theorem canonical_of_isolate {e E : Expr} (h : e.isolate name = .ok E) : E.Canonical := by
  obtain ⟨n, hrounds⟩ := exists_rounds_of_isolate h
  exact hrounds.canonical

/-- What is reported as beyond the method is a normal form, with variables of the equation only. -/
theorem canonical_of_isolate_unsupported {e left : Expr} {x : String}
    (h : e.isolate name = .error (.unsupportedIsolation x left)) :
    x = name ∧ left.Canonical ∧ ∀ y ∈ left.occurrences, y ∈ e.occurrences := by
  obtain ⟨n, hrounds⟩ := exists_rounds_of_isolate h
  obtain ⟨hx, hleft, hnames⟩ := hrounds.canonical_unsupported
  refine ⟨hx, hleft, ?_⟩
  intro y hy
  exact mem_occurrences_of_normalize (mem_occurrences_addends.1 (hnames y hy))

/-- What a variable is isolated to does not mention it and brings in no other variable, and for one
nonzero factor the value of the equation is always that multiple of the difference between the two.
So the equation is zero exactly where they are equal. -/
theorem eval_of_isolate {e E : Expr} (h : e.isolate name = .ok E) :
    E.mentions name = false ∧ (∀ x, E.mentions x = true → e.mentions x = true) ∧
      ∃ c : Rat, c ≠ 0 ∧ ∀ (v : Valuation) (r : Rat), e.eval v = .ok r →
        ∃ q s, v name = some q ∧ E.eval v = .ok s ∧ r = c * (q - s) ∧ (r = 0 ↔ q = s) := by
  refine ⟨?_, ?_, ?_⟩
  · rw [← Bool.not_eq_true, mentions_iff]
    intro hname
    exact (mem_occurrences_of_isolate h hname).1 rfl
  · intro x hx
    rw [mentions_iff] at hx ⊢
    exact (mem_occurrences_of_isolate h hx).2
  · obtain ⟨c, hc, hvalue⟩ := isolate_eq_ok h
    refine ⟨c, hc, ?_⟩
    intro v r hr
    obtain ⟨hdefined, rfl⟩ := eval_eq_ok_iff.1 hr
    obtain ⟨hE, hdifference⟩ := hvalue v hdefined
    -- The variable has a value where the equation has, since it occurs in it.
    have hsome := hdefined.isSome_of_mem (name_mem_occurrences_of_isolate h)
    refine ⟨v.read name, E.value v, Valuation.eq_some_read hsome, hE.eval_eq, hdifference, ?_⟩
    rw [hdifference, mul_eq_zero, or_iff_right hc, sub_eq_zero]

/-- Twice x and a quotient are 6 where x is 3 less half of the quotient. -/
theorem eval_of_isolate_with_quotient :
    (sum [product 2 ["x"] [], fraction (var "y") (var "z"), const (-6)]).isolate "x" =
      .ok (sum [const 3, product (-1 / 2) [] [fraction (var "y") (var "z")]]) ∧
    (sum [const 3, product (-1 / 2) [] [fraction (var "y") (var "z")]]).mentions "x" = false ∧
    (∀ x, (sum [const 3, product (-1 / 2) [] [fraction (var "y") (var "z")]]).mentions x = true →
      (sum [product 2 ["x"] [], fraction (var "y") (var "z"), const (-6)]).mentions x = true) ∧
    ∃ c : Rat, c ≠ 0 ∧ ∀ (v : Valuation) (r : Rat),
      (sum [product 2 ["x"] [], fraction (var "y") (var "z"), const (-6)]).eval v = .ok r →
        ∃ q s, v "x" = some q ∧
          (sum [const 3, product (-1 / 2) [] [fraction (var "y") (var "z")]]).eval v = .ok s ∧
          r = c * (q - s) ∧ (r = 0 ↔ q = s) := by
  have hisolate : (sum [product 2 ["x"] [], fraction (var "y") (var "z"), const (-6)]).isolate "x" =
      .ok (sum [const 3, product (-1 / 2) [] [fraction (var "y") (var "z")]]) := by
    cbv
  exact ⟨hisolate, eval_of_isolate hisolate⟩

end RationalAlgebra.Expr
