import Mathlib
import RationalAlgebra.Proofs.Normal.Expansion

/-!
# The order of factors

A product is put in order only after cancelling, and cancelling goes from left to right: a variable
is used up by the first denominators that hold it. The order of the variables never matters
(`multiply_names_perm`). The order of the quotients does where a variable is `Disputed`: two
different quotients hold it in their denominators, and it does not occur often enough for all
denominators. As long as that does not happen, one pass over the quotients leaves the same variables
and quotients in every order (`cancelQuotients_perm`), so does the whole run (`Undisputed`), and the
product has one normal form whatever the order of its factors.

Main statements: `normalize_product_perm`, and `normalize_disputed_variable` for a product in which
the order does matter.
-/

namespace RationalAlgebra

open RationalAlgebra.Expr

/-! ## Cancelling against one denominator -/

namespace Expr

/-- The variables of the denominator of a quotient, if that is nothing but variables. -/
def divisorNames : Expr → List String
  | fraction _ d => d.pureNames
  | _ => []

/-- A quotient with these variables for a denominator, if its denominator is nothing but
variables. -/
def withDivisor (names : List String) : Expr → Expr
  | fraction n d =>
    match Factors.pureVariables? d with
    | some _ => fraction n (product 1 names [])
    | none => fraction n d
  | e => e

end Expr

namespace Factors

/-- Cancelling is a difference of lists, counted with multiplicity, in both directions. -/
theorem cancel_eq_diff (xs names : List String) :
    cancel xs names = (xs.diff names, names.diff xs) := by
  induction xs generalizing names with
  | nil => simp [cancel]
  | cons x xs ih =>
    rw [cancel]
    split
    · rename_i hx
      rw [ih, List.cons_diff_of_mem hx, List.diff_cons]
    · rename_i hx
      rw [ih, List.diff_cons, List.erase_of_not_mem hx, List.cons_diff_of_not_mem hx]

/-- One step of a pass: the first denominator takes its variables, and what is left goes on. -/
theorem cancelQuotients_cons (vs : List String) (f : Expr) (fs : List Expr) :
    cancelQuotients vs (f :: fs) =
      ((cancelQuotients (vs.diff f.divisorNames) fs).1,
        f.withDivisor (f.divisorNames.diff vs) ::
          (cancelQuotients (vs.diff f.divisorNames) fs).2) := by
  cases f with
  | sum es => rfl
  | product c ws gs => rfl
  | fraction n d =>
    rw [cancelQuotients]
    cases hd : pureVariables? d with
    | none => simp [divisorNames, withDivisor, pureNames, hd]
    | some names => simp [divisorNames, withDivisor, pureNames, hd, cancel_eq_diff]

/-! ## Disputed variables -/

/-- A variable of a product is disputed if two different quotients hold it in their denominators,
and all denominators together hold it more often than the product does. -/
def Disputed (vs : List String) (fs : List Expr) (x : String) : Prop :=
  x ∈ vs ∧ vs.count x < (fs.flatMap divisorNames).count x ∧
    ∃ f ∈ fs, ∃ g ∈ fs, f ≠ g ∧ x ∈ f.divisorNames ∧ x ∈ g.divisorNames

/-- With enough occurrences of each variable for all quotients, nothing is disputed. -/
theorem not_disputed_of_count_le {vs : List String} {fs : List Expr}
    (h : ∀ x ∈ vs, (fs.flatMap divisorNames).count x ≤ vs.count x) : ∀ x, ¬ Disputed vs fs x := by
  intro x hx
  exact absurd hx.2.1 (not_lt.2 (h x hx.1))

/-- Whether a variable is disputed does not depend on the order of variables or of quotients. -/
theorem Disputed.perm {vs ws : List String} {fs gs : List Expr} {x : String}
    (h : Disputed vs fs x) (hvs : vs.Perm ws) (hfs : fs.Perm gs) : Disputed ws gs x := by
  obtain ⟨hx, hcount, f, hf, g, hg, hne⟩ := h
  refine ⟨hvs.mem_iff.1 hx, ?_, f, hfs.mem_iff.1 hf, g, hfs.mem_iff.1 hg, hne⟩
  rwa [← hvs.count_eq, ← (hfs.flatMap_right divisorNames).count_eq]

/-- What is disputed after one denominator has taken its variables was disputed before. -/
theorem Disputed.of_tail {vs : List String} {f : Expr} {fs : List Expr} {x : String}
    (h : Disputed (vs.diff f.divisorNames) fs x) : Disputed vs (f :: fs) x := by
  obtain ⟨hx, hcount, g, hg, g', hg', hne⟩ := h
  refine ⟨List.diff_subset _ _ hx, ?_, g, List.mem_cons_of_mem f hg, g',
    List.mem_cons_of_mem f hg', hne⟩
  have hpos := List.count_pos_iff.2 hx
  rw [List.count_diff] at hpos hcount
  rw [List.flatMap_cons, List.count_append]
  omega

/-- Two lists leave the same of a third if they hold each of its entries equally often, as far as
there are enough to take away. -/
theorem diff_congr {xs ys zs : List String}
    (h : ∀ x ∈ xs, min (xs.count x) (ys.count x) = min (xs.count x) (zs.count x)) :
    xs.diff ys = xs.diff zs := by
  induction xs generalizing ys zs with
  | nil => simp
  | cons x xs ih =>
    have hx := h x List.mem_cons_self
    rw [List.count_cons_self] at hx
    -- A variable goes from both differences or from neither, since the counts agree up to what
    -- there is to take.
    by_cases hys : x ∈ ys
    · have hzs : x ∈ zs := by
        have := List.count_pos_iff.2 hys
        exact List.count_pos_iff.1 (by omega)
      rw [List.cons_diff_of_mem hys, List.cons_diff_of_mem hzs]
      apply ih
      intro y hy
      have hy' := h y (List.mem_cons_of_mem x hy)
      by_cases heq : y = x
      · subst heq
        rw [List.count_erase_self, List.count_erase_self]
        omega
      · rw [List.count_cons_of_ne (Ne.symm heq)] at hy'
        rwa [List.count_erase_of_ne heq, List.count_erase_of_ne heq]
    · have hzs : x ∉ zs := by
        intro hmem
        have := List.count_pos_iff.2 hmem
        rw [List.count_eq_zero_of_not_mem hys] at hx
        omega
      rw [List.cons_diff_of_not_mem hys, List.cons_diff_of_not_mem hzs]
      congr 1
      apply ih
      intro y hy
      have hy' := h y (List.mem_cons_of_mem x hy)
      by_cases heq : y = x
      · subst heq
        rw [List.count_eq_zero_of_not_mem hys, List.count_eq_zero_of_not_mem hzs]
      · rwa [List.count_cons_of_ne (Ne.symm heq)] at hy'

/-- A denominator gets the same whether another one comes before it or not, if no variable is
disputed between the two. -/
theorem diff_diff_of_undisputed {names others vs : List String}
    (h : ∀ x ∈ vs, x ∈ names → x ∈ others → names.count x + others.count x ≤ vs.count x) :
    names.diff (vs.diff others) = names.diff vs := by
  apply diff_congr
  intro x hx
  rw [List.count_diff]
  by_cases hvs : x ∈ vs
  · -- Where both denominators have the variable, there is enough of it for both.
    by_cases hothers : x ∈ others
    · have := h x hvs hx hothers
      omega
    · rw [List.count_eq_zero_of_not_mem hothers, Nat.sub_zero]
  · rw [List.count_eq_zero_of_not_mem hvs, Nat.zero_sub]

/-- Two different quotients at the front, between which nothing is disputed, have enough of each
variable that both hold. -/
theorem count_add_count_le {vs : List String} {f g : Expr} {fs : List Expr} (hne : f ≠ g)
    (h : ∀ x, ¬ Disputed vs (f :: g :: fs) x) :
    ∀ x ∈ vs, x ∈ f.divisorNames → x ∈ g.divisorNames →
      f.divisorNames.count x + g.divisorNames.count x ≤ vs.count x := by
  intro x hx hf hg
  by_contra hlt
  refine h x ⟨hx, ?_, f, List.mem_cons_self, g, by simp, hne, hf, hg⟩
  rw [List.flatMap_cons, List.flatMap_cons, List.count_append, List.count_append]
  omega

/-! ## A pass over the quotients -/

/-- The order of the variables does not matter for what becomes of the quotients. -/
theorem cancelQuotients_names_perm {vs ws : List String} (h : vs.Perm ws) (fs : List Expr) :
    (cancelQuotients vs fs).1.Perm (cancelQuotients ws fs).1 ∧
      (cancelQuotients vs fs).2 = (cancelQuotients ws fs).2 := by
  induction fs generalizing vs ws with
  | nil => exact ⟨h, rfl⟩
  | cons f fs ih =>
    obtain ⟨hnames, hquotients⟩ := ih (h.diff_right f.divisorNames)
    rw [cancelQuotients_cons, cancelQuotients_cons, h.diff_left, hquotients]
    exact ⟨hnames, rfl⟩

/-- Where nothing is disputed the order of the quotients does not matter either. -/
theorem cancelQuotients_perm {fs gs : List Expr} (h : fs.Perm gs) {vs ws : List String}
    (hvs : vs.Perm ws) (hnone : ∀ x, ¬ Disputed vs fs x) :
    (cancelQuotients vs fs).1.Perm (cancelQuotients ws gs).1 ∧
      (cancelQuotients vs fs).2.Perm (cancelQuotients ws gs).2 := by
  induction h generalizing vs ws with
  | nil => exact ⟨hvs, List.Perm.nil⟩
  | cons f _ ih =>
    have htail := ih (hvs.diff_right f.divisorNames) fun x hx => hnone x hx.of_tail
    rw [cancelQuotients_cons, cancelQuotients_cons, hvs.diff_left]
    exact ⟨htail.1, htail.2.cons _⟩
  | swap f g fs =>
    -- After both have taken their variables, the same is left for the quotients behind them.
    have hrest : ((vs.diff g.divisorNames).diff f.divisorNames).Perm
        ((ws.diff f.divisorNames).diff g.divisorNames) := by
      rw [← List.diff_append, ← List.diff_append, List.perm_append_comm.diff_left]
      exact hvs.diff_right _
    obtain ⟨hnames, hquotients⟩ := cancelQuotients_names_perm hrest fs
    simp only [cancelQuotients_cons]
    refine ⟨hnames, ?_⟩
    rw [hquotients]
    -- The same quotient twice: the exchange does nothing.
    by_cases hne : g = f
    · subst hne
      rw [hvs.diff_left, (hvs.diff_right g.divisorNames).diff_left]
    · have henough := count_add_count_le hne hnone
      -- Two quotients take variables without getting in the way of each other, as none is disputed.
      have hg : g.divisorNames.diff (ws.diff f.divisorNames) = g.divisorNames.diff vs := by
        rw [← (hvs.diff_right f.divisorNames).diff_left]
        exact diff_diff_of_undisputed henough
      have hf : f.divisorNames.diff (vs.diff g.divisorNames) = f.divisorNames.diff ws := by
        rw [← hvs.diff_left]
        apply diff_diff_of_undisputed
        intro x hx hf hg
        rw [Nat.add_comm]
        exact henough x hx hg hf
      rw [hg, hf]
      exact List.Perm.swap _ _ _
  | trans hfg _ ih₁ ih₂ =>
    have h₁ := ih₁ (List.Perm.refl vs) hnone
    have h₂ := ih₂ hvs fun x hx => hnone x (hx.perm (List.Perm.refl vs) hfg.symm)
    exact ⟨h₁.1.trans h₂.1, h₁.2.trans h₂.2⟩

/-! ## Products that differ in the order of their parts -/

/-- Products with the same coefficient, the same variables and the same quotients, each in some
order. -/
structure Similar (p q : Factors) : Prop where
  coefficient : p.coefficient = q.coefficient
  names : p.names.Perm q.names
  quotients : p.quotients.Perm q.quotients

theorem Similar.refl (p : Factors) : Similar p p :=
  ⟨rfl, List.Perm.refl _, List.Perm.refl _⟩

theorem Similar.trans {p q r : Factors} (hpq : Similar p q) (hqr : Similar q r) : Similar p r :=
  ⟨hpq.coefficient.trans hqr.coefficient, hpq.names.trans hqr.names,
    hpq.quotients.trans hqr.quotients⟩

/-- Similar products stay so with a further factor. -/
theorem Similar.times {p q : Factors} (h : Similar p q) (e : Expr) :
    Similar (p.times e) (q.times e) := by
  obtain ⟨c, vs, fs, he⟩ := exists_times e
  rw [he, he]
  exact ⟨congrArg (· * c) h.coefficient, h.names.append_right vs, h.quotients.append_right fs⟩

/-- Two factors may be multiplied in either order. -/
theorem similar_times_comm (p : Factors) (a b : Expr) :
    Similar ((p.times a).times b) ((p.times b).times a) := by
  obtain ⟨c, vs, fs, ha⟩ := exists_times a
  obtain ⟨d, ws, gs, hb⟩ := exists_times b
  rw [hb (p.times a), ha p, ha (p.times b), hb p]
  refine ⟨mul_right_comm _ c d, ?_, ?_⟩ <;> simp only
  · rw [List.append_assoc, List.append_assoc]
    exact List.perm_append_comm.append_left p.names
  · rw [List.append_assoc, List.append_assoc]
    exact List.perm_append_comm.append_left p.quotients

/-- Similar products stay so with further quotients. -/
theorem Similar.foldl {p q : Factors} (h : Similar p q) (fs : List Expr) :
    Similar (fs.foldl timesQuotient p) (fs.foldl timesQuotient q) := by
  induction fs generalizing p q with
  | nil => exact h
  | cons f fs ih =>
    obtain ⟨e, he⟩ := exists_timesQuotient f
    rw [List.foldl_cons, List.foldl_cons, he, he]
    exact ih (h.times e)

/-- Quotients may be multiplied in any order, up to similarity. -/
theorem similar_foldl_of_perm {fs gs : List Expr} (h : fs.Perm gs) (p : Factors) :
    Similar (fs.foldl timesQuotient p) (gs.foldl timesQuotient p) := by
  induction h generalizing p with
  | nil => exact Similar.refl p
  | cons f _ ih => exact ih (p.timesQuotient f)
  | swap f g fs =>
    obtain ⟨a, ha⟩ := exists_timesQuotient g
    obtain ⟨b, hb⟩ := exists_timesQuotient f
    simp only [List.foldl_cons, ha, hb]
    exact (similar_times_comm p a b).foldl fs
  | trans _ _ ih₁ ih₂ => exact (ih₁ p).trans (ih₂ p)

/-! ## Putting in order -/

/-- Sorting the variables forgets their order. -/
theorem mergeSort_names_of_perm {vs ws : List String} (h : vs.Perm ws) :
    vs.mergeSort (fun x y => decide (x ≤ y)) = ws.mergeSort fun x y => decide (x ≤ y) := by
  have hsorted : ∀ xs : List String,
      (xs.mergeSort fun x y => decide (x ≤ y)).Pairwise (· ≤ ·) :=
    fun xs => pairwise_names_ordered ⟨1, xs, []⟩
  refine List.Perm.eq_of_pairwise ?_ (hsorted vs) (hsorted ws) ?_
  · intro x y _ _ hxy hyx
    exact String.le_antisymm hxy hyx
  · exact (List.mergeSort_perm vs _).trans (h.trans (List.mergeSort_perm ws _).symm)

/-- Sorting the quotients forgets their order, as the canonical order tells all expressions apart.
-/
theorem sortList_of_perm {fs gs : List Expr} (h : fs.Perm gs) : sortList fs = sortList gs := by
  -- Two sorted lists with the same members are equal, because the order is antisymmetric.
  refine List.Perm.eq_of_pairwise ?_ (pairwise_sortList fs) (pairwise_sortList gs) ?_
  · intro f g _ _ hfg hgf
    rcases Keyed.le_iff.1 hfg with hlt | heq
    · rcases Keyed.le_iff.1 hgf with hgt | heq
      · have hself := Keyed.cmp_trans hlt hgt
        rw [Keyed.cmp_eq_iff.2 rfl] at hself
        cases hself
      · exact congrArg Keyed.expr heq.symm
    · exact congrArg Keyed.expr heq
  · exact (sortList_perm fs).trans (h.trans (sortList_perm gs).symm)

/-- Products that differ in the order of their parts are the same when they are in order. -/
theorem Similar.ordered {p q : Factors} (h : Similar p q) : p.ordered = q.ordered := by
  rw [Factors.ordered, Factors.ordered, h.coefficient, mergeSort_names_of_perm h.names,
    sortList_of_perm h.quotients]

/-! ## The order of the variables -/

/-- The quotients after a further factor depend on those before. -/
theorem quotients_times_congr {p q : Factors} (h : p.quotients = q.quotients) (e : Expr) :
    (p.times e).quotients = (q.times e).quotients := by
  obtain ⟨c, vs, fs, he⟩ := exists_times e
  rw [he, he]
  exact congrArg (· ++ fs) h

theorem quotients_foldl_congr {p q : Factors} (h : p.quotients = q.quotients) (fs : List Expr) :
    (fs.foldl timesQuotient p).quotients = (fs.foldl timesQuotient q).quotients := by
  induction fs generalizing p q with
  | nil => exact h
  | cons f fs ih =>
    obtain ⟨e, he⟩ := exists_timesQuotient f
    rw [List.foldl_cons, List.foldl_cons, he, he]
    exact ih (quotients_times_congr h e)

/-- If one pass leaves similar products of the same parts, cancelling goes on alike. -/
theorem Similar.cancelled {p q : Factors} (h : Similar p q)
    (hnames : (cancelQuotients p.names p.quotients).1.Perm (cancelQuotients q.names q.quotients).1)
    (hquotients :
      (cancelQuotients p.names p.quotients).2.Perm (cancelQuotients q.names q.quotients).2) :
    p.cancels = q.cancels ∧ Similar p.cancelled q.cancelled := by
  constructor
  · rw [cancels, cancels, hnames.length_eq, h.names.length_eq]
  · have hstart : Similar ⟨p.coefficient, (cancelQuotients p.names p.quotients).1, []⟩
        ⟨q.coefficient, (cancelQuotients q.names q.quotients).1, []⟩ :=
      ⟨h.coefficient, hnames, List.Perm.refl _⟩
    exact (hstart.foldl _).trans (similar_foldl_of_perm hquotients _)

/-- Where the quotients stand in the same order, a round of cancelling does the same to similar
products. -/
theorem Similar.cancelled_of_quotients_eq {p q : Factors} (h : Similar p q)
    (hquotients : p.quotients = q.quotients) :
    p.cancels = q.cancels ∧ Similar p.cancelled q.cancelled ∧
      p.cancelled.quotients = q.cancelled.quotients := by
  obtain ⟨hnames, hleft⟩ : (cancelQuotients p.names p.quotients).1.Perm
        (cancelQuotients q.names q.quotients).1 ∧
      (cancelQuotients p.names p.quotients).2 = (cancelQuotients q.names q.quotients).2 := by
    rw [hquotients]
    exact cancelQuotients_names_perm h.names q.quotients
  obtain ⟨hcancels, hcancelled⟩ := h.cancelled hnames (List.Perm.of_eq hleft)
  refine ⟨hcancels, hcancelled, ?_⟩
  rw [Factors.cancelled, Factors.cancelled, hleft]
  apply quotients_foldl_congr
  rfl

/-- Products with the same quotients, in the same order, are reduced to the same product. -/
theorem Similar.reduce_of_quotients_eq {p q : Factors} (h : Similar p q)
    (hquotients : p.quotients = q.quotients) : p.reduce = q.reduce := by
  fun_induction reduce p generalizing q with
  | case1 p hp ih =>
    obtain ⟨hcancels, hcancelled, hleft⟩ := h.cancelled_of_quotients_eq hquotients
    rw [reduce.eq_def q, dif_pos (hcancels.symm.trans hp)]
    exact ih hcancelled hleft
  | case2 p hp =>
    obtain ⟨hcancels, _⟩ := h.cancelled_of_quotients_eq hquotients
    rw [reduce.eq_def q, dif_neg (hcancels ▸ hp)]
    exact h.ordered

/-- Such products multiply out to the same, and not only to the same coefficients. -/
theorem Similar.expand_of_quotients_eq {p q : Factors} (h : Similar p q)
    (hquotients : p.quotients = q.quotients) (sums : List (List Expr)) :
    p.expand sums = q.expand sums := by
  induction sums generalizing p q with
  | nil => rw [expand, expand, h.reduce_of_quotients_eq hquotients]
  | cons addends sums ih =>
    have hsame : ∀ e, (p.times e).expand sums = (q.times e).expand sums :=
      fun e => ih (h.times e) (quotients_times_congr hquotients e)
    simp only [expand, hsame]

/-- Gathering factors keeps the order of the quotients. -/
theorem Similar.gather_of_quotients_eq {p q : Factors} (h : Similar p q)
    (hquotients : p.quotients = q.quotients) (es : List Expr) :
    Similar (gather p es).1 (gather q es).1 ∧
      (gather p es).1.quotients = (gather q es).1.quotients := by
  induction es generalizing p q with
  | nil => exact ⟨h, hquotients⟩
  | cons e es ih =>
    have hrest := ih (h.times e) (quotients_times_congr hquotients e)
    cases e with
    | sum addends => exact ih h hquotients
    | product c vs fs => exact hrest
    | fraction n d => exact hrest

/-! ## The order of the quotients -/

/-- In the whole run of cancelling no variable is ever disputed. -/
inductive Undisputed : Factors → Prop
  | intro {p : Factors} (now : ∀ x, ¬ Disputed p.names p.quotients x)
      (next : p.cancels = true → p.cancelled.Undisputed) : p.Undisputed

/-- Where nothing is disputed, a round of cancelling keeps products similar, whatever the order of
their quotients. -/
theorem Similar.cancelled_of_undisputed {p q : Factors} (h : Similar p q)
    (hnone : ∀ x, ¬ Disputed p.names p.quotients x) :
    p.cancels = q.cancels ∧ Similar p.cancelled q.cancelled := by
  obtain ⟨hnames, hquotients⟩ := cancelQuotients_perm h.quotients h.names hnone
  exact h.cancelled hnames hquotients

/-- Similar products are undisputed together, along all rounds. -/
theorem Similar.undisputed {p q : Factors} (h : Similar p q) (hp : p.Undisputed) :
    q.Undisputed := by
  induction hp generalizing q with
  | @intro p now next ih =>
    obtain ⟨hcancels, hcancelled⟩ := h.cancelled_of_undisputed now
    refine Undisputed.intro ?_ ?_
    · intro x hx
      exact now x (hx.perm h.names.symm h.quotients.symm)
    · intro hq
      exact ih (hcancels.trans hq) hcancelled

/-- Where nothing is ever disputed, a product is reduced to the same one in every order. -/
theorem Similar.reduce_of_undisputed {p q : Factors} (h : Similar p q) (hp : p.Undisputed) :
    p.reduce = q.reduce := by
  induction hp generalizing q with
  | @intro p now next ih =>
    obtain ⟨hcancels, hcancelled⟩ := h.cancelled_of_undisputed now
    by_cases hp : p.cancels = true
    · rw [reduce.eq_def p, dif_pos hp, reduce.eq_def q, dif_pos (hcancels.symm.trans hp)]
      exact ih hp hcancelled
    · rw [reduce.eq_def p, dif_neg hp, reduce.eq_def q, dif_neg (hcancels ▸ hp)]
      exact h.ordered

/-! ## The order of the sums -/

/-- However one addend of each sum joins a product, no variable is ever disputed, unless the
coefficient becomes zero. -/
def UndisputedOver (p : Factors) : List (List Expr) → Prop
  | [] => p.coefficient ≠ 0 → p.Undisputed
  | addends :: sums => ∀ e ∈ addends, (p.times e).UndisputedOver sums

/-- The same while sums are distributed. -/
theorem UndisputedOver.similar {p q : Factors} {sums : List (List Expr)}
    (hp : p.UndisputedOver sums) (h : Similar p q) : q.UndisputedOver sums := by
  induction sums generalizing p q with
  | nil =>
    intro hq
    exact h.undisputed (hp (h.coefficient ▸ hq))
  | cons addends sums ih =>
    intro e he
    exact ih (hp e he) (h.times e)

/-- Distributing over the sums in another order disputes nothing else. -/
theorem UndisputedOver.perm {sums sums' : List (List Expr)} (hsums : sums.Perm sums')
    {p : Factors} (hp : p.UndisputedOver sums) : p.UndisputedOver sums' := by
  induction hsums generalizing p with
  | nil => exact hp
  | cons addends _ ih =>
    intro e he
    exact ih (hp e he)
  | swap as bs sums =>
    intro a ha b hb
    exact (hp b hb a ha).similar (similar_times_comm p b a)
  | trans _ _ ih₁ ih₂ => exact ih₂ (ih₁ hp)

/-- Similar products without disputes multiply out to the same coefficients. -/
theorem Similar.coefficients_expand {p q : Factors} (h : Similar p q) {sums : List (List Expr)}
    (hp : p.UndisputedOver sums) : (p.expand sums).coefficients = (q.expand sums).coefficients := by
  induction sums generalizing p q with
  | nil =>
    -- A product with coefficient zero vanishes on both sides, and may be disputed.
    by_cases hzero : p.coefficient = 0
    · rw [coefficients_expand_eq_zero hzero, coefficients_expand_eq_zero (h.coefficient ▸ hzero)]
    · rw [coefficients_expand_nil, coefficients_expand_nil, h.reduce_of_undisputed (hp hzero)]
  | cons addends sums ih =>
    rw [coefficients_expand_cons, coefficients_expand_cons]
    congr 1
    apply List.map_congr_left
    intro e he
    exact ih (h.times e) (hp e he)

/-- Where nothing is ever disputed, sums may be multiplied out in any order. -/
theorem coefficients_expand_perm {sums sums' : List (List Expr)} (h : sums.Perm sums')
    {p : Factors} (hp : p.UndisputedOver sums) :
    (p.expand sums).coefficients = (p.expand sums').coefficients := by
  induction h generalizing p with
  | nil => rfl
  | cons addends _ ih =>
    rw [coefficients_expand_cons, coefficients_expand_cons]
    congr 1
    apply List.map_congr_left
    intro e he
    exact ih (hp e he)
  | swap as bs sums =>
    -- The double sum over the addends of two neighbours may be taken in either order.
    have hswap := Multiset.sum_map_sum_map (bs : Multiset Expr) (as : Multiset Expr)
      (f := fun b a => (((p.times b).times a).expand sums).coefficients)
    simp only [Multiset.map_coe, Multiset.sum_coe] at hswap
    simp only [coefficients_expand_cons]
    rw [hswap]
    congr 1
    apply List.map_congr_left
    intro a ha
    congr 1
    apply List.map_congr_left
    intro b hb
    exact (similar_times_comm p b a).coefficients_expand (hp b hb a ha)
  | trans h₁ _ ih₁ ih₂ => rw [ih₁ hp, ih₂ (hp.perm h₁)]

end Factors

/-! ## The order of factors -/

namespace Expr

/-- The order of the variables of a product does not matter. -/
theorem multiply_names_perm (c : Rat) {vs ws : List String} (h : vs.Perm ws) (es : List Expr) :
    multiply c vs es = multiply c ws es := by
  have hsimilar : Factors.Similar ⟨c, vs, []⟩ ⟨c, ws, []⟩ := ⟨rfl, h, List.Perm.refl _⟩
  obtain ⟨hgather, hquotients⟩ := hsimilar.gather_of_quotients_eq rfl es
  rw [multiply, multiply]
  simp only [hgather.coefficient, Factors.gather_snd, hgather.expand_of_quotients_eq hquotients]

/-- Nor does the order of the factors, if no variable is ever disputed. -/
theorem multiply_perm (c : Rat) (vs : List String) {es fs : List Expr} (h : es.Perm fs)
    (hes : ∀ e ∈ es, e.Canonical)
    (hp : Factors.UndisputedOver ⟨c, vs, []⟩ (es.map addends)) :
    multiply c vs es = multiply c vs fs := by
  have hfs : ∀ f ∈ fs, f.Canonical := fun f hf => hes f (h.mem_iff.2 hf)
  have hleft := Factors.singles_append_distributed es
  have hright := Factors.singles_append_distributed fs
  apply (canonical_multiply c vs hes).ext_coefficients (canonical_multiply c vs hfs)
  rw [coefficients_multiply c vs hes, coefficients_multiply c vs hfs]
  exact Factors.coefficients_expand_perm (hleft.trans ((h.map addends).trans hright.symm))
    (hp.perm hleft.symm)

/-- The order of the variables of a product never matters to its normal form. The order of its
factors does not matter either, if no variable is ever disputed. -/
theorem normalize_product_perm (c : Rat) {vs ws : List String} (hvs : vs.Perm ws)
    (fs : List Expr) :
    (product c ws fs).normalize = (product c vs fs).normalize ∧
      ∀ gs, fs.Perm gs →
        Factors.UndisputedOver ⟨c, vs, []⟩ (fs.map fun f => f.normalize.addends) →
        (product c ws gs).normalize = (product c vs fs).normalize := by
  simp only [normalize, normalizeList_eq]
  constructor
  · rw [multiply_names_perm c hvs]
  · intro gs hfs hundisputed
    have hcanonical : ∀ e ∈ fs.map normalize, e.Canonical :=
      List.forall_mem_map.2 fun f _ => canonical_normalize f
    have hover : Factors.UndisputedOver ⟨c, vs, []⟩ ((fs.map normalize).map addends) := by
      rwa [List.map_map]
    -- First the variables are put in order, which is always possible, and then the factors.
    rw [← multiply_names_perm c hvs, multiply_perm c vs (hfs.map normalize) hcanonical hover]

/-- Two quotients that take one variable each, one of them in a sum, in two orders. -/
theorem normalize_product_perm_of_two_quotients :
    ["y", "x"].Perm ["x", "y"] ∧
      (product 2 ["x", "y"]
          [fraction one (var "y"), sum [one, fraction one (var "x")]]).normalize =
        (product 2 ["y", "x"]
          [sum [one, fraction one (var "x")], fraction one (var "y")]).normalize := by
  have hvs : ["y", "x"].Perm ["x", "y"] := List.Perm.swap _ _ _
  refine ⟨hvs, (normalize_product_perm 2 hvs _).2 _ (List.Perm.swap _ _ _) ?_⟩
  have hsum : (sum [one, fraction one (var "x")]).normalize.addends =
      [one, fraction one (var "x")] := by cbv
  have hquotient : (fraction one (var "y")).normalize.addends = [fraction one (var "y")] := by cbv
  simp only [List.map_cons, List.map_nil, hsum, hquotient]
  -- Both products that come out of the sum have enough of each variable.
  rintro e he e' he' -
  rw [List.mem_singleton.1 he']
  simp only [List.mem_cons, List.not_mem_nil, or_false] at he
  rcases he with rfl | rfl
  · refine .intro (Factors.not_disputed_of_count_le (by decide)) fun _ =>
      .intro (Factors.not_disputed_of_count_le (by decide)) ?_
    intro h
    exact absurd h (by decide)
  · refine .intro (Factors.not_disputed_of_count_le (by decide)) fun _ =>
      .intro (Factors.not_disputed_of_count_le (by decide)) ?_
    intro h
    exact absurd h (by decide)

/-- A variable that two denominators dispute: the first quotient in the product takes it. -/
theorem normalize_disputed_variable :
    (product 1 ["x"]
        [fraction one (var "x"), fraction one (product 1 ["x", "x"] [])]).normalize =
        fraction one (product 1 ["x", "x"] []) ∧
      (product 1 ["x"]
        [fraction one (product 1 ["x", "x"] []), fraction one (var "x")]).normalize =
        product 1 [] [fraction one (var "x"), fraction one (var "x")] := by
  constructor <;> cbv

end Expr

end RationalAlgebra
