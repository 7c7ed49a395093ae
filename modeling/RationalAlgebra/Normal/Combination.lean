import RationalAlgebra.Normal.Keyed

/-!
# Linear combinations of monomials

A monomial is a product without a coefficient, or a quotient; a linear combination gives nonzero
coefficients to finitely many monomials. It is kept as the list of its terms in canonical order, so
equal combinations are equal lists, and adding terms in another order gives the same combination.
The constant of a sum is the coefficient of the monomial one, which comes first.

Main definitions: `Expr.split` and `Expr.ofTerm` go between a term and its coefficient and monomial;
`Combination.ofExprs` adds up expressions whose addends are terms, `Combination.toExpr` writes a
combination as a sum.
-/

namespace RationalAlgebra

/-! ## Terms -/

namespace Expr

/-- The product of some variables and factors, without a coefficient. A single factor stands for
itself. -/
def monomial (vs : List String) (fs : List Expr) : Expr :=
  match vs, fs with
  | [], [f] => f
  | vs, fs => product 1 vs fs

/-- The coefficient and the monomial of a term. -/
def split : Expr → Rat × Expr
  | product c vs fs => (c, monomial vs fs)
  | e => (1, e)

/-- The term with this coefficient and monomial. -/
def ofTerm (c : Rat) : Expr → Expr
  | product _ vs fs => product c vs fs
  | e => if c = 1 then e else product c [] [e]

/-- Making a monomial changes no degree, also where a single factor stands for itself. -/
theorem degree_monomial (vs : List String) (fs : List Expr) :
    (monomial vs fs).degree = vs.length + degreeSum fs := by
  unfold monomial
  split
  · simp [degreeSum]
  · rw [degree]

theorem degree_split (e : Expr) : e.split.2.degree = e.degree := by
  unfold split
  split
  · rw [degree_monomial, degree]
  · rfl

/-- A coefficient adds no degree. -/
theorem degree_ofTerm (c : Rat) (m : Expr) : (ofTerm c m).degree = m.degree := by
  unfold ofTerm
  split
  · simp [degree]
  · split
    · rfl
    · simp [degree, degreeSum]

/-- The monomial of a term is no larger than the term. -/
theorem size_split_le (e : Expr) : e.split.2.size ≤ e.size := by
  -- A single factor stands for itself, without the node of its product; else only the constant
  -- changes.
  unfold split
  split
  · unfold monomial
    split
    · simp only [size, sizeList]
      omega
    · simp only [size, ↓reduceIte]
      omega
  · exact Nat.le_refl _

/-- The monomial is smaller where the coefficient is written, which it is unless it is one. -/
theorem size_split_lt {e : Expr} (h : e.split.1 ≠ 1) : e.split.2.size < e.size := by
  unfold split at h ⊢
  split at h
  · simp only at h ⊢
    unfold monomial
    split
    · simp only [size, sizeList, List.length_nil]
      omega
    · simp only [size, if_neg h, ↓reduceIte]
      omega
  · exact absurd rfl h

end Expr

/-- A monomial with its coefficient. -/
structure Term where
  monomial : Keyed
  coefficient : Rat

/-- A term as an expression. -/
def Term.toExpr (t : Term) : Expr :=
  Expr.ofTerm t.coefficient t.monomial.expr

/-! ## Combinations -/

/-- Terms in canonical order, each monomial once, with nonzero coefficients. -/
structure Combination where
  terms : List Term
  sorted : terms.Pairwise fun s t => Keyed.cmp s.monomial t.monomial = .lt
  nonzero : ∀ t ∈ terms, t.coefficient ≠ 0

namespace Combination

/-- The combination without terms. -/
def empty : Combination :=
  ⟨[], List.Pairwise.nil, by simp⟩

/-- Put a term before others unless its coefficient is zero. -/
def consTerm (m : Keyed) (c : Rat) (terms : List Term) : List Term :=
  if c = 0 then terms else ⟨m, c⟩ :: terms

/-- Add a multiple of a monomial to terms in canonical order. -/
def insertTerm (m : Keyed) (c : Rat) : List Term → List Term
  | [] => consTerm m c []
  | t :: rest =>
    match Keyed.cmp m t.monomial with
    | .lt => consTerm m c (t :: rest)
    | .eq => consTerm m (t.coefficient + c) rest
    | .gt => t :: insertTerm m c rest

theorem mem_consTerm {m : Keyed} {c : Rat} {terms : List Term} {t : Term} :
    t ∈ consTerm m c terms ↔ (c ≠ 0 ∧ t = ⟨m, c⟩) ∨ t ∈ terms := by
  unfold consTerm
  split <;> simp_all

/-- An insertion brings in no monomial but its own. -/
theorem monomial_mem_insertTerm {m : Keyed} {c : Rat} {terms : List Term} {t : Term}
    (h : t ∈ insertTerm m c terms) : t.monomial = m ∨ ∃ s ∈ terms, t.monomial = s.monomial := by
  induction terms with
  | nil =>
    rcases mem_consTerm.1 h with ⟨_, rfl⟩ | h
    · exact Or.inl rfl
    · simp at h
  | cons s rest ih =>
    -- The monomial stands before the first term, at it or behind it, as the insertion found.
    rw [insertTerm] at h
    split at h
    · rcases mem_consTerm.1 h with ⟨_, rfl⟩ | h
      · exact Or.inl rfl
      · exact Or.inr ⟨t, h, rfl⟩
    · rcases mem_consTerm.1 h with ⟨_, rfl⟩ | h
      · exact Or.inl rfl
      · exact Or.inr ⟨t, List.mem_cons_of_mem _ h, rfl⟩
    · rcases List.mem_cons.1 h with rfl | h
      · exact Or.inr ⟨t, List.mem_cons_self, rfl⟩
      · rcases ih h with h | ⟨u, hu, h⟩
        · exact Or.inl h
        · exact Or.inr ⟨u, List.mem_cons_of_mem _ hu, h⟩

/-- No coefficient becomes zero: a term whose coefficient would be zero is left out. -/
theorem nonzero_insertTerm {m : Keyed} {c : Rat} {terms : List Term}
    (h : ∀ t ∈ terms, t.coefficient ≠ 0) : ∀ t ∈ insertTerm m c terms, t.coefficient ≠ 0 := by
  induction terms with
  | nil =>
    intro t ht
    rcases mem_consTerm.1 ht with ⟨hc, rfl⟩ | ht
    · exact hc
    · simp at ht
  | cons s rest ih =>
    intro t ht
    rw [insertTerm] at ht
    split at ht
    · rcases mem_consTerm.1 ht with ⟨hc, rfl⟩ | ht
      · exact hc
      · exact h t ht
    · rcases mem_consTerm.1 ht with ⟨hc, rfl⟩ | ht
      · exact hc
      · exact h t (List.mem_cons_of_mem _ ht)
    · rcases List.mem_cons.1 ht with rfl | ht
      · exact h t List.mem_cons_self
      · exact ih (fun u hu => h u (List.mem_cons_of_mem _ hu)) t ht

/-- A term may be put before terms that all come later. -/
theorem sorted_consTerm {m : Keyed} {c : Rat} {terms : List Term}
    (hm : ∀ t ∈ terms, Keyed.cmp m t.monomial = .lt)
    (h : terms.Pairwise fun s t => Keyed.cmp s.monomial t.monomial = .lt) :
    (consTerm m c terms).Pairwise fun s t => Keyed.cmp s.monomial t.monomial = .lt := by
  unfold consTerm
  split
  · exact h
  · exact List.Pairwise.cons hm h

/-- An insertion keeps the monomials in canonical order. -/
theorem sorted_insertTerm (m : Keyed) (c : Rat) {terms : List Term}
    (h : terms.Pairwise fun s t => Keyed.cmp s.monomial t.monomial = .lt) :
    (insertTerm m c terms).Pairwise fun s t => Keyed.cmp s.monomial t.monomial = .lt := by
  induction terms with
  | nil => exact sorted_consTerm (by simp) List.Pairwise.nil
  | cons s rest ih =>
    have hs := List.pairwise_cons.1 h
    rw [insertTerm]
    split
    · -- The monomial is the smallest.
      rename_i hlt
      refine sorted_consTerm (fun t ht => ?_) h
      rcases List.mem_cons.1 ht with rfl | ht
      · exact hlt
      · exact Keyed.cmp_trans hlt (hs.1 t ht)
    · -- The monomial is there already, and keeps its place.
      rename_i heq
      rw [Keyed.cmp_eq_iff.1 heq]
      exact sorted_consTerm hs.1 hs.2
    · -- The first term comes before the rest, and before the monomial that is added.
      rename_i hgt
      refine List.Pairwise.cons (fun t ht => ?_) (ih hs.2)
      rcases monomial_mem_insertTerm ht with h | ⟨u, hu, h⟩
      · rw [h]
        exact Keyed.cmp_eq_gt_iff.1 hgt
      · rw [h]
        exact hs.1 u hu

/-- Add a multiple of a monomial. -/
def insert (a : Combination) (m : Keyed) (c : Rat) : Combination :=
  ⟨insertTerm m c a.terms, sorted_insertTerm m c a.sorted, nonzero_insertTerm a.nonzero⟩

/-- Add a term. -/
def addTerm (a : Combination) (e : Expr) : Combination :=
  a.insert (.of e.split.2) e.split.1

/-- Add an expression: each of its addends, or the term that it is. -/
def addExpr (a : Combination) : Expr → Combination
  | .sum addends => addends.foldl addTerm a
  | e => a.addTerm e

/-- The sum of two combinations. -/
def add (a b : Combination) : Combination :=
  b.terms.foldl (fun acc t => acc.insert t.monomial t.coefficient) a

/-- The sum of some expressions. -/
def ofExprs (es : List Expr) : Combination :=
  es.foldl addExpr empty

/-- A combination as an expression: zero, one term, or a sum of several. -/
def toExpr (a : Combination) : Expr :=
  match a.terms.map Term.toExpr with
  | [] => .zero
  | [e] => e
  | es => .sum es

/-! ## Degrees -/

/-- No monomial of a combination exceeds a degree. -/
def DegreeLE (a : Combination) (n : Nat) : Prop :=
  ∀ t ∈ a.terms, t.monomial.expr.degree ≤ n

theorem degreeLE_empty (n : Nat) : empty.DegreeLE n := by
  simp [DegreeLE, empty]

/-- A monomial that does not exceed a degree may be added. -/
theorem DegreeLE.insert {a : Combination} {n : Nat} (h : a.DegreeLE n) {m : Keyed}
    (hm : m.expr.degree ≤ n) (c : Rat) : (a.insert m c).DegreeLE n := by
  intro t ht
  rcases monomial_mem_insertTerm ht with heq | ⟨s, hs, heq⟩
  · rw [heq]
    exact hm
  · rw [heq]
    exact h s hs

theorem DegreeLE.addTerm {a : Combination} {n : Nat} (h : a.DegreeLE n) {e : Expr}
    (he : e.degree ≤ n) : (a.addTerm e).DegreeLE n :=
  h.insert (by rw [Keyed.expr_of, Expr.degree_split]; exact he) _

/-- A bound that every step keeps holds after all steps. -/
theorem DegreeLE.foldl {α : Type} {n : Nat} {f : Combination → α → Combination} {xs : List α}
    (hf : ∀ a : Combination, ∀ x ∈ xs, a.DegreeLE n → (f a x).DegreeLE n) {a : Combination}
    (h : a.DegreeLE n) : (xs.foldl f a).DegreeLE n := by
  induction xs generalizing a with
  | nil => exact h
  | cons x xs ih =>
    exact ih (fun b y hy => hf b y (List.mem_cons_of_mem _ hy)) (hf a x List.mem_cons_self h)

/-- An expression that does not exceed a degree may be added. -/
theorem DegreeLE.addExpr {a : Combination} {n : Nat} (h : a.DegreeLE n) {e : Expr}
    (he : e.degree ≤ n) : (a.addExpr e).DegreeLE n := by
  unfold Combination.addExpr
  split
  · refine DegreeLE.foldl (fun b x hx hb => hb.addTerm ?_) h
    exact Nat.le_trans (Expr.degree_le_of_mem hx) he
  · exact h.addTerm he

/-- A sum of combinations keeps a common bound. -/
theorem DegreeLE.add {a b : Combination} {n : Nat} (ha : a.DegreeLE n) (hb : b.DegreeLE n) :
    (a.add b).DegreeLE n :=
  DegreeLE.foldl (fun _ t ht hc => hc.insert (hb t ht) _) ha

/-- Expressions that do not exceed a degree add up to a combination that does not. -/
theorem degreeLE_ofExprs {es : List Expr} {n : Nat} (h : ∀ e ∈ es, e.degree ≤ n) :
    (ofExprs es).DegreeLE n :=
  DegreeLE.foldl (fun _ e he hc => hc.addExpr (h e he)) (degreeLE_empty n)

/-- A bound on the monomials is one on the expression that is written from them. -/
theorem degree_toExpr_le {a : Combination} {n : Nat} (h : a.DegreeLE n) :
    a.toExpr.degree ≤ n := by
  have hall : ∀ e ∈ a.terms.map Term.toExpr, e.degree ≤ n := by
    intro e he
    obtain ⟨t, ht, rfl⟩ := List.mem_map.1 he
    rw [Term.toExpr, Expr.degree_ofTerm]
    exact h t ht
  -- The terms are none, one or several, and the expression is written accordingly.
  unfold toExpr
  split
  · simp [Expr.zero, Expr.const, Expr.degree, Expr.degreeSum]
  · rename_i e heq
    exact hall e (by rw [heq]; exact List.mem_cons_self)
  · rename_i es _ _
    rw [Expr.degree]
    exact Expr.degreeMax_le_iff.2 hall

end Combination

end RationalAlgebra
