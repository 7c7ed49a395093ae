/-!
# Expressions

An expression is a sum of expressions, a product of a rational constant, some variables and some
further factors, or a quotient of two expressions. Constants and variables are degenerate products:
a constant has no variables and no factors, a variable has the constant one and no factors. Nothing
is simplified when an expression is built.

The queries that look for variables all read one list, `Expr.occurrences`, in which every
occurrence of a variable stands at its place in the tree.
-/

namespace RationalAlgebra

/-- A sum, a product with a rational constant, or a quotient. -/
inductive Expr where
  | sum (addends : List Expr)
  | product (constant : Rat) (names : List String) (factors : List Expr)
  | fraction (numerator denominator : Expr)

namespace Expr

/-! ## Building -/

/-- A rational as an expression. -/
def const (value : Rat) : Expr :=
  product value [] []

/-- A variable as an expression. -/
def var (name : String) : Expr :=
  product 1 [name] []

/-- The constant zero. -/
def zero : Expr :=
  const 0

/-- The constant one. -/
def one : Expr :=
  const 1

/-- The product of some factors. -/
def prod (factors : List Expr) : Expr :=
  product 1 [] factors

/-- The negative of an expression. -/
def neg (e : Expr) : Expr :=
  product (-1) [] [e]

/-- The difference of two expressions. -/
def sub (a b : Expr) : Expr :=
  sum [a, neg b]

/-- A multiple of an expression. The constant of a product takes the factor up; anything else
becomes the only factor of a new product. -/
def scaled (k : Rat) : Expr → Expr
  | product c vs fs => product (c * k) vs fs
  | e => product k [] [e]

/-! ## Reading -/

/-- The value of a constant. -/
def asConstant? : Expr → Option Rat
  | product c [] [] => some c
  | _ => none

/-- The name of a variable that stands alone. -/
def asVariable? : Expr → Option String
  | product c [x] [] => if c = 1 then some x else none
  | _ => none

/-- Whether an expression is the constant zero. -/
def isZero (e : Expr) : Bool :=
  e.asConstant? == some 0

/-- Whether an expression is the constant one. -/
def isOne (e : Expr) : Bool :=
  e.asConstant? == some 1

/-- Whether a product has neither variables nor factors; nothing is answered of a sum or a
quotient. -/
def isBareProduct? : Expr → Option Bool
  | product _ vs fs => some (vs.isEmpty && fs.isEmpty)
  | _ => none

/-! ## Variables -/

mutual

/-- Every occurrence of a variable, from left to right. The variables of a product stand before
those of its factors, and a numerator before its denominator. -/
def occurrences : Expr → List String
  | sum addends => occurrencesList addends
  | product _ vs fs => vs ++ occurrencesList fs
  | fraction n d => n.occurrences ++ d.occurrences

/-- The occurrences in a list of expressions, one after another. -/
def occurrencesList : List Expr → List String
  | [] => []
  | e :: es => e.occurrences ++ occurrencesList es

end

/-- Whether a variable occurs in an expression. -/
def mentions (e : Expr) (name : String) : Bool :=
  e.occurrences.contains name

/-- The first variable of an expression, from left to right. -/
def firstVariable? (e : Expr) : Option String :=
  e.occurrences.head?

/-- Put a name at its place among names in increasing order, unless it is there. -/
def insertName (name : String) : List String → List String
  | [] => [name]
  | n :: rest =>
    if name < n then name :: n :: rest
    else if name = n then n :: rest
    else n :: insertName name rest

/-- The variables of an expression, each once, in increasing order. -/
def variableNames (e : Expr) : List String :=
  e.occurrences.foldr insertName []

/-! ## Size and degree -/

mutual

/-- The number of nodes, where each variable of a product and each constant other than one count
as a node too. -/
def size : Expr → Nat
  | sum addends => 1 + sizeList addends
  -- The constant one is not written, and does not count.
  | product c vs fs => 1 + (if c = 1 then 0 else 1) + vs.length + sizeList fs
  | fraction n d => 1 + n.size + d.size

/-- The sizes of a list of expressions, added up. -/
def sizeList : List Expr → Nat
  | [] => 0
  | e :: es => e.size + sizeList es

end

mutual

/-- The number of variables and quotients that are multiplied with each other. Of a sum it is the
largest among its addends; a quotient counts one more than its two parts. -/
def degree : Expr → Nat
  | sum addends => degreeMax addends
  | product _ vs fs => vs.length + degreeSum fs
  | fraction n d => 1 + n.degree + d.degree

/-- The largest of some degrees. -/
def degreeMax : List Expr → Nat
  | [] => 0
  | e :: es => max e.degree (degreeMax es)

/-- The sum of some degrees. -/
def degreeSum : List Expr → Nat
  | [] => 0
  | e :: es => e.degree + degreeSum es

end

/-- An addend is smaller than its sum. -/
theorem size_lt_of_mem {e : Expr} {addends : List Expr} (h : e ∈ addends) :
    e.size < (sum addends).size := by
  have hle : e.size ≤ sizeList addends := by
    induction addends with
    | nil => simp at h
    | cons a rest ih =>
      rw [sizeList]
      -- Either the addend is the first, or it is smaller than the others together.
      rcases List.mem_cons.1 h with rfl | h
      · omega
      · have := ih h
        omega
  rw [size]
  omega

/-- A largest degree is bounded exactly if every degree is. -/
theorem degreeMax_le_iff {es : List Expr} {n : Nat} :
    degreeMax es ≤ n ↔ ∀ e ∈ es, e.degree ≤ n := by
  induction es with
  | nil => simp [degreeMax]
  | cons e es ih => rw [degreeMax, Nat.max_le, ih, List.forall_mem_cons]

/-- An addend has no larger degree than its sum. -/
theorem degree_le_of_mem {e : Expr} {addends : List Expr} (h : e ∈ addends) :
    e.degree ≤ (sum addends).degree :=
  degreeMax_le_iff.1 (Nat.le_of_eq (by rw [degree])) e h

/-- Degrees add up over two lists, as those of the factors of a product do. -/
theorem degreeSum_append (es fs : List Expr) :
    degreeSum (es ++ fs) = degreeSum es + degreeSum fs := by
  induction es with
  | nil => simp [degreeSum]
  | cons e es ih => simp [degreeSum, ih, Nat.add_assoc]

/-- The order of factors does not change their degree. -/
theorem degreeSum_perm {es fs : List Expr} (h : es.Perm fs) : degreeSum es = degreeSum fs := by
  induction h with
  | nil => rfl
  | cons e _ ih => simp [degreeSum, ih]
  | swap a b es => simp only [degreeSum]; omega
  | trans _ _ ih₁ ih₂ => exact ih₁.trans ih₂

end Expr

end RationalAlgebra
