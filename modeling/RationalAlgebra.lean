import RationalAlgebra.Equation.Report
import RationalAlgebra.Expr.Operator
import RationalAlgebra.Main
import RationalAlgebra.Normal.Rewriting
import RationalAlgebra.Proofs.Equation.Decision
import RationalAlgebra.Proofs.Equation.Failure
import RationalAlgebra.Proofs.Equation.Isolable
import RationalAlgebra.Proofs.Equation.Linear
import RationalAlgebra.Proofs.Equation.Multiples
import RationalAlgebra.Proofs.Equation.Order
import RationalAlgebra.Proofs.Equation.Rows
import RationalAlgebra.Proofs.Equation.Solution
import RationalAlgebra.Proofs.Equation.Steps
import RationalAlgebra.Proofs.Equation.Underdetermined
import RationalAlgebra.Proofs.Expr.Grammar
import RationalAlgebra.Proofs.Expr.Remainder
import RationalAlgebra.Proofs.Expr.Substitution
import RationalAlgebra.Proofs.Hailstone.Counting
import RationalAlgebra.Proofs.Hailstone.Throw
import RationalAlgebra.Proofs.Linear.Elimination
import RationalAlgebra.Proofs.Linear.Matrix
import RationalAlgebra.Proofs.Normal.Canonical
import RationalAlgebra.Proofs.Normal.FactorOrder
import RationalAlgebra.Proofs.Normal.LinearCombination
import RationalAlgebra.Proofs.Normal.QuotientCoefficients
import RationalAlgebra.Proofs.Normal.Termination
import RationalAlgebra.Proofs.Program.Unknowns
