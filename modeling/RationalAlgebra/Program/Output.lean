/-!
# What a program puts out

The lines that a program writes to its two channels, and its exit code.
-/

namespace RationalAlgebra.Program

/-- The output of a program that has ended. -/
structure Output where
  lines : List String
  errors : List String
  exitCode : Nat

namespace Output

/-- Lines on the first channel, and success. -/
def success (lines : List String) : Output :=
  ⟨lines, [], 0⟩

/-- The lines that a channel shows; a text with line feeds in it is shown as several. -/
def shown (lines : List String) : List String :=
  lines.flatMap fun line => (line.toList.splitOn '\n').map String.ofList

end Output

end RationalAlgebra.Program
