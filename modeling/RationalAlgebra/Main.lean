import RationalAlgebra.Program.Elimination
import RationalAlgebra.Program.Hail
import RationalAlgebra.Program.Unknowns

/-!
# Command line

The first argument names a program: one that isolates the unknowns of an equation, given as the
second argument or not at all; one that solves a system; and one that looks for crossings and a
throw.
-/

open RationalAlgebra Program

/-- The output of the program that the arguments ask for. -/
def outputOf : List String → Output
  | "unknowns" :: arguments => unknowns arguments.head?
  | "elimination" :: _ => elimination systemTexts
  | "hail" :: _ => hail stonesText areaBounds.1 areaBounds.2
  | _ => ⟨[], ["expected one of: unknowns, elimination, hail"], 2⟩

/-- Run a program and write what it puts out. -/
def main (arguments : List String) : IO UInt32 := do
  let output := outputOf arguments
  for line in output.lines do
    IO.println line
  for line in output.errors do
    IO.eprintln line
  return output.exitCode.toUInt32
