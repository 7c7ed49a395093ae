import RationalAlgebra.Text.Blank
import RationalAlgebra.Text.Integer

/-!
# Hailstones

A hailstone has a position and a velocity in space and moves along a straight line. A text describes
one hailstone in each line: three integers, an at sign, and three integers, with commas between them
and any blanks around them.
-/

namespace RationalAlgebra

/-- A point or a direction in space. -/
structure Vec3 where
  x : Rat
  y : Rat
  z : Rat
  deriving DecidableEq

namespace Vec3

/-- The difference of two vectors. -/
def sub (a b : Vec3) : Vec3 :=
  ⟨a.x - b.x, a.y - b.y, a.z - b.z⟩

/-- The cross product of two vectors. -/
def cross (a b : Vec3) : Vec3 :=
  ⟨a.y * b.z - a.z * b.y, a.z * b.x - a.x * b.z, a.x * b.y - a.y * b.x⟩

/-- The coordinates of a vector. -/
def toList (a : Vec3) : List Rat :=
  [a.x, a.y, a.z]

/-- Read three integers with commas between them. -/
def parse? (text : List Char) : Option Vec3 :=
  match (text.splitOn ',').map fun part => Text.int64? (Text.trim part) with
  | [some x, some y, some z] => some ⟨x, y, z⟩
  | _ => none

end Vec3

/-- A stone that moves along a straight line with constant velocity. -/
structure Hailstone where
  position : Vec3
  velocity : Vec3
  deriving DecidableEq

namespace Hailstone

/-- The place of a stone at some time. -/
def placeAt (h : Hailstone) (t : Rat) : Vec3 :=
  ⟨h.position.x + h.velocity.x * t, h.position.y + h.velocity.y * t,
    h.position.z + h.velocity.z * t⟩

/-- Read the line of one stone, which is divided at its first at sign. -/
def parseLine? (line : List Char) : Option Hailstone :=
  match line.dropWhile (· ≠ '@') with
  | [] => none
  | _ :: velocity =>
    match Vec3.parse? (line.takeWhile (· ≠ '@')), Vec3.parse? velocity with
    | some p, some v => some ⟨p, v⟩
    | _, _ => none

/-- Read the stones of a text; one malformed line spoils it all. -/
def parse? (text : String) : Option (List Hailstone) :=
  (Text.lines text.toList).mapM parseLine?

end Hailstone

end RationalAlgebra
