import RationalAlgebra.Hailstone.Basic
import RationalAlgebra.Linear.Elimination

/-!
# The throw that meets three stones

A stone thrown from `P` with velocity `V` meets another exactly if their relative position and their
relative velocity are parallel. The difference of this condition for two stones is linear in `P` and
`V`; the pairs of the first stone with the second and with the third give six linear equations.
-/

namespace RationalAlgebra.Hailstone

/-- The equations that two stones give for the six coordinates of a throw: the cross product of `P`
with the difference of velocities, plus that of the difference of positions with `V`. -/
def throwRows (a b : Hailstone) : List (List Rat) :=
  let dv := a.velocity.sub b.velocity
  let dp := a.position.sub b.position
  [[0, dv.z, -dv.y, 0, -dp.z, dp.y],
    [-dv.z, 0, dv.x, dp.z, 0, -dp.x],
    [dv.y, -dv.x, 0, -dp.y, dp.x, 0]]

/-- The other sides of these equations. -/
def throwConstants (a b : Hailstone) : List Rat :=
  ((a.position.cross a.velocity).sub (b.position.cross b.velocity)).toList

/-- The throw that the first three stones determine, as a stone. -/
def throw? : List Hailstone → Option Hailstone
  | a :: b :: c :: _ =>
    match Linear.solve (throwRows a b ++ throwRows a c)
        (throwConstants a b ++ throwConstants a c) with
    | .ok (some [px, py, pz, vx, vy, vz]) => some ⟨⟨px, py, pz⟩, ⟨vx, vy, vz⟩⟩
    | _ => none
  | _ => none

end RationalAlgebra.Hailstone
