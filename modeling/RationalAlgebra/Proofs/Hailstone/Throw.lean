import Mathlib
import RationalAlgebra.Hailstone.Throw
import RationalAlgebra.Proofs.Equation.Rows
import RationalAlgebra.Proofs.Linear.Matrix

/-!
# Throws and the stones they meet

Where a throw meets a stone, its relative position and its relative velocity are parallel: their
cross product, the deviation, is zero. The equations of a throw say only that its deviations from
three stones are the same vector. So a throw that meets the stones satisfies them, and the one that
is found is the only one that can (`throw?_eq_of_meets`).

Conversely, if the equations have one solution, then they have one whatever their other sides are,
and this leaves no room for a common deviation other than zero (`Solvable.cross_eq_zero`). Deviation
zero is not yet a meeting, though: a throw that has the velocity of a stone stays at the same
distance from it for all times. This is the only way in which the throw that is found can miss a
stone, and it can miss one of the three only (`throw?_meets`).
-/

namespace RationalAlgebra

open Matrix

/-! ## Equations between cross products -/

section Solvable

variable {p v q w x y u : Fin 3 → Rat}

/-- The equations `p × y - v × x = u` and `q × y - w × x = u'` for `x` and `y` have a solution
whatever their other sides are. -/
def Solvable (p v q w : Fin 3 → Rat) : Prop :=
  ∀ u u', ∃ x y, p ⨯₃ y - v ⨯₃ x = u ∧ q ⨯₃ y - w ⨯₃ x = u'

theorem Solvable.symm (h : Solvable p v q w) : Solvable q w p v := by
  intro u u'
  obtain ⟨x, y, hu', hu⟩ := h u' u
  exact ⟨x, y, hu, hu'⟩

/-- Each vector of an equation leaves one unknown when it is multiplied with it. -/
theorem dot_of_cross_sub_cross (h : p ⨯₃ y - v ⨯₃ x = u) :
    p ⬝ᵥ u = -(x ⬝ᵥ p ⨯₃ v) ∧ v ⬝ᵥ u = -(y ⬝ᵥ p ⨯₃ v) := by
  subst h
  constructor
  · rw [dotProduct_sub, dot_self_cross, zero_sub, triple_product_permutation,
      triple_product_permutation]
  · rw [dotProduct_sub, dot_self_cross, sub_zero, triple_product_permutation,
      triple_product_permutation, ← cross_anticomm p v, dotProduct_neg]

/-- The vectors of an equation are not both zero. -/
theorem Solvable.exists_dot_ne_zero (h : Solvable p v q w) :
    ∃ u, p ⬝ᵥ u ≠ 0 ∨ v ⬝ᵥ u ≠ 0 := by
  by_contra hnone
  push Not at hnone
  have hp : p = 0 := dotProduct_eq_zero_iff.1 fun u => (hnone u).1
  have hv : v = 0 := dotProduct_eq_zero_iff.1 fun u => (hnone u).2
  obtain ⟨x, y, hu, _⟩ := h 1 0
  rw [hp, hv] at hu
  simp at hu

/-- The vectors of an equation are not parallel. -/
theorem Solvable.cross_ne_zero (h : Solvable p v q w) : p ⨯₃ v ≠ 0 := by
  intro hzero
  obtain ⟨u, hu⟩ := h.exists_dot_ne_zero
  obtain ⟨x, y, hxy, _⟩ := h u 0
  obtain ⟨hp, hv⟩ := dot_of_cross_sub_cross hxy
  simp [hp, hv, hzero] at hu

/-- If the system is solvable, the two drifts differ. -/
theorem Solvable.right_ne (h : Solvable p v q w) : v ≠ w := by
  rintro rfl
  -- The difference of the equations holds one unknown only, which it multiplies by `p - q`.
  have hdifference : ∀ u, ∃ y, (p - q) ⨯₃ y = u := by
    intro u
    obtain ⟨x, y, hu, hzero⟩ := h u 0
    refine ⟨y, ?_⟩
    rw [sub_eq_zero] at hzero
    rw [map_sub, LinearMap.sub_apply, hzero, hu]
  have hsame : p - q = 0 := by
    rw [← dotProduct_eq_zero_iff]
    intro u
    obtain ⟨y, rfl⟩ := hdifference u
    exact dot_self_cross _ _
  obtain ⟨y, hy⟩ := hdifference 1
  rw [hsame] at hy
  simp at hy

/-- Two vectors that are perpendicular to both products are parallel. Otherwise all vectors that are
perpendicular to one of the products would be perpendicular to the other. -/
theorem Solvable.cross_eq_zero (h : Solvable p v q w) (hx : x ⬝ᵥ p ⨯₃ v = 0)
    (hy : y ⬝ᵥ p ⨯₃ v = 0) (hx' : x ⬝ᵥ q ⨯₃ w = 0) (hy' : y ⬝ᵥ q ⨯₃ w = 0) : x ⨯₃ y = 0 := by
  by_contra hne
  -- What is perpendicular to both vectors is parallel to their product.
  have hparallel : ∀ n : Fin 3 → Rat, x ⬝ᵥ n = 0 → y ⬝ᵥ n = 0 → ∀ z,
      (z ⬝ᵥ x ⨯₃ y) • n = (n ⬝ᵥ z) • x ⨯₃ y := by
    intro n hxn hyn z
    have hcross : n ⨯₃ (x ⨯₃ y) = 0 := by
      rw [cross_cross_eq_smul_sub_smul', dotProduct_comm n y, hyn, hxn, zero_smul, zero_smul,
        sub_zero]
    have hexpand := cross_cross_eq_smul_sub_smul' z n (x ⨯₃ y)
    rw [hcross, map_zero] at hexpand
    exact (sub_eq_zero.1 hexpand.symm)
  have hperpendicular : ∀ z, z ⬝ᵥ q ⨯₃ w = 0 → z ⬝ᵥ p ⨯₃ v = 0 := by
    intro z hz
    have hzero := hparallel _ hx' hy' z
    rw [dotProduct_comm _ z, hz, zero_smul, smul_eq_zero] at hzero
    have hz' := hparallel _ hx hy z
    rw [hzero.resolve_right h.symm.cross_ne_zero, zero_smul, dotProduct_comm _ z, eq_comm,
      smul_eq_zero] at hz'
    exact hz'.resolve_right hne
  obtain ⟨u, hu⟩ := h.exists_dot_ne_zero
  -- A solvable system takes any right side, also one that the two vectors rule out.
  obtain ⟨x', y', hfirst, hsecond⟩ := h u 0
  obtain ⟨hp, hv⟩ := dot_of_cross_sub_cross hfirst
  obtain ⟨hq, hw⟩ := dot_of_cross_sub_cross hsecond
  rw [dotProduct_zero, eq_comm, neg_eq_zero] at hq hw
  rw [hp, hv, hperpendicular x' hq, hperpendicular y' hw] at hu
  simp at hu

end Solvable

/-! ## Vectors as functions -/

namespace Vec3

/-- The coordinates of a vector, by their numbers. -/
def coords (a : Vec3) : Fin 3 → Rat :=
  ![a.x, a.y, a.z]

theorem coords_sub (a b : Vec3) : (a.sub b).coords = a.coords - b.coords := by
  simp [coords, sub]

theorem coords_cross (a b : Vec3) : (a.cross b).coords = a.coords ⨯₃ b.coords := by
  simp [coords, cross, cross_apply]

theorem coords_injective : Function.Injective coords := by
  rintro ⟨x, y, z⟩ ⟨x', y', z'⟩ h
  simpa [coords] using h

theorem exists_coords_eq (u : Fin 3 → Rat) : ∃ a : Vec3, a.coords = u := by
  refine ⟨⟨u 0, u 1, u 2⟩, ?_⟩
  ext i
  fin_cases i
  all_goals rfl

end Vec3

namespace Hailstone

open RationalAlgebra.Linear

variable {r r' a b c h : Hailstone} {stones : List Hailstone}

/-! ## Meetings -/

/-- The two are at the same point at some time. -/
def Meets (r h : Hailstone) : Prop :=
  ∃ t, r.placeAt t = h.placeAt t

/-- The two move side by side: they have the same velocity and are never at the same point. -/
def Accompanies (r h : Hailstone) : Prop :=
  r.velocity = h.velocity ∧ r.position ≠ h.position

/-- The position relative to a stone. -/
def offset (r h : Hailstone) : Fin 3 → Rat :=
  r.position.coords - h.position.coords

/-- The velocity relative to a stone. -/
def drift (r h : Hailstone) : Fin 3 → Rat :=
  r.velocity.coords - h.velocity.coords

/-- How far the position relative to a stone is from being parallel to the velocity relative to it.
-/
def deviation (r h : Hailstone) : Fin 3 → Rat :=
  r.offset h ⨯₃ r.drift h

/-- Two stones are at one place when the drift has made up for the offset. -/
theorem placeAt_eq_iff {t : Rat} :
    r.placeAt t = h.placeAt t ↔ r.offset h + t • r.drift h = 0 := by
  have hcoords :
      ∀ s : Hailstone, (s.placeAt t).coords = s.position.coords + t • s.velocity.coords := by
    intro s
    simp [placeAt, Vec3.coords, mul_comm]
  rw [← Vec3.coords_injective.eq_iff, hcoords, hcoords, offset, drift, smul_sub, ← sub_eq_zero]
  have hsum : ∀ P V p v : Fin 3 → Rat, P + V - (p + v) = P - p + (V - v) := fun P V p v =>
    add_sub_add_comm P V p v
  rw [hsum]

/-- A stone keeps its distance beside another if it has no drift but an offset. -/
theorem accompanies_iff : r.Accompanies h ↔ r.drift h = 0 ∧ r.offset h ≠ 0 := by
  rw [Accompanies, drift, offset, sub_eq_zero, sub_ne_zero, Vec3.coords_injective.eq_iff,
    Vec3.coords_injective.ne_iff]

/-- A throw meets a stone if it does not deviate from it, unless the two move side by side. -/
theorem meets_iff : r.Meets h ↔ r.deviation h = 0 ∧ ¬ r.Accompanies h := by
  simp only [Meets, placeAt_eq_iff, accompanies_iff]
  constructor
  · rintro ⟨t, ht⟩
    rw [add_eq_zero_iff_eq_neg] at ht
    constructor
    · rw [deviation, ht]
      simp
    · rintro ⟨hdrift, hoffset⟩
      rw [hdrift, smul_zero, neg_zero] at ht
      exact hoffset ht
  · rintro ⟨hdeviation, hnot⟩
    -- Without drift the stones are together always or never.
    by_cases hdrift : r.drift h = 0
    · refine ⟨0, ?_⟩
      rw [zero_smul, add_zero]
      by_contra hoffset
      exact hnot ⟨hdrift, hoffset⟩
    · -- The offset is the multiple of the drift that its projection is.
      have hsquare : r.drift h ⬝ᵥ r.drift h ≠ 0 := by
        rwa [Ne, dotProduct_self_eq_zero]
      have hexpand := cross_cross_eq_smul_sub_smul' (r.drift h) (r.offset h) (r.drift h)
      rw [← deviation, hdeviation, map_zero, eq_comm, sub_eq_zero] at hexpand
      refine ⟨-(r.offset h ⬝ᵥ r.drift h / (r.drift h ⬝ᵥ r.drift h)), ?_⟩
      rw [neg_smul, div_eq_inv_mul, mul_smul, ← hexpand, inv_smul_smul₀ hsquare, add_neg_cancel]

/-! ## The equations of a throw -/

/-- The rows of two stones, with any other sides, hold for a position and a velocity that satisfy an
equation between cross products. -/
theorem forall_holds_throwRows_iff {x y u : Vec3} :
    (∀ row ∈ List.zipWith Row.mk (throwRows a b) u.toList, row.Holds (x.toList ++ y.toList)) ↔
      a.offset b ⨯₃ y.coords - a.drift b ⨯₃ x.coords = u.coords := by
  obtain ⟨ux, uy, uz⟩ := u
  rw [offset, drift, ← Vec3.coords_sub, ← Vec3.coords_sub, ← Vec3.coords_cross, ← Vec3.coords_cross,
    ← Vec3.coords_sub, Vec3.coords_injective.eq_iff]
  simp only [throwRows, Vec3.sub, Vec3.toList, List.zipWith_cons_cons, List.zipWith_nil_right,
    List.mem_cons, List.not_mem_nil, or_false, Row.Holds, List.cons_append, List.nil_append,
    forall_eq_or_imp, forall_eq, dot, Vec3.cross, Vec3.mk.injEq]
  refine and_congr (Eq.congr_left ?_) (and_congr (Eq.congr_left ?_) (Eq.congr_left ?_))
  all_goals ring

/-- A throw deviates alike from two stones if it satisfies the equation with the constants of these
stones. -/
theorem deviation_eq_iff :
    r.deviation a = r.deviation b ↔
      a.offset b ⨯₃ r.velocity.coords - a.drift b ⨯₃ r.position.coords =
        ((a.position.cross a.velocity).sub (b.position.cross b.velocity)).coords := by
  have hdifference : ∀ P V p v q w : Fin 3 → Rat, (P - p) ⨯₃ (V - v) - (P - q) ⨯₃ (V - w) =
      p ⨯₃ v - q ⨯₃ w - ((p - q) ⨯₃ V - (v - w) ⨯₃ P) := by
    intro P V p v q w
    simp only [map_sub, LinearMap.sub_apply, ← cross_anticomm P]
    abel
  rw [← sub_eq_zero, deviation, deviation, offset, offset, drift, drift, hdifference, sub_eq_zero,
    eq_comm, Vec3.coords_sub, Vec3.coords_cross, Vec3.coords_cross]
  rfl

/-- The six rows are the two equations of cross products. -/
theorem forall_holds_throwSystem_iff {x y u u' : Vec3} :
    (∀ row ∈ List.zipWith Row.mk (throwRows a b ++ throwRows a c) (u.toList ++ u'.toList),
        row.Holds (x.toList ++ y.toList)) ↔
      a.offset b ⨯₃ y.coords - a.drift b ⨯₃ x.coords = u.coords ∧
        a.offset c ⨯₃ y.coords - a.drift c ⨯₃ x.coords = u'.coords := by
  have hlength : (throwRows a b).length = u.toList.length := rfl
  rw [List.zipWith_append hlength, List.forall_mem_append, forall_holds_throwRows_iff,
    forall_holds_throwRows_iff]

theorem exists_eq_toList_append {xs : List Rat} (hlength : xs.length = 6) :
    ∃ x y : Vec3, xs = x.toList ++ y.toList := by
  obtain ⟨f, rfl⟩ := exists_eq_ofFn hlength
  exact ⟨⟨f 0, f 1, f 2⟩, ⟨f 3, f 4, f 5⟩, rfl⟩

/-- If the equations of three stones have an answer, they have a solution for any other sides. -/
theorem solvable_of_solve {constants xs : List Rat} (hlength : constants.length = 6)
    (h : Linear.solve (throwRows a b ++ throwRows a c) constants = .ok (some xs)) :
    Solvable (a.offset b) (a.drift b) (a.offset c) (a.drift c) := by
  intro u u'
  obtain ⟨u, rfl⟩ := Vec3.exists_coords_eq u
  obtain ⟨u', rfl⟩ := Vec3.exists_coords_eq u'
  have hlength' : (u.toList ++ u'.toList).length = constants.length := hlength.symm
  obtain ⟨ys, hys⟩ := exists_solve_of_solve h hlength'
  obtain ⟨hsquare, heliminate⟩ := solve_eq_some hys
  obtain ⟨hsix, hunique⟩ := eliminate_eq_some hsquare heliminate
  obtain ⟨x, y, rfl⟩ := exists_eq_toList_append hsix
  exact ⟨x.coords, y.coords, forall_holds_throwSystem_iff.1 ((hunique _ hsix).2 rfl)⟩

/-- A throw that is found is the only one that deviates alike from the first three stones, and the
equations of these stones have a solution for any other sides. -/
theorem throw?_eq_some (h : throw? stones = some r) :
    ∃ a b c rest, stones = a :: b :: c :: rest ∧
      (∀ r', (r'.deviation a = r'.deviation b ∧ r'.deviation a = r'.deviation c) ↔ r' = r) ∧
      Solvable (a.offset b) (a.drift b) (a.offset c) (a.drift c) := by
  unfold throw? at h
  split at h
  · rename_i a b c rest
    split at h
    · rename_i px py pz vx vy vz hsolve
      cases h
      refine ⟨a, b, c, rest, rfl, ?_, solvable_of_solve rfl hsolve⟩
      obtain ⟨hsquare, heliminate⟩ := solve_eq_some hsolve
      obtain ⟨_, hunique⟩ := eliminate_eq_some hsquare heliminate
      -- A throw is six numbers, and the elimination leaves no other choice of them.
      rintro ⟨⟨x, y, z⟩, ⟨x', y', z'⟩⟩
      rw [deviation_eq_iff, deviation_eq_iff, ← forall_holds_throwSystem_iff]
      refine (hunique (Vec3.toList ⟨x, y, z⟩ ++ Vec3.toList ⟨x', y', z'⟩) rfl).trans ?_
      simp [Vec3.toList, and_assoc]
    · cases h
  · cases h

/-! ## The throw that is found -/

/-- No other throw goes without deviation from the first three stones. -/
theorem eq_of_deviation_eq_zero (h : throw? stones = some r)
    (hzero : ∀ s ∈ stones.take 3, r'.deviation s = 0) : r' = r := by
  obtain ⟨a, b, c, rest, rfl, hunique, _⟩ := throw?_eq_some h
  have ha := hzero a (by simp)
  exact (hunique r').1 ⟨ha.trans (hzero b (by simp)).symm, ha.trans (hzero c (by simp)).symm⟩

/-- A throw that meets the first three stones is the one that is found. -/
theorem throw?_eq_of_meets (h : throw? stones = some r) :
    3 ≤ stones.length ∧ ∀ r' : Hailstone, (∀ s ∈ stones.take 3, r'.Meets s) → r' = r := by
  constructor
  · obtain ⟨a, b, c, rest, rfl, _⟩ := throw?_eq_some h
    simp
  · intro r' hmeets
    exact eq_of_deviation_eq_zero h fun s hs => (meets_iff.1 (hmeets s hs)).1

/-- Three stones that one throw meets at the times 5, 3 and 4. -/
def threeStones : List Hailstone :=
  [⟨⟨19, 13, 30⟩, ⟨-2, 1, -2⟩⟩, ⟨⟨18, 19, 22⟩, ⟨-1, -1, -2⟩⟩, ⟨⟨20, 25, 34⟩, ⟨-2, -2, -4⟩⟩]

/-- Three stones, and the one throw that meets them. -/
theorem throw?_eq_of_meets_threeStones :
    throw? threeStones = some ⟨⟨24, 13, 10⟩, ⟨-3, 1, 2⟩⟩ ∧
      (∀ s ∈ threeStones, Meets ⟨⟨24, 13, 10⟩, ⟨-3, 1, 2⟩⟩ s) ∧
      ∀ r' : Hailstone, (∀ s ∈ threeStones, r'.Meets s) → r' = ⟨⟨24, 13, 10⟩, ⟨-3, 1, 2⟩⟩ := by
  have hfound : throw? threeStones = some ⟨⟨24, 13, 10⟩, ⟨-3, 1, 2⟩⟩ := by
    cbv
  refine ⟨hfound, ?_, (throw?_eq_of_meets hfound).2⟩
  simp only [threeStones, List.mem_cons, List.not_mem_nil, or_false, forall_eq_or_imp, forall_eq]
  exact ⟨⟨5, by decide +kernel⟩, ⟨3, by decide +kernel⟩, ⟨4, by decide +kernel⟩⟩

/-- A throw that deviates alike from two stones stays, as seen from the first of them, in the plane
of the second. -/
theorem dot_of_deviation_eq (h : r.deviation a = r.deviation b) :
    r.offset a ⬝ᵥ a.offset b ⨯₃ a.drift b = 0 ∧ r.drift a ⬝ᵥ a.offset b ⨯₃ a.drift b = 0 := by
  have hoffset : r.offset b = r.offset a + a.offset b := (sub_add_sub_cancel _ _ _).symm
  have hdrift : r.drift b = r.drift a + a.drift b := (sub_add_sub_cancel _ _ _).symm
  -- In terms of the first stone the equation has the place and the velocity as unknowns.
  have hequation : a.offset b ⨯₃ r.drift a - a.drift b ⨯₃ r.offset a =
      -(a.offset b ⨯₃ a.drift b) := by
    rw [deviation, deviation, hoffset, hdrift] at h
    simp only [map_add, LinearMap.add_apply, ← cross_anticomm (a.drift b) (r.offset a)] at h
    linear_combination -h
  obtain ⟨hposition, hvelocity⟩ := dot_of_cross_sub_cross hequation
  rw [dotProduct_neg, neg_inj] at hposition hvelocity
  rw [dot_self_cross] at hposition
  rw [dot_cross_self] at hvelocity
  exact ⟨hposition.symm, hvelocity.symm⟩

/-- The throw that is found goes without deviation from the first three stones. -/
theorem deviation_eq_zero (h : throw? stones = some r) :
    ∀ s ∈ stones.take 3, r.deviation s = 0 := by
  obtain ⟨a, b, c, rest, rfl, hunique, hsolvable⟩ := throw?_eq_some h
  obtain ⟨hb, hc⟩ := (hunique r).2 rfl
  obtain ⟨hx, hy⟩ := dot_of_deviation_eq hb
  obtain ⟨hx', hy'⟩ := dot_of_deviation_eq hc
  have hzero : r.deviation a = 0 := hsolvable.cross_eq_zero hx hy hx' hy'
  simp [← hb, ← hc, hzero]

/-- Three stones of which two have the same velocity do not determine a throw. -/
theorem nodup_velocities (h : throw? stones = some r) :
    ((stones.take 3).map velocity).Nodup := by
  obtain ⟨a, b, c, rest, rfl, _, hsolvable⟩ := throw?_eq_some h
  have hdrift : ∀ {s s' : Hailstone}, a.drift s ≠ a.drift s' → s.velocity ≠ s'.velocity := by
    intro s s' hne hsame
    rw [drift, hsame] at hne
    exact hne rfl
  -- A stone with the velocity of the first would have no drift, and the system no unique solution.
  have hfirst : ∀ {s : Hailstone}, a.offset s ⨯₃ a.drift s ≠ 0 → a.drift a ≠ a.drift s := by
    intro s hne hsame
    have hself : a.drift a = 0 := sub_self _
    rw [← hsame, hself, map_zero] at hne
    exact hne rfl
  have hb := hdrift (hfirst hsolvable.cross_ne_zero)
  have hc := hdrift (hfirst hsolvable.symm.cross_ne_zero)
  simpa using ⟨⟨hb, hc⟩, hdrift hsolvable.right_ne⟩

/-- A stone that keeps beside another does not deviate from it. -/
theorem Accompanies.deviation_eq_zero (h : r.Accompanies a) : r.deviation a = 0 := by
  rw [deviation, (accompanies_iff.1 h).1, map_zero]

/-- The throw that is found meets each of the first three stones with which it does not move side by
side, and there is one at most with which it does. So it meets all of them exactly if no throw that
moves side by side with one of them meets the other two. -/
theorem throw?_meets (h : throw? stones = some r) :
    (∀ s ∈ stones.take 3, r.Meets s ↔ ¬ r.Accompanies s) ∧
      (∀ s ∈ stones.take 3, ∀ s' ∈ stones.take 3, r.Accompanies s → r.Accompanies s' → s = s') ∧
      ((∀ s ∈ stones.take 3, r.Meets s) ↔
        ¬ ∃ r' s : Hailstone, s ∈ stones.take 3 ∧ r'.Accompanies s ∧
          ∀ s' ∈ stones.take 3, s' ≠ s → r'.Meets s') := by
  have hmeets : ∀ s ∈ stones.take 3, r.Meets s ↔ ¬ r.Accompanies s := by
    intro s hs
    rw [meets_iff]
    exact and_iff_right (deviation_eq_zero h s hs)
  -- Two stones with one velocity are one stone.
  have hone : ∀ s ∈ stones.take 3, ∀ s' ∈ stones.take 3, r.Accompanies s → r.Accompanies s' →
      s = s' := by
    intro s hs s' hs' hsame hsame'
    exact List.inj_on_of_nodup_map (nodup_velocities h) hs hs' (hsame.1.symm.trans hsame'.1)
  refine ⟨hmeets, hone, ?_⟩
  constructor
  · rintro hall ⟨r', s, hs, hbeside, hothers⟩
    -- Such a throw does not deviate from any of the stones, so it is the one that is found.
    have hzero : ∀ s' ∈ stones.take 3, r'.deviation s' = 0 := by
      intro s' hs'
      by_cases hsame : s' = s
      · rw [hsame]
        exact hbeside.deviation_eq_zero
      · exact (meets_iff.1 (hothers s' hs' hsame)).1
    rw [eq_of_deviation_eq_zero h hzero] at hbeside
    exact (hmeets s hs).1 (hall s hs) hbeside
  · intro hnone s hs
    rw [hmeets s hs]
    intro hbeside
    refine hnone ⟨r, s, hs, hbeside, ?_⟩
    intro s' hs' hne
    rw [hmeets s' hs']
    exact fun hbeside' => hne (hone s' hs' s hs hbeside' hbeside)

/-- The throw that is found has another velocity than each of the stones. -/
theorem throw?_meets_threeStones :
    throw? threeStones = some ⟨⟨24, 13, 10⟩, ⟨-3, 1, 2⟩⟩ ∧
      (∀ s ∈ threeStones, Meets ⟨⟨24, 13, 10⟩, ⟨-3, 1, 2⟩⟩ s) ∧
      ¬ ∃ r' s : Hailstone, s ∈ threeStones ∧ r'.Accompanies s ∧
        ∀ s' ∈ threeStones, s' ≠ s → r'.Meets s' := by
  have hfound : throw? threeStones = some ⟨⟨24, 13, 10⟩, ⟨-3, 1, 2⟩⟩ := by
    cbv
  obtain ⟨hmeets, _, hall⟩ := throw?_meets hfound
  have hthree : ∀ s ∈ threeStones, Meets ⟨⟨24, 13, 10⟩, ⟨-3, 1, 2⟩⟩ s := by
    intro s hs
    refine (hmeets s hs).2 fun hbeside => ?_
    simp only [threeStones, List.mem_cons, List.not_mem_nil, or_false] at hs
    rcases hs with rfl | rfl | rfl
    all_goals exact absurd hbeside.1 (by decide +kernel)
  exact ⟨hfound, hthree, hall.1 hthree⟩

/-- The throw that is found meets the second stone at the time 0 and the third one at the time -1.
It has the velocity of the first stone, which it never meets, and so no throw meets all three. -/
theorem throw?_beside_first :
    throw? [⟨⟨0, 0, 0⟩, ⟨1, 1, 1⟩⟩, ⟨⟨1, 0, 0⟩, ⟨1, 2, 1⟩⟩, ⟨⟨1, 0, 1⟩, ⟨1, 1, 2⟩⟩] =
        some ⟨⟨1, 0, 0⟩, ⟨1, 1, 1⟩⟩ ∧
      (¬ ∃ t, placeAt ⟨⟨1, 0, 0⟩, ⟨1, 1, 1⟩⟩ t = placeAt ⟨⟨0, 0, 0⟩, ⟨1, 1, 1⟩⟩ t) ∧
      ¬ ∃ r : Hailstone, ∀ s ∈ [⟨⟨0, 0, 0⟩, ⟨1, 1, 1⟩⟩, ⟨⟨1, 0, 0⟩, ⟨1, 2, 1⟩⟩,
        ⟨⟨1, 0, 1⟩, ⟨1, 1, 2⟩⟩], r.Meets s := by
  have hfound : throw? [⟨⟨0, 0, 0⟩, ⟨1, 1, 1⟩⟩, ⟨⟨1, 0, 0⟩, ⟨1, 2, 1⟩⟩,
      ⟨⟨1, 0, 1⟩, ⟨1, 1, 2⟩⟩] = some ⟨⟨1, 0, 0⟩, ⟨1, 1, 1⟩⟩ := by
    cbv
  have hfirst : ¬ ∃ t, placeAt ⟨⟨1, 0, 0⟩, ⟨1, 1, 1⟩⟩ t = placeAt ⟨⟨0, 0, 0⟩, ⟨1, 1, 1⟩⟩ t := by
    rintro ⟨t, ht⟩
    simp [placeAt] at ht
  refine ⟨hfound, hfirst, ?_⟩
  rintro ⟨r, hmeets⟩
  have hr := eq_of_deviation_eq_zero hfound fun s hs => (meets_iff.1 (hmeets s hs)).1
  rw [hr] at hmeets
  exact hfirst (hmeets _ List.mem_cons_self)

end Hailstone

end RationalAlgebra
