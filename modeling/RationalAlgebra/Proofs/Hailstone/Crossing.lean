import Mathlib
import RationalAlgebra.Hailstone.Crossing
import RationalAlgebra.Proofs.Equation.Rows

/-!
# Where the two eliminations agree

Elimination by rows wants exactly one pair of times at which two stones meet in the plane.
Elimination over equations wants one value for each time that occurs in the equations, and the time
of a stone that does not move in the plane does not occur in them. So the two agree on all pairs of
paths but those that meet while one of the stones does not move in the plane: such stones meet at
many pairs of times, and still nothing is left open for the equations. Crossings are counted as long
as there is no such pair.

Main statement: `countCrossings_total`.
-/

namespace RationalAlgebra.Hailstone

open RationalAlgebra.Expr RationalAlgebra.Equations RationalAlgebra.Linear

variable {a b : Hailstone} {t s t' s' : Rat}

/-! ## Meetings in the plane -/

/-- Where one stone is at time `t` the other is at time `s`, as far as the first two coordinates are
concerned. -/
def MeetAt (a b : Hailstone) (t s : Rat) : Prop :=
  (a.placeAt t).x = (b.placeAt s).x ∧ (a.placeAt t).y = (b.placeAt s).y

/-- A stone does not move in the plane of the first two coordinates. -/
def Rests (a : Hailstone) : Prop :=
  a.velocity.x = 0 ∧ a.velocity.y = 0

/-- Two paths meet in the plane, and one of the stones does not move there. -/
def MeetAtRest (a b : Hailstone) : Prop :=
  (a.Rests ∨ b.Rests) ∧ ∃ t s, MeetAt a b t s

/-- A meeting, seen from the other stone. -/
theorem MeetAt.symm (h : MeetAt a b t s) : MeetAt b a s t :=
  ⟨h.1.symm, h.2.symm⟩

/-- A stone that does not move is always at the same point of the plane. -/
theorem Rests.meetAt (ha : a.Rests) (h : MeetAt a b t s) (t' : Rat) : MeetAt a b t' s := by
  obtain ⟨hx, hy⟩ := ha
  simpa [MeetAt, placeAt, hx, hy] using h

/-- A stone that moves is at each point of the plane at one time at most. -/
theorem MeetAt.unique_right (hb : ¬ b.Rests) (h : MeetAt a b t s) (h' : MeetAt a b t s') :
    s' = s := by
  have hx : b.velocity.x * (s' - s) = 0 := by
    have hsame := h.1.symm.trans h'.1
    simp only [placeAt] at hsame
    linarith
  have hy : b.velocity.y * (s' - s) = 0 := by
    have hsame := h.2.symm.trans h'.2
    simp only [placeAt] at hsame
    linarith
  by_contra hne
  -- At two times the stone would be at one place, and so would not move.
  have hdifference : s' - s ≠ 0 := sub_ne_zero.2 hne
  exact hb ⟨(mul_eq_zero.1 hx).resolve_right hdifference,
    (mul_eq_zero.1 hy).resolve_right hdifference⟩

/-- A stone that moves is at a place at one time only. -/
theorem MeetAt.unique_left (ha : ¬ a.Rests) (h : MeetAt a b t s) (h' : MeetAt a b t' s) : t' = t :=
  MeetAt.unique_right ha h.symm h'.symm

/-! ## Elimination by rows -/

/-- The row for two moving coordinates, with the two times as unknowns. -/
def axisRow (position velocity position' velocity' : Rat) : Row :=
  ⟨[velocity, -velocity'], position' - position⟩

/-- The rows of a crossing. -/
def crossingRows (a b : Hailstone) : List Row :=
  [axisRow a.position.x a.velocity.x b.position.x b.velocity.x,
    axisRow a.position.y a.velocity.y b.position.y b.velocity.y]

theorem isSquare_crossingRows (a b : Hailstone) : IsSquare 2 (crossingRows a b) := by
  constructor
  · rfl
  · simp [crossingRows, axisRow]

/-- The row of two moving coordinates holds at the times at which they are equal. -/
theorem holds_axisRow_iff (p v p' v' : Rat) :
    (axisRow p v p' v').Holds [t, s] ↔ p + v * t = p' + v' * s := by
  simp only [Row.Holds, axisRow, dot]
  constructor
  · intro h
    linarith
  · intro h
    linarith

/-- The rows say that the stones are at one place. -/
theorem forall_holds_crossingRows_iff :
    (∀ r ∈ crossingRows a b, r.Holds [t, s]) ↔ MeetAt a b t s := by
  simp [crossingRows, holds_axisRow_iff, MeetAt, placeAt]

/-- The times are read from what the elimination finds. -/
theorem crossingTimes?_eq (a b : Hailstone) :
    crossingTimes? a b =
      match Linear.eliminate 2 (crossingRows a b) with
      | some [t, s] => some (t, s)
      | _ => none := by
  have hsolve : Linear.solve [[a.velocity.x, -b.velocity.x], [a.velocity.y, -b.velocity.y]]
      [b.position.x - a.position.x, b.position.y - a.position.y] =
        .ok (Linear.eliminate 2 (crossingRows a b)) := rfl
  simp only [crossingTimes?, hsolve]
  rcases Linear.eliminate 2 (crossingRows a b) with _ | _ | ⟨t, _ | ⟨s, _ | _⟩⟩
  all_goals rfl

/-- A crossing has the only times at which the stones meet. -/
theorem crossingTimes?_eq_some_iff :
    crossingTimes? a b = some (t, s) ↔ ∀ t' s', MeetAt a b t' s' ↔ t' = t ∧ s' = s := by
  have hsquare := isSquare_crossingRows a b
  rw [crossingTimes?_eq]
  cases heliminate : Linear.eliminate 2 (crossingRows a b) with
  | some xs =>
    obtain ⟨hlength, hunique⟩ := eliminate_eq_some hsquare heliminate
    obtain ⟨t₀, s₀, rfl⟩ := List.length_eq_two.1 hlength
    have hmeet : ∀ t' s', MeetAt a b t' s' ↔ t' = t₀ ∧ s' = s₀ := by
      intro t' s'
      rw [← forall_holds_crossingRows_iff, hunique _ rfl]
      simp
    simp only [Option.some.injEq, Prod.mk.injEq, hmeet]
    constructor
    · rintro ⟨rfl, rfl⟩ t' s'
      exact Iff.rfl
    · intro h
      exact (h t₀ s₀).1 ⟨rfl, rfl⟩
  | none =>
    simp only [reduceCtorEq, false_iff]
    -- The only pair of times would be the only solution of the rows.
    intro h
    apply not_existsUnique_of_eliminate_eq_none hsquare heliminate
    refine ⟨[t, s], ⟨rfl, forall_holds_crossingRows_iff.2 ((h t s).2 ⟨rfl, rfl⟩)⟩, ?_⟩
    rintro xs ⟨hlength, hholds⟩
    obtain ⟨t', s', rfl⟩ := List.length_eq_two.1 hlength
    obtain ⟨rfl, rfl⟩ := (h t' s').1 (forall_holds_crossingRows_iff.1 hholds)
    rfl

/-- The path of a stone that rests has no crossing. -/
theorem crossingTimes?_eq_none_of_rests (h : a.Rests ∨ b.Rests) : crossingTimes? a b = none := by
  rw [Option.eq_none_iff_forall_ne_some]
  rintro ⟨t, s⟩ htimes
  rw [crossingTimes?_eq_some_iff] at htimes
  have hmeet : MeetAt a b t s := (htimes t s).2 ⟨rfl, rfl⟩
  -- The stone that rests may as well be met a moment later.
  rcases h with ha | hb
  · have hlater := ((htimes _ _).1 (ha.meetAt hmeet (t + 1))).1
    linarith
  · have hlater := ((htimes _ _).1 (hb.meetAt hmeet.symm (s + 1)).symm).2
    linarith

/-! ## Elimination over equations -/

/-- The equation along an axis is the row along it. -/
theorem isEquation_axisEquation (p v p' v' : Rat) :
    (axisRow p v p' v').IsEquation ["t", "s"] (axisEquation p v p' v') := by
  have hpolynomial : (axisEquation p v p' v').IsPolynomial := by
    simp [axisEquation, prod, neg, const, var, IsPolynomial, AllPolynomial]
  refine ⟨hpolynomial, ?_⟩
  intro f
  rw [(hpolynomial.defined_total f).eval_eq]
  simp [axisEquation, prod, neg, var, axisRow, dot]
  ring

/-- The two equations of a crossing are its two rows. -/
theorem forall₂_crossingEquations (a b : Hailstone) :
    List.Forall₂ (Row.IsEquation ["t", "s"]) (crossingRows a b) (crossingEquations a b) :=
  .cons (isEquation_axisEquation _ _ _ _) (.cons (isEquation_axisEquation _ _ _ _) .nil)

/-- The equations of a crossing are zero at the times at which the stones meet. -/
theorem zeroAt_crossingEquations_iff {f : String → Rat} :
    ZeroAt f (crossingEquations a b) ↔ MeetAt a b (f "t") (f "s") := by
  rw [zeroAt_iff_holds (forall₂_crossingEquations a b), ← forall_holds_crossingRows_iff]
  rfl

/-- The equation is the distance of the stones along the axis. -/
theorem value_axisEquation (p v p' v' : Rat) (f : String → Rat) :
    (axisEquation p v p' v').value (.total f) = p + v * f "t" - (p' + v' * f "s") := by
  rw [value_of_eval ((isEquation_axisEquation p v p' v').2 f)]
  simp only [axisRow, List.map_cons, List.map_nil, dot]
  ring

/-- A time occurs in an equation unless it is multiplied by zero. -/
theorem mem_occurrences_axisEquation (p v p' v' : Rat) (x : String) :
    x ∈ (axisEquation p v p' v').normalize.occurrences ↔
      (x = "t" ∧ v ≠ 0) ∨ (x = "s" ∧ v' ≠ 0) := by
  rw [(isEquation_axisEquation p v p' v').isLinear.mem_occurrences_iff]
  constructor
  · rintro ⟨f, q, hne⟩
    by_contra hnot
    push Not at hnot
    apply hne
    simp only [value_axisEquation, Function.update_apply]
    -- A change of one time is not seen if its stone does not move along the axis.
    split_ifs with ht hs hs
    · rw [hnot.1 ht.symm, hnot.2 hs.symm]
      ring
    · rw [hnot.1 ht.symm]
      ring
    · rw [hnot.2 hs.symm]
      ring
    · rfl
  · rintro (⟨rfl, hv⟩ | ⟨rfl, hv⟩)
    · refine ⟨fun _ => 0, 1, ?_⟩
      simpa [value_axisEquation] using hv
    · refine ⟨fun _ => 0, 1, ?_⟩
      simpa [value_axisEquation] using hv

/-- A time is a variable of the equations if its stone moves. -/
theorem mem_systemVariables_crossingEquations {x : String} :
    x ∈ systemVariables (crossingEquations a b) ↔
      (x = "t" ∧ ¬ a.Rests) ∨ (x = "s" ∧ ¬ b.Rests) := by
  simp only [mem_systemVariables, crossingEquations, List.mem_cons, List.not_mem_nil, or_false,
    exists_eq_or_imp, exists_eq_left, mem_occurrences_axisEquation, Rests]
  tauto

/-- The equations of a crossing are solved if the stones meet, with the same times of those that
move whenever they meet. -/
theorem solve_crossingEquations_eq_ok_iff {solution : Solution} :
    Equations.solve (crossingEquations a b) = .ok solution ↔
      ∃ f, MeetAt a b (f "t") (f "s") ∧
        solution = restrict (systemVariables (crossingEquations a b)) f ∧
        ∀ t s, MeetAt a b t s → (¬ a.Rests → t = f "t") ∧ (¬ b.Rests → s = f "s") := by
  have hrows := exists_isEquation (forall₂_crossingEquations a b)
  have hlinear : ∀ e ∈ crossingEquations a b, e.IsLinear :=
    fun e he => (hrows e he).elim fun r hr => hr.isLinear
  have hlimit : (crossingEquations a b).length + (systemVariables (crossingEquations a b)).card ≤
      defaultLimit := by
    have hcard := card_systemVariables_le hrows
    simp only [crossingEquations, List.length_cons, List.length_nil, defaultLimit] at hcard ⊢
    omega
  rw [Equations.solve, solveWithin_eq_ok_iff hlinear hlimit]
  refine exists_congr ?_
  intro f
  rw [zeroAt_crossingEquations_iff]
  refine and_congr_right fun _ => and_congr_right fun _ => ?_
  constructor
  · -- The solver asks for all its variables, which are the times of the stones that move.
    intro h t s hmeet
    have hsame := h (fun x => if x = "t" then t else s) (zeroAt_crossingEquations_iff.2 hmeet)
    constructor
    · intro ha
      exact hsame "t" (mem_systemVariables_crossingEquations.2 (Or.inl ⟨rfl, ha⟩))
    · intro hb
      exact hsame "s" (mem_systemVariables_crossingEquations.2 (Or.inr ⟨rfl, hb⟩))
  · intro h g hg x hx
    obtain ⟨ht, hs⟩ := h _ _ (zeroAt_crossingEquations_iff.1 hg)
    rcases mem_systemVariables_crossingEquations.1 hx with ⟨rfl, ha⟩ | ⟨rfl, hb⟩
    · exact ht ha
    · exact hs hb

/-! ## The two answers -/

/-- The two eliminations give the same answer: either has one exactly if the other has, and then the
values of the solution are the times of the crossing. -/
def SameAnswer (a b : Hailstone) : Prop :=
  (∀ t s, crossingTimes? a b = some (t, s) →
    ∃ solution, Equations.solve (crossingEquations a b) = .ok solution ∧
      solution.get? "t" = some t ∧ solution.get? "s" = some s) ∧
  ∀ solution, Equations.solve (crossingEquations a b) = .ok solution →
    ∃ t s, crossingTimes? a b = some (t, s)

/-- The comparison of the answers is the one that it stands for. -/
theorem agree_iff_sameAnswer : agree a b = true ↔ SameAnswer a b := by
  unfold agree SameAnswer
  cases htimes : crossingTimes? a b with
  | none =>
    cases hsolve : Equations.solve (crossingEquations a b) with
    | ok solution => simp
    | error f => simp
  | some times =>
    obtain ⟨t, s⟩ := times
    cases hsolve : Equations.solve (crossingEquations a b) with
    | ok solution => simp
    | error f => simp

/-- Where both stones move, the only pair of times is what both eliminations look for. -/
theorem sameAnswer_of_moves (ha : ¬ a.Rests) (hb : ¬ b.Rests) : SameAnswer a b := by
  have ht : "t" ∈ systemVariables (crossingEquations a b) :=
    mem_systemVariables_crossingEquations.2 (Or.inl ⟨rfl, ha⟩)
  have hs : "s" ∈ systemVariables (crossingEquations a b) :=
    mem_systemVariables_crossingEquations.2 (Or.inr ⟨rfl, hb⟩)
  constructor
  · intro t s htimes
    rw [crossingTimes?_eq_some_iff] at htimes
    refine ⟨restrict (systemVariables (crossingEquations a b)) fun x => if x = "t" then t else s,
      ?_, ?_, ?_⟩
    · refine solve_crossingEquations_eq_ok_iff.2 ⟨_, (htimes t s).2 ⟨rfl, rfl⟩, rfl, ?_⟩
      intro t' s' hmeet
      obtain ⟨rfl, rfl⟩ := (htimes t' s').1 hmeet
      exact ⟨fun _ => rfl, fun _ => rfl⟩
    · rw [get?_restrict, if_pos ht, if_pos rfl]
    · rw [get?_restrict, if_pos hs, if_neg (by decide)]
  · intro solution hsolution
    -- Both stones move, so both times are determined.
    obtain ⟨f, hmeet, _, hunique⟩ := solve_crossingEquations_eq_ok_iff.1 hsolution
    refine ⟨f "t", f "s", crossingTimes?_eq_some_iff.2 ?_⟩
    intro t s
    constructor
    · intro hmeet'
      exact ⟨(hunique t s hmeet').1 ha, (hunique t s hmeet').2 hb⟩
    · rintro ⟨rfl, rfl⟩
      exact hmeet

/-- Where a stone rests, the equations are solved if the stones meet at all. -/
theorem exists_solve_iff_of_rests (h : a.Rests ∨ b.Rests) :
    (∃ solution, Equations.solve (crossingEquations a b) = .ok solution) ↔
      ∃ t s, MeetAt a b t s := by
  constructor
  · rintro ⟨solution, hsolution⟩
    obtain ⟨f, hmeet, _⟩ := solve_crossingEquations_eq_ok_iff.1 hsolution
    exact ⟨_, _, hmeet⟩
  · rintro ⟨t, s, hmeet⟩
    refine ⟨_, solve_crossingEquations_eq_ok_iff.2
      ⟨fun x => if x = "t" then t else s, hmeet, rfl, ?_⟩⟩
    intro t' s' hmeet'
    constructor
    · -- If the first stone moves, the second rests, and is at the place of meeting at any time.
      intro ha
      have hb := h.resolve_left ha
      exact hmeet.unique_left ha (hb.meetAt hmeet'.symm s).symm
    · intro hb
      have ha := h.resolve_right hb
      exact hmeet.unique_right hb (ha.meetAt hmeet' t)

/-- The two eliminations give the same answer unless the stones meet while one of them rests. -/
theorem sameAnswer_iff : SameAnswer a b ↔ ¬ MeetAtRest a b := by
  by_cases h : a.Rests ∨ b.Rests
  · have hnone := crossingTimes?_eq_none_of_rests h
    have hsolve := exists_solve_iff_of_rests h
    simp only [SameAnswer, MeetAtRest, hnone, h, ← hsolve]
    simp
  · have hsame := sameAnswer_of_moves (fun ha => h (Or.inl ha)) fun hb => h (Or.inr hb)
    have hnot : ¬ MeetAtRest a b := fun hmeet => h hmeet.1
    exact iff_of_true hsame hnot

/-- The two ways differ exactly where the stones meet and one is at rest. -/
theorem agree_eq_false_iff : agree a b = false ↔ MeetAtRest a b := by
  rw [← Bool.not_eq_true, agree_iff_sameAnswer, sameAnswer_iff, not_not]

/-! ## Counting -/

variable {low high : Rat} {i j n : Nat} {stones : List Hailstone} {d : Disagreement}

/-- A count that is completed found agreement with every stone. -/
theorem agree_of_countWith (h : countWith low high i a j stones = .ok n) :
    ∀ b ∈ stones, agree a b = true := by
  induction stones generalizing j n with
  | nil => simp
  | cons b rest ih =>
    rw [countWith] at h
    split at h
    · rename_i hagree
      split at h
      · cases h
      · rename_i m hrest
        exact List.forall_mem_cons.2 ⟨hagree, ih hrest⟩
    · cases h

/-- A path that is counted with others disagrees with the one that is named. -/
theorem countWith_eq_error (h : countWith low high i a j stones = .error d) :
    ∃ k b, stones[k]? = some b ∧ agree a b = false ∧ d = disagreement i a (j + k) b := by
  induction stones generalizing j with
  | nil => cases h
  | cons b rest ih =>
    rw [countWith] at h
    split at h
    · split at h
      · rename_i d' hrest
        cases h
        obtain ⟨k, b', hb', hagree, hd⟩ := ih hrest
        -- The number of the stone counts on from where the loop stands.
        rw [Nat.add_assoc, Nat.add_comm 1 k] at hd
        exact ⟨k + 1, b', by simpa using hb', hagree, hd⟩
      · cases h
    · rename_i hagree
      cases h
      exact ⟨0, b, rfl, by simpa using hagree, rfl⟩

/-- Likewise for all pairs. -/
theorem agree_of_countFrom (h : countFrom low high i stones = .ok n) :
    stones.Pairwise fun a b => agree a b = true := by
  induction stones generalizing i n with
  | nil => exact List.Pairwise.nil
  | cons a rest ih =>
    rw [countFrom] at h
    split at h
    · cases h
    · rename_i m hwith
      split at h
      · cases h
      · rename_i k hrest
        exact List.pairwise_cons.2 ⟨agree_of_countWith hwith, ih hrest⟩

/-- Two paths disagree that stand at the places that are named. -/
theorem countFrom_eq_error (h : countFrom low high i stones = .error d) :
    ∃ k l a b, k < l ∧ stones[k]? = some a ∧ stones[l]? = some b ∧ agree a b = false ∧
      d = disagreement (i + k) a (i + l) b := by
  induction stones generalizing i with
  | nil => cases h
  | cons a rest ih =>
    rw [countFrom] at h
    split at h
    · rename_i d' hwith
      cases h
      -- The first stone disagrees with one behind it.
      obtain ⟨k, b, hb, hagree, hd⟩ := countWith_eq_error hwith
      rw [Nat.add_assoc, Nat.add_comm 1 k] at hd
      exact ⟨0, k + 1, a, b, Nat.succ_pos k, rfl, by simpa using hb, hagree, hd⟩
    · split at h
      · rename_i d' hrest
        cases h
        obtain ⟨k, l, a', b, hlt, ha', hb, hagree, hd⟩ := ih hrest
        rw [Nat.add_assoc, Nat.add_assoc, Nat.add_comm 1 k, Nat.add_comm 1 l] at hd
        exact ⟨k + 1, l + 1, a', b, Nat.succ_lt_succ hlt, by simpa using ha', by simpa using hb,
          hagree, hd⟩
      · cases h

/-- Where two stones meet while one of them rests, the elimination over the coefficients finds
nothing and the elimination over the equations finds a solution. -/
theorem MeetAtRest.answers (h : MeetAtRest a b) : crossingTimes? a b = none ∧
    ∃ solution, Equations.solve (crossingEquations a b) = .ok solution :=
  ⟨crossingTimes?_eq_none_of_rests h.1, (exists_solve_iff_of_rests h.1).2 h.2⟩

/-- The crossings of some stones are counted exactly if no two of the stones meet in the plane while
one of them rests there. Otherwise the report names two that do, with the solution of their
equations against no times at all. Such pairs are the only ones about which the two eliminations
disagree. -/
theorem countCrossings_total (stones : List Hailstone) (low high : Rat) :
    ((∃ n, countCrossings stones low high = .ok n) ↔
      stones.Pairwise fun a b => ¬ MeetAtRest a b) ∧
    (∀ d, countCrossings stones low high = .error d →
      ∃ a b, d.first < d.second ∧ stones[d.first]? = some a ∧ stones[d.second]? = some b ∧
        MeetAtRest a b ∧ d.times? = none ∧ ∃ solution, d.solution? = some solution ∧
          Equations.solve (crossingEquations a b) = .ok solution) ∧
    ∀ a b, SameAnswer a b ↔ ¬ MeetAtRest a b := by
  have herror : ∀ d, countCrossings stones low high = .error d →
      ∃ a b, d.first < d.second ∧ stones[d.first]? = some a ∧ stones[d.second]? = some b ∧
        MeetAtRest a b ∧ d.times? = none ∧ ∃ solution, d.solution? = some solution ∧
          Equations.solve (crossingEquations a b) = .ok solution := by
    intro d h
    obtain ⟨k, l, a, b, hlt, ha, hb, hagree, rfl⟩ := countFrom_eq_error h
    rw [zero_add, zero_add]
    have hmeet := agree_eq_false_iff.1 hagree
    obtain ⟨htimes, solution, hsolution⟩ := hmeet.answers
    -- The report holds the solution that the solver found.
    have hshown : (disagreement k a l b).solution? = some solution := by
      rw [disagreement, hsolution]
      rfl
    exact ⟨a, b, hlt, ha, hb, hmeet, htimes, solution, hshown, hsolution⟩
  refine ⟨?_, herror, fun a b => sameAnswer_iff⟩
  constructor
  · rintro ⟨n, h⟩
    refine (agree_of_countFrom h).imp ?_
    intro a b hagree
    exact sameAnswer_iff.1 (agree_iff_sameAnswer.1 hagree)
  · intro hpairs
    cases h : countCrossings stones low high with
    | ok n => exact ⟨n, rfl⟩
    | error d =>
      obtain ⟨a, b, hlt, ha, hb, hmeet, _⟩ := herror d h
      obtain ⟨hfirst, rfl⟩ := List.getElem?_eq_some_iff.1 ha
      obtain ⟨hsecond, rfl⟩ := List.getElem?_eq_some_iff.1 hb
      exact absurd hmeet (List.pairwise_iff_getElem.1 hpairs _ _ hfirst hsecond hlt)

/-- The first stone crosses the path of the second, and the third rests in the plane, away from
both. -/
theorem countCrossings_total_of_three_stones :
    List.Pairwise (fun a b => ¬ MeetAtRest a b)
        [⟨⟨0, 1, 5⟩, ⟨1, 0, 2⟩⟩, ⟨⟨2, 0, 1⟩, ⟨0, 1, 1⟩⟩, ⟨⟨7, 7, 0⟩, ⟨0, 0, 1⟩⟩] ∧
      ∃ n, countCrossings
        [⟨⟨0, 1, 5⟩, ⟨1, 0, 2⟩⟩, ⟨⟨2, 0, 1⟩, ⟨0, 1, 1⟩⟩, ⟨⟨7, 7, 0⟩, ⟨0, 0, 1⟩⟩] 0 10 = .ok n := by
  have hpairs : List.Pairwise (fun a b => ¬ MeetAtRest a b)
      [⟨⟨0, 1, 5⟩, ⟨1, 0, 2⟩⟩, ⟨⟨2, 0, 1⟩, ⟨0, 1, 1⟩⟩, ⟨⟨7, 7, 0⟩, ⟨0, 0, 1⟩⟩] := by
    simp [MeetAtRest, Rests, MeetAt, placeAt]
  exact ⟨hpairs, (countCrossings_total _ 0 10).1.2 hpairs⟩

/-- The second stone rests in the plane, at a point on the path of the first. The rows have many
solutions, for the second time may be any, and the equations have one, for they do not hold it. -/
theorem countCrossings_meeting_at_rest :
    countCrossings [⟨⟨1, 2, 3⟩, ⟨1, 1, 1⟩⟩, ⟨⟨3, 4, 9⟩, ⟨0, 0, 2⟩⟩] 0 10 =
        .error ⟨0, 1, none, some (NameMap.empty.insert "t" 2)⟩ ∧
      crossingTimes? ⟨⟨1, 2, 3⟩, ⟨1, 1, 1⟩⟩ ⟨⟨3, 4, 9⟩, ⟨0, 0, 2⟩⟩ = none ∧
      Equations.solve (crossingEquations ⟨⟨1, 2, 3⟩, ⟨1, 1, 1⟩⟩ ⟨⟨3, 4, 9⟩, ⟨0, 0, 2⟩⟩) =
        .ok (NameMap.empty.insert "t" 2) := by
  have htimes : crossingTimes? ⟨⟨1, 2, 3⟩, ⟨1, 1, 1⟩⟩ ⟨⟨3, 4, 9⟩, ⟨0, 0, 2⟩⟩ = none := by
    cbv
  have hsolve : Equations.solve (crossingEquations ⟨⟨1, 2, 3⟩, ⟨1, 1, 1⟩⟩
      ⟨⟨3, 4, 9⟩, ⟨0, 0, 2⟩⟩) = .ok (NameMap.empty.insert "t" 2) := by
    cbv
  refine ⟨?_, htimes, hsolve⟩
  simp [countCrossings, countFrom, countWith, agree, disagreement, htimes, hsolve, Except.toOption]

end RationalAlgebra.Hailstone
