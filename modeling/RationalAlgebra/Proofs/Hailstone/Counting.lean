import Mathlib
import RationalAlgebra.Proofs.Hailstone.Crossing

/-!
# What is counted

The number of crossings, where one is returned, is the number of pairs of stones that cross ahead of
them inside the area: there is exactly one pair of times at which they meet in the plane, neither
time is past, and the point where they meet lies in the area. To cross is a relation between two
stones that does not depend on which comes first, and so is the agreement of the two eliminations
about them; hence the order of the stones matters neither to the number nor to whether there is one.

Main statement: `countCrossings_eq_card`.
-/

namespace RationalAlgebra.Hailstone

variable {low high : Rat} {a b : Hailstone} {stones : List Hailstone} {i j n : Nat}

/-! ## Crossing ahead -/

/-- A point of the plane of the first two coordinates lies in a square area, whose border belongs to
it. -/
def InArea (low high : Rat) (p : Vec3) : Prop :=
  p.x ∈ Set.Icc low high ∧ p.y ∈ Set.Icc low high

/-- There is exactly one pair of times at which two stones meet in the plane, neither is past, and
the point where they meet lies in an area. -/
def CrossAhead (low high : Rat) (a b : Hailstone) : Prop :=
  ∃ t s, (∀ t' s', MeetAt a b t' s' ↔ t' = t ∧ s' = s) ∧ 0 ≤ t ∧ 0 ≤ s ∧
    InArea low high (a.placeAt t)

/-- The test for a pair finds the crossings ahead of both stones and within the area. -/
theorem crossesWithin_iff : crossesWithin low high a b = true ↔ CrossAhead low high a b := by
  simp only [CrossAhead, ← crossingTimes?_eq_some_iff, crossesWithin]
  cases htimes : crossingTimes? a b with
  | none => simp
  | some times =>
    obtain ⟨t, s⟩ := times
    simp [InArea, and_assoc]

instance (low high : Rat) (a b : Hailstone) : Decidable (CrossAhead low high a b) :=
  decidable_of_iff _ crossesWithin_iff

/-- The point where two stones meet lies on both paths. -/
theorem MeetAt.inArea_iff {t s : Rat} (h : MeetAt a b t s) :
    InArea low high (a.placeAt t) ↔ InArea low high (b.placeAt s) := by
  rw [InArea, InArea, h.1, h.2]

/-- A crossing is one of either stone with the other. -/
theorem CrossAhead.symm (h : CrossAhead low high a b) : CrossAhead low high b a := by
  obtain ⟨t, s, hmeet, ht, hs, harea⟩ := h
  refine ⟨s, t, ?_, hs, ht, ((hmeet t s).2 ⟨rfl, rfl⟩).inArea_iff.1 harea⟩
  intro s' t'
  rw [and_comm, ← hmeet]
  exact ⟨MeetAt.symm, MeetAt.symm⟩

theorem MeetAtRest.symm (h : MeetAtRest a b) : MeetAtRest b a := by
  obtain ⟨hrests, t, s, hmeet⟩ := h
  exact ⟨hrests.symm, s, t, hmeet.symm⟩

/-- Whether the two ways agree does not depend on the order of the stones. -/
theorem agree_symm (h : agree a b = true) : agree b a = true := by
  rw [← Bool.not_eq_false, agree_eq_false_iff] at h ⊢
  exact fun hmeet => h hmeet.symm

/-! ## Pairs of stones -/

/-- The places of two stones, the first before the second, that cross ahead inside an area. -/
def crossingPairs (low high : Rat) (stones : List Hailstone) :
    Finset (Fin stones.length × Fin stones.length) :=
  Finset.univ.filter fun p => p.1 < p.2 ∧ CrossAhead low high stones[p.1] stones[p.2]

/-- The pairs with the first of some places, and the pairs without it. -/
theorem card_filter_lt_succ (R : Fin (n + 1) → Fin (n + 1) → Prop) [∀ k l, Decidable (R k l)] :
    (Finset.univ.filter fun p : Fin (n + 1) × Fin (n + 1) => p.1 < p.2 ∧ R p.1 p.2).card =
      (Finset.univ.filter fun l : Fin n => R 0 l.succ).card +
        (Finset.univ.filter fun p : Fin n × Fin n => p.1 < p.2 ∧ R p.1.succ p.2.succ).card := by
  simp only [Finset.card_filter, Fintype.sum_prod_type, Fin.sum_univ_succ, Fin.succ_lt_succ_iff,
    Fin.succ_pos, Fin.not_lt_zero, false_and, true_and, if_false, zero_add]

/-- Counting places in a list counts its members. -/
theorem card_filter_getElem (q : Hailstone → Prop) [DecidablePred q] (stones : List Hailstone) :
    (Finset.univ.filter fun k : Fin stones.length => q stones[k]).card =
      stones.countP fun b => q b := by
  induction stones with
  | nil => rfl
  | cons a rest ih =>
    have hfirst : (Finset.univ.filter fun k : Fin (a :: rest).length => q (a :: rest)[k]).card =
        (if q a then 1 else 0) + (Finset.univ.filter fun k : Fin rest.length => q rest[k]).card :=
      Fin.card_filter_univ_succ' (n := rest.length) fun k => q (a :: rest)[k]
    rw [hfirst, ih, List.countP_cons, add_comm]
    simp only [decide_eq_true_eq]

/-- The pairs of a first stone with the others, and the pairs among the others. -/
theorem card_crossingPairs_cons (a : Hailstone) (rest : List Hailstone) :
    (crossingPairs low high (a :: rest)).card =
      (rest.countP fun b => CrossAhead low high a b) + (crossingPairs low high rest).card := by
  rw [← card_filter_getElem]
  exact card_filter_lt_succ (n := rest.length) fun k l =>
    CrossAhead low high (a :: rest)[k] (a :: rest)[l]

/-- The number of pairs does not depend on the order of the stones. -/
theorem card_crossingPairs_perm {stones' : List Hailstone} (h : stones.Perm stones') :
    (crossingPairs low high stones).card = (crossingPairs low high stones').card := by
  induction h with
  | nil => rfl
  | cons a hperm ih => rw [card_crossingPairs_cons, card_crossingPairs_cons, hperm.countP_eq, ih]
  | swap a b rest =>
    have hsymm : CrossAhead low high a b ↔ CrossAhead low high b a :=
      ⟨CrossAhead.symm, CrossAhead.symm⟩
    simp only [card_crossingPairs_cons, List.countP_cons, hsymm]
    omega
  | trans _ _ ih₁ ih₂ => exact ih₁.trans ih₂

/-! ## Counting -/

/-- The crossings of a path with the others are counted. -/
theorem countWith_eq_ok (h : countWith low high i a j stones = .ok n) :
    n = stones.countP fun b => CrossAhead low high a b := by
  induction stones generalizing j n with
  | nil =>
    cases h
    rfl
  | cons b rest ih =>
    rw [countWith] at h
    -- The count goes on only while both ways agree; each stone that crosses adds one.
    split at h
    · split at h
      · cases h
      · rename_i m hrest
        cases h
        rw [List.countP_cons, ← ih hrest, add_comm]
        simp only [crossesWithin_iff, decide_eq_true_eq]
    · cases h

/-- A count that is completed is the number of pairs that cross. -/
theorem countFrom_eq_ok (h : countFrom low high i stones = .ok n) :
    n = (crossingPairs low high stones).card := by
  induction stones generalizing i n with
  | nil =>
    cases h
    rfl
  | cons a rest ih =>
    rw [countFrom] at h
    split at h
    · cases h
    · rename_i m hwith
      split at h
      · cases h
      · rename_i k hrest
        cases h
        -- The first stone has met all behind it, and the pairs among those are left.
        rw [card_crossingPairs_cons, ← countWith_eq_ok hwith, ← ih hrest]

/-- A number is returned if the two eliminations agree about all pairs of stones. -/
theorem exists_countFrom (h : stones.Pairwise fun a b => agree a b = true) :
    ∃ n, countFrom low high i stones = .ok n := by
  cases hcount : countFrom low high i stones with
  | ok n => exact ⟨n, rfl⟩
  | error d =>
    obtain ⟨k, l, a, b, hlt, ha, hb, hagree, _⟩ := countFrom_eq_error hcount
    obtain ⟨hk, rfl⟩ := List.getElem?_eq_some_iff.1 ha
    obtain ⟨hl, rfl⟩ := List.getElem?_eq_some_iff.1 hb
    rw [List.pairwise_iff_getElem.1 h _ _ hk hl hlt] at hagree
    cases hagree

/-- The number that is returned is that of the pairs of stones that cross ahead inside the area, and
it is returned for the stones in any order. -/
theorem countCrossings_eq_card (h : countCrossings stones low high = .ok n) :
    n = (crossingPairs low high stones).card ∧
      ∀ stones', stones.Perm stones' → countCrossings stones' low high = .ok n := by
  refine ⟨countFrom_eq_ok h, ?_⟩
  intro stones' hperm
  have hagree := (hperm.pairwise_iff agree_symm).1 (agree_of_countFrom h)
  obtain ⟨m, hm⟩ : ∃ m, countFrom low high 0 stones' = .ok m := exists_countFrom hagree
  have hsame : m = n := by
    rw [countFrom_eq_ok hm, countFrom_eq_ok h, card_crossingPairs_perm hperm]
  rw [countCrossings, hm, hsame]

/-- Of these stones the second crosses the paths of the first and the last, which are parallel. The
third one was on all three paths before. -/
theorem countCrossings_eq_card_of_four_stones :
    countCrossings [⟨⟨0, 1, 5⟩, ⟨1, 0, 2⟩⟩, ⟨⟨2, 0, 1⟩, ⟨0, 1, 1⟩⟩, ⟨⟨5, 5, 0⟩, ⟨1, 1, 0⟩⟩,
        ⟨⟨0, 3, 1⟩, ⟨2, 0, 0⟩⟩] 0 10 = .ok 2 ∧
      2 = (crossingPairs 0 10 [⟨⟨0, 1, 5⟩, ⟨1, 0, 2⟩⟩, ⟨⟨2, 0, 1⟩, ⟨0, 1, 1⟩⟩,
        ⟨⟨5, 5, 0⟩, ⟨1, 1, 0⟩⟩, ⟨⟨0, 3, 1⟩, ⟨2, 0, 0⟩⟩]).card ∧
      countCrossings [⟨⟨0, 3, 1⟩, ⟨2, 0, 0⟩⟩, ⟨⟨5, 5, 0⟩, ⟨1, 1, 0⟩⟩, ⟨⟨2, 0, 1⟩, ⟨0, 1, 1⟩⟩,
        ⟨⟨0, 1, 5⟩, ⟨1, 0, 2⟩⟩] 0 10 = .ok 2 := by
  have hcount : countCrossings [⟨⟨0, 1, 5⟩, ⟨1, 0, 2⟩⟩, ⟨⟨2, 0, 1⟩, ⟨0, 1, 1⟩⟩,
      ⟨⟨5, 5, 0⟩, ⟨1, 1, 0⟩⟩, ⟨⟨0, 3, 1⟩, ⟨2, 0, 0⟩⟩] 0 10 = .ok 2 := by
    cbv
  obtain ⟨hcard, hperm⟩ := countCrossings_eq_card hcount
  exact ⟨hcount, hcard, hperm _ (List.reverse_perm _).symm⟩

end RationalAlgebra.Hailstone
