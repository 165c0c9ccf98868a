import AdjustableRobust.Proofs.Checked
import AdjustableRobust.Proofs.Lifting.Induced

/-!
# Percentiles of samples

A percentile is interpolated between two neighbours in the sorted samples. Its position never leaves
them, whatever the numbers of samples and pieces: the position of the lower neighbour is rounded
down, and the upper neighbour is the last sample at most. Percentiles at later positions are not
smaller, across the borders of the cells too, so they are breakpoints in order, between the smallest
and the largest sample.
-/

namespace AdjustableRobust

namespace Placement

variable {sorted : List ℝ}

/-- The first percentile is the first sample. -/
theorem percentile_zero (sorted : List ℝ) : percentile sorted 0 = entryAt sorted 0 := by
  simp [percentile, Scalar.floor, entryAt, List.getD_eq_getElem?_getD]

/-- The last percentile is the last sample. -/
theorem percentile_one (sorted : List ℝ) :
    percentile sorted 1 = entryAt sorted (sorted.length - 1) := by
  simp [percentile, Scalar.floor, entryAt, List.getD_eq_getElem?_getD]

/-- Percentiles of samples in order lie between the first and the last one. -/
theorem percentile_mem_Icc (hsorted : sorted.Pairwise (· ≤ ·)) {p : ℝ} (hp : 0 ≤ p) (hp' : p ≤ 1) :
    percentile sorted p ∈ Set.Icc (entryAt sorted 0) (entryAt sorted (sorted.length - 1)) := by
  rw [← percentile_zero, ← percentile_one]
  exact ⟨percentile_mono hsorted le_rfl hp hp', percentile_mono hsorted hp hp' le_rfl⟩

private theorem mem_Icc_of_mem (hsorted : sorted.Pairwise (· ≤ ·)) {x : ℝ} (hx : x ∈ sorted) :
    x ∈ Set.Icc (entryAt sorted 0) (entryAt sorted (sorted.length - 1)) := by
  obtain ⟨i, hi, rfl⟩ := List.getElem_of_mem hx
  have hentry {j : ℕ} (hj : j < sorted.length) : entryAt sorted j = sorted[j] := by
    rw [entryAt, List.getD_eq_getElem?_getD, List.getElem?_eq_getElem hj, Option.getD_some]
  have hle {j k : ℕ} (hjk : j ≤ k) (hk : k < sorted.length) :
      sorted[j] ≤ sorted[k] := by
    obtain rfl | hlt := hjk.eq_or_lt
    · exact le_rfl
    · exact List.pairwise_iff_getElem.1 hsorted j k _ hk hlt
  rw [hentry (by omega), hentry (by omega)]
  exact ⟨hle (Nat.zero_le i) hi, hle (by omega) (by omega)⟩

/-- Percentiles that cut samples lie between the smallest and the largest sample. -/
theorem percentiles_between {samples : List ℝ} (hsamples : samples ≠ []) (pieces : ℕ) :
    ∃ smallest ∈ samples, ∃ largest ∈ samples,
      (∀ y ∈ samples, smallest ≤ y ∧ y ≤ largest) ∧
      ∀ x ∈ percentiles samples pieces, smallest ≤ x ∧ x ≤ largest := by
  have hsorted := pairwise_mergeSort samples
  have hmem : ∀ y, y ∈ samples.mergeSort Scalar.precedes ↔ y ∈ samples := fun y =>
    List.mem_mergeSort
  have hentry : ∀ i, i < samples.length →
      entryAt (samples.mergeSort Scalar.precedes) i ∈ samples := by
    intro i hi
    have hi : i < (samples.mergeSort Scalar.precedes).length := by rwa [List.length_mergeSort]
    rw [entryAt, List.getD_eq_getElem?_getD, List.getElem?_eq_getElem hi, Option.getD_some, ← hmem]
    exact List.getElem_mem hi
  have hpos := List.length_pos_iff.2 hsamples
  refine ⟨_, hentry 0 hpos, _, hentry (samples.length - 1) (by omega), fun y hy => ?_,
    fun x hx => ?_⟩
  · have hbetween := mem_Icc_of_mem hsorted ((hmem y).2 hy)
    rwa [List.length_mergeSort] at hbetween
  · obtain ⟨i, hi, rfl⟩ := List.mem_map.1 hx
    rw [List.mem_range'_1] at hi
    have hbetween := percentile_mem_Icc hsorted (p := (i : ℝ) / pieces)
      (div_nonneg i.cast_nonneg pieces.cast_nonneg)
      (div_le_one_of_le₀ (Nat.cast_le.2 (by omega)) pieces.cast_nonneg)
    rwa [List.length_mergeSort] at hbetween

end Placement

/-! ## Checked percentiles -/

namespace CheckedLifting

open Checked (Agrees divide minus entry)

variable {ε β : Type}

/-- Interpolated percentile of sorted samples: there has to be a sample, and one at each of the two
positions. -/
noncomputable def percentile (sorted : List ℝ) (p : ℝ) : Checked ε ℝ := do
  let last ← minus sorted.length 1
  let index := p * (last : ℝ)
  let low := Scalar.floor index
  let x ← entry sorted low
  let y ← entry sorted (Nat.min (low + 1) last)
  return x + (y - x) * (index - (low : ℝ))

/-- Percentiles that cut samples into pieces of equal frequency. -/
noncomputable def percentiles (samples : List ℝ) (pieces : ℕ) : Checked ε (List ℝ) :=
  (List.range' 1 (pieces - 1)).mapM fun (i : ℕ) => do
    percentile (samples.mergeSort Scalar.precedes) (← divide (i : ℝ) (pieces : ℝ))

/-- Add breakpoints to every uncertainty at percentiles of realizations, each of which has to have a
value for it. -/
noncomputable def addPercentiles (pieces : ℕ) (rows : List (List ℝ)) :
    Step (LiftingCompiler ℝ β) (Stop (PolicyError ℝ)) Unit := do
  if rows.isEmpty then throw (.failed (.model .emptyRealizations))
  let c ← get
  match rows.find? (·.length ≠ c.model.numUncertainties) with
  | some row =>
    throw (.failed (.model (.realizationDimension c.model.numUncertainties row.length)))
  | none =>
    c.model.uncertainty.vars.entries.forM fun (h, _) => do
      let samples ← Step.ofExcept id (rows.mapM fun row => entry row h.slot)
      let points ← Step.ofExcept id (percentiles samples pieces)
      (LiftingCompiler.addBreakpoints points (.var h)).adaptExcept .failed

/-- Both positions are among those of the samples. -/
theorem percentile_eq_ok {sorted : List ℝ} (hsorted : sorted ≠ []) {p : ℝ} (hp : p ≤ 1) :
    (percentile sorted p : Checked ε ℝ) = .ok (Placement.percentile sorted p) := by
  have hpos := List.length_pos_iff.2 hsorted
  have hlast : (0 : ℝ) ≤ (sorted.length - 1 : ℕ) := Nat.cast_nonneg _
  have hlow : ⌊p * ((sorted.length - 1 : ℕ) : ℝ)⌋₊ ≤ sorted.length - 1 :=
    Nat.floor_le_of_le (mul_le_of_le_one_left hlast hp)
  have hlow : ⌊p * ((sorted.length - 1 : ℕ) : ℝ)⌋₊ < sorted.length := by omega
  have hhigh : Nat.min (⌊p * ((sorted.length - 1 : ℕ) : ℝ)⌋₊ + 1) (sorted.length - 1) <
      sorted.length := (Nat.min_le_right _ _).trans_lt (by omega)
  refine Agrees.eq_ok (.bind_ok (Checked.minus_of_le hpos) (.bind_ok (Checked.entry_of_lt hlow)
    (.bind_ok (Checked.entry_of_lt hhigh) ?_)))
  rw [Placement.percentile]
  simp only [Scalar.floor, List.getElem?_eq_getElem hlow, List.getElem?_eq_getElem hhigh,
    Scalar.natCast_real, Option.getD_some]
  rfl

/-- With samples, all percentiles that cut them exist. -/
theorem percentiles_eq_ok {samples : List ℝ} (hsamples : samples ≠ []) (pieces : ℕ) :
    (percentiles samples pieces : Checked ε (List ℝ)) =
      .ok (Placement.percentiles samples pieces) := by
  have hsorted : samples.mergeSort Scalar.precedes ≠ [] := by
    rwa [← List.length_pos_iff, List.length_mergeSort, List.length_pos_iff]
  rw [percentiles, Placement.percentiles]
  refine mapM_eq_ok_iff.2 (List.forall₂_map_right_iff.2 (List.forall₂_same.2 fun i hi => ?_))
  rw [List.mem_range'_1] at hi
  have hpieces : (pieces : ℝ) ≠ 0 := Nat.cast_ne_zero.2 (by omega)
  rw [Checked.divide_of_ne _ hpieces]
  exact percentile_eq_ok hsorted
    (div_le_one_of_le₀ (Nat.cast_le.2 (by omega)) pieces.cast_nonneg)

private theorem mapM_entry_eq_ok {rows : List (List ℝ)} {slot n : ℕ} (hslot : slot < n)
    (hrows : ∀ row ∈ rows, row.length = n) :
    (rows.mapM fun row => entry row slot : Checked ε (List ℝ)) =
      .ok (rows.map fun row => row[slot]?.getD 0) := by
  refine mapM_eq_ok_iff.2 (List.forall₂_map_right_iff.2 (List.forall₂_same.2 fun row hrow => ?_))
  have hlt : slot < row.length := hrows row hrow ▸ hslot
  rw [Checked.entry_of_lt hlt, List.getElem?_eq_getElem hlt, Option.getD_some]

/-- Placing breakpoints at percentiles passes all checks, whatever the realizations. -/
theorem agrees_addPercentiles (pieces : ℕ) (rows : List (List ℝ)) :
    Step.Agrees (addPercentiles pieces rows)
      (LiftingCompiler.addPercentiles pieces rows :
        Step (LiftingCompiler ℝ β) (PolicyError ℝ) Unit) := by
  intro c
  rw [addPercentiles, LiftingCompiler.addPercentiles]
  by_cases hempty : rows = []
  · subst hempty
    rfl
  rw [if_neg (mt List.isEmpty_iff.1 hempty), if_neg (mt List.isEmpty_iff.1 hempty)]
  simp only [Step.perform, Step.get_bind_eq]
  cases hrow : rows.find? (·.length ≠ c.model.numUncertainties) with
  | some row => rfl
  | none =>
    have hrows : ∀ row ∈ rows, row.length = c.model.numUncertainties := fun row hmem => by
      have hnot := List.find?_eq_none.1 hrow row hmem
      rwa [decide_eq_true_eq, not_not] at hnot
    refine Step.Agrees.forM (fun p hp => ?_) c
    have hsamples : rows.map (fun row => row[p.1.slot]?.getD 0) ≠ [] :=
      mt List.map_eq_nil_iff.1 hempty
    exact .bind_ok (mapM_entry_eq_ok (Store.slot_lt_of_mem_entries hp) hrows) <|
      .bind_ok (percentiles_eq_ok hsamples pieces) (.plain _)

end CheckedLifting

/-! ## Breakpoints at percentiles -/

namespace LiftingCompiler

variable {β : Type} {c : LiftingCompiler ℝ β}

/-- Values of an uncertainty in realizations. -/
def column (rows : List (List ℝ)) (slot : ℕ) : List ℝ := rows.map fun row => row[slot]?.getD 0

/-- Realizations of the right length are accepted. -/
theorem addPercentiles_eq_addToEach {rows : List (List ℝ)} (hrows : rows ≠ [])
    (hlength : ∀ row ∈ rows, row.length = c.model.numUncertainties) (pieces : ℕ) :
    addPercentiles pieces rows c =
      addToEach (fun slot _ => Placement.percentiles (column rows slot) pieces) c := by
  have hfind : rows.find? (·.length ≠ c.model.numUncertainties) = none :=
    List.find?_eq_none.2 fun row hrow => by simp [hlength row hrow]
  rw [addPercentiles, if_neg (mt List.isEmpty_iff.1 hrows)]
  simp only [Step.get_bind_eq, hfind]
  rfl

/-- Percentiles are breakpoints: for all samples and numbers of pieces, the positions of the samples
that they are interpolated between exist, they do not decrease, and they lie between the smallest
and the largest sample. So breakpoints at percentiles are placed along every uncertainty, when all
uncertainties have bounds and there are realizations, of the right length. -/
theorem addPercentiles_succeeds (pieces : ℕ) :
    (∀ samples : List ℝ, samples ≠ [] → ∃ points,
      (CheckedLifting.percentiles samples pieces : Checked (PolicyError ℝ) (List ℝ)) =
        .ok points ∧
      points = Placement.percentiles samples pieces ∧ points.length = pieces - 1 ∧
      points.Pairwise (· ≤ ·) ∧
      ∃ smallest ∈ samples, ∃ largest ∈ samples,
        (∀ y ∈ samples, smallest ≤ y ∧ y ≤ largest) ∧
        ∀ x ∈ points, smallest ≤ x ∧ x ≤ largest) ∧
    ∀ (c : LiftingCompiler ℝ β) (rows : List (List ℝ)), c.inner? = none →
      c.model.uncertainty.allBounded = true → rows ≠ [] →
      (∀ row ∈ rows, row.length = c.model.numUncertainties) →
      ∃ placed, addPercentiles pieces rows c = .ok ⟨⟩ (c.withSeries placed) ∧
        CheckedLifting.addPercentiles pieces rows c = .ok ⟨⟩ (c.withSeries placed) ∧
        List.Forall₂ (Places (fun slot _ => Placement.percentiles (column rows slot) pieces)
          c.model.uncertainty) c.model.uncertainty.vars.entries placed := by
  constructor
  · intro samples hsamples
    refine ⟨_, CheckedLifting.percentiles_eq_ok hsamples pieces, rfl, ?_,
      Placement.pairwise_percentiles samples pieces, Placement.percentiles_between hsamples pieces⟩
    rw [Placement.percentiles, List.length_map, List.length_range']
  · intro c rows hc hbounded hrows hlength
    obtain ⟨placed, hrun, hplaced⟩ := addToEach_eq_ok hc hbounded fun slot _ =>
      BreakpointSeries.decreases_eq_false_iff.2
        (Placement.pairwise_percentiles (column rows slot) pieces)
    rw [← addPercentiles_eq_addToEach hrows hlength] at hrun
    exact ⟨placed, hrun, (CheckedLifting.agrees_addPercentiles pieces rows).eq_ok_iff.2 hrun,
      hplaced⟩

/-- A single sample is its own percentiles, and two realizations place three pieces along both
uncertainties of the disk. -/
theorem addPercentiles_succeeds_disk :
    (∃ points : List ℝ, points = Placement.percentiles [1 / 2] 3 ∧ points.length = 2 ∧
      ∀ x ∈ points, x = 1 / 2) ∧
    ∃ placed, placed.length = 2 ∧
      addPercentiles 3 [[1 / 2, -1], [0, 1]] diskCompiler =
        .ok ⟨⟩ (diskCompiler.withSeries placed) := by
  obtain ⟨hcuts, hplaced⟩ := addPercentiles_succeeds (β := Unit) 3
  constructor
  · obtain ⟨points, -, heq, hlength, -, smallest, hsmallest, largest, hlargest, -, hbetween⟩ :=
      hcuts [1 / 2] (List.cons_ne_nil _ _)
    rw [List.mem_singleton] at hsmallest hlargest
    subst hsmallest hlargest
    exact ⟨points, heq, hlength, fun x hx => le_antisymm (hbetween x hx).2 (hbetween x hx).1⟩
  · have hbounded : disk.uncertainty.allBounded = true := by
      simp [UncertaintySet.allBounded, UncertaintySet.bounds, disk, square, Bounds.isBounded]
    have hlength : ∀ row ∈ [[1 / 2, -1], [0, (1 : ℝ)]],
        row.length = diskCompiler.model.numUncertainties := by
      simp [diskCompiler, new, disk, square, RobustModel.numUncertainties,
        UncertaintySet.numVariables, Store.size]
    obtain ⟨placed, hrun, -, halong⟩ := hplaced diskCompiler [[1 / 2, -1], [0, 1]] rfl hbounded
      (List.cons_ne_nil _ _) hlength
    exact ⟨placed, halong.length_eq.symm, hrun⟩

end LiftingCompiler

end AdjustableRobust
