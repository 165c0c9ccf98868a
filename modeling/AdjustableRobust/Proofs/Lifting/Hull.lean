import Mathlib.Analysis.Convex.Combination
import AdjustableRobust.Proofs.Lifting.Pieces

/-!
# Mixtures of lifted values

Lifting the values of a range yields vectors whose convex hull is a simplex: its corners belong to
the ends of the range and the breakpoints inside. Amounts in the pieces are a mixture of these
corners when they lie between the amounts of the ends of the range and no piece is filled further
than the one before it, where both are measured by what the range leaves of them.
-/

namespace AdjustableRobust

namespace BreakpointSeries

variable {s : BreakpointSeries ℝ} {l u : ℝ} {p : ℕ → ℝ} {i k : ℕ}

/-! ## Corners -/

/-- The start of a piece, moved into a range. -/
noncomputable def corner (s : BreakpointSeries ℝ) (l u : ℝ) (k : ℕ) : ℝ :=
  max l (min (s.pieceStart k) u)

/-- Corners lie in the range. -/
theorem corner_mem_Icc (hlu : l ≤ u) (k : ℕ) : s.corner l u k ∈ Set.Icc l u :=
  ⟨le_max_left _ _, max_le hlu (min_le_right _ _)⟩

/-- A piece before a corner holds what it holds of the upper end. -/
theorem portion_corner_of_lt (hs : s.Ordered) (hlu : l ≤ u) (h : i < k) :
    s.portion (s.corner l u k) i = s.portion u i := by
  have hend : s.pieceEnd i ≤ s.pieceStart k := hs.pieceEnd_le_pieceStart h
  rcases le_total u (s.pieceStart k) with hu | hu
  · rw [corner, min_eq_right hu, max_eq_right hlu]
  · rw [corner, min_eq_left hu, portion_eq_width hs (hend.trans (le_max_right _ _)),
      portion_eq_width hs (hend.trans hu)]

/-- A piece behind a corner holds what it holds of the lower end. -/
theorem portion_corner_of_le (hs : s.Ordered) (h : k ≤ i) :
    s.portion (s.corner l u k) i = s.portion l i := by
  have hstart : min (s.pieceStart k) u ≤ s.pieceStart i :=
    (min_le_left _ _).trans (hs.pieceStart_mono h)
  rcases le_total (min (s.pieceStart k) u) l with hl | hl
  · rw [corner, max_eq_left hl]
  · rw [corner, max_eq_right hl, portion_eq_zero hstart, portion_eq_zero (hl.trans hstart)]

private theorem sum_differences (T : ℕ → ℝ) {n : ℕ} (h : i < n) :
    (∑ k ∈ Finset.range n, if i < k then T k - T (k + 1) else 0) = T (i + 1) - T n := by
  induction n, h using Nat.le_induction with
  | base =>
    rw [sub_self]
    refine Finset.sum_eq_zero fun k hk => if_neg ?_
    exact not_lt.2 (Nat.le_of_lt_succ (Finset.mem_range.1 hk))
  | succ n hn ih =>
    rw [Finset.sum_range_succ, ih, if_pos (Nat.lt_of_succ_le hn)]
    ring

/-- Amounts that fill falling shares of what a range leaves of the pieces are a mixture of the
corners, with the differences of the shares as weights. -/
theorem mem_convexHull_of_shares (hs : s.Ordered) (hlu : l ≤ u) {T : ℕ → ℝ} (hT : Antitone T)
    (hzero : T 0 = 1) (hlast : T (s.numPieces + 1) = 0)
    (hp : ∀ i, p i = if i < s.numPieces then
      s.portion l i + T (i + 1) * (s.portion u i - s.portion l i) else 0) :
    p ∈ convexHull ℝ ((fun v => entryAt (s.lifted v)) '' Set.Icc l u) := by
  have hmixed : p = ∑ k ∈ Finset.range (s.numPieces + 1),
      (T k - T (k + 1)) • entryAt (s.lifted (s.corner l u k)) := by
    funext i
    rw [hp i, Finset.sum_apply]
    by_cases hi : i < s.numPieces
    · have hentry : ∀ k, entryAt (s.lifted (s.corner l u k)) i =
          s.portion l i + if i < k then s.portion u i - s.portion l i else 0 := by
        intro k
        rw [entryAt, List.getD_eq_getElem?_getD, s.getElem?_lifted _ hi, Option.getD_some]
        split
        · next h =>
          rw [portion_corner_of_lt hs hlu h]
          ring
        · next h => rw [portion_corner_of_le hs (not_lt.1 h), add_zero]
      have hsplit : ∀ k, ((T k - T (k + 1)) • entryAt (s.lifted (s.corner l u k))) i =
          (T k - T (k + 1)) * s.portion l i +
            (if i < k then T k - T (k + 1) else 0) * (s.portion u i - s.portion l i) := by
        intro k
        rw [Pi.smul_apply, smul_eq_mul, hentry]
        split <;> ring
      rw [if_pos hi, Finset.sum_congr rfl fun k _ => hsplit k, Finset.sum_add_distrib,
        ← Finset.sum_mul, ← Finset.sum_mul, Finset.sum_range_sub', hzero, hlast,
        sum_differences T (Nat.lt_succ_of_lt hi), hlast]
      ring
    · rw [if_neg hi]
      refine (Finset.sum_eq_zero fun k _ => ?_).symm
      rw [Pi.smul_apply, entryAt, List.getD_eq_getElem?_getD,
        List.getElem?_eq_none (by simpa using hi), Option.getD_none, smul_zero]
  rw [hmixed]
  refine (convex_convexHull ℝ _).sum_mem (fun k _ => sub_nonneg.2 (hT k.le_succ)) ?_ fun k _ => ?_
  · rw [Finset.sum_range_sub', hzero, hlast, sub_zero]
  · exact subset_convexHull ℝ _ ⟨_, corner_mem_Icc hlu k, rfl⟩

/-! ## Clipped amounts -/

/-- Amounts lie between those of the ends of a range. A piece that ends inside the range is filled
before the next one, where both are measured by what the range leaves of them. -/
structure Clips (s : BreakpointSeries ℝ) (l u : ℝ) (p : ℕ → ℝ) : Prop where
  bounds : ∀ i < s.numPieces, s.portion l i ≤ p i ∧ p i ≤ s.portion u i
  /-- Filling one piece after the other. -/
  fill : ∀ i, i + 1 < s.numPieces → l < s.pieceEnd i → s.pieceEnd i < u →
    p (i + 1) / s.portion u (i + 1) ≤ (p i - s.portion l i) / (s.pieceWidth i - s.portion l i)

/-- The share to which an amount fills what a range leaves of a piece: nothing above the range, and
everything below it. -/
noncomputable def share (s : BreakpointSeries ℝ) (l u : ℝ) (p : ℕ → ℝ) (i : ℕ) : ℝ :=
  if u ≤ s.pieceStart i then 0
  else if s.pieceEnd i ≤ l then 1
  else (p i - s.portion l i) / (s.portion u i - s.portion l i)

namespace Clips

/-- Amounts are given by their shares. -/
theorem eq_add_share_mul (h : s.Clips l u p) (hs : s.Ordered) (hlu : l ≤ u)
    (hi : i < s.numPieces) :
    p i = s.portion l i + s.share l u p i * (s.portion u i - s.portion l i) := by
  obtain ⟨hl, hu⟩ := h.bounds i hi
  rcases eq_or_ne (s.portion u i) (s.portion l i) with heq | hne
  · rw [heq, sub_self, mul_zero, add_zero]
    exact le_antisymm (hu.trans heq.le) hl
  · have hstart : ¬u ≤ s.pieceStart i := fun hstart =>
      hne ((portion_eq_zero hstart).trans (portion_eq_zero (hlu.trans hstart)).symm)
    have hend : ¬s.pieceEnd i ≤ l := fun hend =>
      hne ((portion_eq_width hs (hend.trans hlu)).trans (portion_eq_width hs hend).symm)
    rw [share, if_neg hstart, if_neg hend, div_mul_cancel₀ _ (sub_ne_zero.2 hne)]
    ring

/-- Shares are fractions. -/
theorem share_mem_Icc (h : s.Clips l u p) (hi : i < s.numPieces) :
    s.share l u p i ∈ Set.Icc 0 1 := by
  obtain ⟨hl, hu⟩ := h.bounds i hi
  rw [share]
  split
  · exact ⟨le_rfl, zero_le_one⟩
  · split
    · exact ⟨zero_le_one, le_rfl⟩
    · have hrest : 0 ≤ s.portion u i - s.portion l i := sub_nonneg.2 (hl.trans hu)
      exact ⟨div_nonneg (sub_nonneg.2 hl) hrest,
        div_le_one_of_le₀ (sub_le_sub_right hu _) hrest⟩

/-- Nothing is filled behind the last piece. -/
theorem share_eq_zero (hu : u ≤ s.upper) (hi : s.numPieces ≤ i) : s.share l u p i = 0 := by
  obtain ⟨j, rfl⟩ : ∃ j, i = j + 1 := Nat.exists_eq_succ_of_ne_zero (by rw [numPieces] at hi; omega)
  rw [share, pieceStart_succ, pieceEnd_of_le (by rw [numPieces] at hi; omega), if_pos hu]

/-- Shares fall. -/
theorem share_succ_le (h : s.Clips l u p) (hs : s.Ordered) (hu : u ≤ s.upper) (i : ℕ) :
    s.share l u p (i + 1) ≤ s.share l u p i := by
  by_cases hlast : s.numPieces ≤ i + 1
  · rw [share_eq_zero hu hlast]
    by_cases hi : i < s.numPieces
    · exact (h.share_mem_Icc hi).1
    · exact (share_eq_zero hu (not_lt.1 hi)).ge
  have hnext : i + 1 < s.numPieces := not_le.1 hlast
  have hmem := h.share_mem_Icc ((Nat.lt_succ_self i).trans hnext)
  have hmem' := h.share_mem_Icc hnext
  rcases le_or_gt u (s.pieceEnd i) with habove | habove
  · have hzero : s.share l u p (i + 1) = 0 := if_pos habove
    exact hzero.trans_le hmem.1
  rcases le_or_gt (s.pieceEnd i) l with hbelow | hbelow
  · have hone : s.share l u p i = 1 := by
      rw [share, if_pos hbelow]
      exact if_neg (not_le.2 ((hs.pieceStart_le_pieceEnd i).trans_lt habove))
    exact hmem'.2.trans hone.ge
  -- the piece ends inside the range, so both shares are those that clipping compares
  have hfill := h.fill i hnext hbelow habove
  have hend : s.pieceEnd i ≤ s.pieceEnd (i + 1) := hs.pieceEnd_mono i.le_succ
  have hcurrent : s.share l u p i =
      (p i - s.portion l i) / (s.pieceWidth i - s.portion l i) := by
    rw [share, if_neg (not_le.2 ((hs.pieceStart_le_pieceEnd i).trans_lt habove)),
      if_neg (not_le.2 hbelow), portion_eq_width hs habove.le]
  have hafter : s.share l u p (i + 1) = p (i + 1) / s.portion u (i + 1) := by
    rw [share, pieceStart_succ, if_neg (not_le.2 habove), if_neg (not_le.2 (hbelow.trans_le hend)),
      portion_eq_zero (x := l) (by simpa using hbelow.le), sub_zero, sub_zero]
  rw [hcurrent, hafter]
  exact hfill

/-- Clipped amounts are a mixture of the parts of values in the range. -/
theorem mem_convexHull (h : s.Clips l u p) (hs : s.Ordered) (hlu : l ≤ u) (hu : u ≤ s.upper)
    (hp : ∀ i, s.numPieces ≤ i → p i = 0) :
    p ∈ convexHull ℝ ((fun v => entryAt (s.lifted v)) '' Set.Icc l u) := by
  -- the shares with a full one in front
  set T : ℕ → ℝ := fun k => k.casesOn 1 (s.share l u p) with hT
  have hantitone : Antitone T := by
    refine antitone_nat_of_succ_le fun k => ?_
    cases k with
    | zero => exact (h.share_mem_Icc s.breakPoints.length.succ_pos).2
    | succ k => exact h.share_succ_le hs hu k
  refine mem_convexHull_of_shares hs hlu hantitone rfl (share_eq_zero hu le_rfl) fun i => ?_
  split
  · next hi => exact h.eq_add_share_mul hs hlu hi
  · next hi => exact hp i (not_lt.1 hi)

end Clips

end BreakpointSeries

/-! ## Mixing blocks side by side -/

/-- The first entries from one sequence, the others from another one. -/
private def beside (n : ℕ) : (ℕ → ℝ) × (ℕ → ℝ) →ₗ[ℝ] ℕ → ℝ where
  toFun q i := if i < n then q.1 i else q.2 (i - n)
  map_add' q q' := by
    funext i
    simp only [Prod.fst_add, Prod.snd_add, Pi.add_apply]
    split <;> rfl
  map_smul' c q := by
    funext i
    simp only [Prod.smul_fst, Prod.smul_snd, Pi.smul_apply, RingHom.id_apply]
    split <;> rfl

private theorem entryAt_append (xs ys : List ℝ) :
    entryAt (xs ++ ys) = beside xs.length (entryAt xs, entryAt ys) := by
  funext i
  simp only [entryAt, beside, LinearMap.coe_mk, AddHom.coe_mk, List.getD_eq_getElem?_getD]
  split
  · next h => rw [List.getElem?_append_left h]
  · next h => rw [List.getElem?_append_right (not_lt.1 h)]

/-- Mixtures of blocks, side by side, are a mixture of vectors of blocks. -/
theorem entryAt_append_mem_convexHull {A B C : Set (List ℝ)} {xs ys : List ℝ}
    (hA : ∀ a ∈ A, a.length = xs.length) (hC : ∀ a ∈ A, ∀ b ∈ B, a ++ b ∈ C)
    (hxs : entryAt xs ∈ convexHull ℝ (entryAt '' A))
    (hys : entryAt ys ∈ convexHull ℝ (entryAt '' B)) :
    entryAt (xs ++ ys) ∈ convexHull ℝ (entryAt '' C) := by
  have hpair : (entryAt xs, entryAt ys) ∈ convexHull ℝ ((entryAt '' A) ×ˢ (entryAt '' B)) := by
    rw [convexHull_prod]
    exact ⟨hxs, hys⟩
  have himage := Set.mem_image_of_mem (beside xs.length) hpair
  rw [LinearMap.image_convexHull, ← entryAt_append] at himage
  refine convexHull_mono ?_ himage
  rintro _ ⟨⟨_, _⟩, ⟨⟨a, ha, rfl⟩, ⟨b, hb, rfl⟩⟩, rfl⟩
  exact ⟨a ++ b, hC a ha b hb, by rw [entryAt_append, hA a ha]⟩

end AdjustableRobust
