import AdjustableRobust.Proofs.Lifting.Placement
import Mathlib.Analysis.Convex.SpecificFunctions.Pow

/-!
# Induced breakpoints

The largest sum of magnitudes of `k` uncertainties grows with `k`, but less and less: for each shape
it is a concave function of `k`. Its growth from one share of the uncertainties to the next is
therefore a list of points in order, and with opposites and zero in front of them a list that is
mirrored at zero. What is kept of it inside the bounds of an uncertainty is mirrored, too, when the
bounds are.
-/

namespace AdjustableRobust

/-! ## Growth of the largest sum -/

namespace UncertaintySet

variable {s : UncertaintySet ℝ} {f : ℝ → ℝ}

/-- The largest sums of magnitudes lie on the graph of a concave function that does not decrease. -/
structure GrowsAlong (s : UncertaintySet ℝ) (f : ℝ → ℝ) : Prop where
  concave : ConcaveOn ℝ (Set.Ici 0) f
  monotone : MonotoneOn f (Set.Ici 0)
  /-- It has the largest sums as its values. -/
  value : ∀ k : ℕ, k ≤ s.numVariables → s.maxOneNorm k = .ok (f k)

/-- Shapes with equal finite bounds have such a function: the bounds allow a linear growth, which a
budget cuts off at a constant and a ball at a multiple of the square root. -/
theorem exists_growsAlong (htype : s.specialType ≠ .other) (hequal : s.equalBounds = true)
    (hbounded : s.allBounded = true) (hn : 0 < s.numVariables) : ∃ f, s.GrowsAlong f := by
  obtain ⟨a, ha⟩ := exists_single_of_specialType htype
  obtain ⟨m, hm⟩ := (allBounded_iff_magnitude? hequal hn).1 hbounded
  obtain ⟨v, -, hv⟩ := Option.bind_eq_some_iff.1 hm
  have hm0 := Bounds.nonneg_of_magnitude? hv
  have hlinear : ConcaveOn ℝ (Set.Ici 0) fun x : ℝ => m * x :=
    (concaveOn_id (convex_Ici 0)).smul hm0
  have hlinear' : MonotoneOn (fun x : ℝ => m * x) (Set.Ici 0) :=
    fun x _ y _ hxy => mul_le_mul_of_nonneg_left hxy hm0
  have hvalue {f : ℝ → ℝ} (hzero : f 0 = 0) (hsums : ∀ k : ℕ, s.SumsUpTo a k (f k)) :
      ∀ k : ℕ, k ≤ s.numVariables → s.maxOneNorm k = .ok (f k) := by
    intro k hk
    obtain rfl | hpos := Nat.eq_zero_or_pos k
    · rw [maxOneNorm, if_pos rfl, Nat.cast_zero, hzero]
      rfl
    · exact (hsums k).maxOneNorm_eq_ok hpos hk hequal ha
  have hcapped (cap x : ℝ) :
      capped cap (s.magnitude?.map fun m : ℝ => x * m) = min (m * x) cap := by
    rw [hm, Option.map_some, capped, Scalar.min_real, mul_comm]
  cases htype' : s.specialType with
  | box =>
    have hempty := ((specialType_eq_box_iff ha).1 htype').1
    refine ⟨fun x => m * x, hlinear, hlinear', hvalue (mul_zero m) fun k => ?_⟩
    rw [mul_comm]
    exact .box hempty hm
  | budget =>
    obtain ⟨radius, hball⟩ := (specialType_eq_budget_iff ha).1 htype'
    have hradius := (ConstraintSet.normBall?_eq_some hball).1
    refine ⟨fun x => min (m * x) radius, hlinear.inf (concaveOn_const radius (convex_Ici 0)),
      hlinear'.min monotoneOn_const,
      hvalue (f := fun x => min (m * x) radius) ?_ fun k => ?_⟩
    · rw [mul_zero, min_eq_left hradius]
    · rw [← hcapped]
      exact .budget hball
  | ball =>
    obtain ⟨radius, hball⟩ := (specialType_eq_ball_iff ha).1 htype'
    have hradius := (ConstraintSet.normBall?_eq_some hball).1
    have hroot : ConcaveOn ℝ (Set.Ici 0) fun x => radius * Real.sqrt x :=
      Real.strictConcaveOn_sqrt.concaveOn.smul hradius
    have hroot' : MonotoneOn (fun x => radius * Real.sqrt x) (Set.Ici 0) :=
      fun x _ y _ hxy => mul_le_mul_of_nonneg_left (Real.sqrt_le_sqrt hxy) hradius
    refine ⟨fun x => min (m * x) (radius * Real.sqrt x), hlinear.inf hroot, hlinear'.min hroot',
      hvalue (f := fun x => min (m * x) (radius * Real.sqrt x)) ?_ fun k => ?_⟩
    · rw [mul_zero, Real.sqrt_zero, mul_zero, min_self]
    · rw [← hcapped, mul_comm radius]
      exact .ball hball
  | other => exact absurd htype' htype

/-- How much a function grows when one more uncertainty is active. -/
def growth (f : ℝ → ℝ) (k : ℕ) : ℝ := f (k + 1 : ℕ) - f k

private theorem GrowsAlong.growth_nonneg (h : s.GrowsAlong f) (k : ℕ) : 0 ≤ growth f k :=
  sub_nonneg.2 (h.monotone (Set.mem_Ici.2 k.cast_nonneg) (Set.mem_Ici.2 (Nat.cast_nonneg _))
    (Nat.cast_le.2 k.le_succ))

private theorem GrowsAlong.growth_antitone (h : s.GrowsAlong f) : Antitone (growth f) := by
  refine antitone_nat_of_succ_le fun k => ?_
  have hslope := h.concave.slope_anti_adjacent (x := (k : ℝ)) (y := (k + 1 : ℕ))
    (z := (k + 1 + 1 : ℕ)) (Set.mem_Ici.2 k.cast_nonneg) (Set.mem_Ici.2 (Nat.cast_nonneg _))
    (Nat.cast_lt.2 k.lt_succ_self) (Nat.cast_lt.2 (k + 1).lt_succ_self)
  have hstep (i : ℕ) : ((i + 1 : ℕ) : ℝ) - i = 1 := by push_cast; ring
  rwa [hstep, hstep, div_one, div_one] at hslope

end UncertaintySet

/-! ## Mirrored lists -/

/-- Turning all signs turns the order. -/
def Mirrored (xs : List ℝ) : Prop := xs.reverse = xs.map fun x => -x

private theorem mirrored_append (xs : List ℝ) :
    Mirrored ((xs.map fun x => -x) ++ [0] ++ xs.reverse) := by
  simp [Mirrored]

namespace BreakpointSeries

/-- What is kept of a mirrored list between opposite ends is mirrored. -/
theorem mirrored_keepInside {u : ℝ} {bs : List ℝ} (hbs : bs.Pairwise (· ≤ ·))
    (hmirrored : Mirrored bs) : Mirrored (keepInside (-u) u none bs) := by
  have hincreasing := (keepInside_spec (-u) u none bs).2
  have hreversed : (keepInside (-u) u none bs).reverse.Pairwise (· > ·) :=
    List.pairwise_reverse.2 hincreasing
  have hturned : ((keepInside (-u) u none bs).map fun x => -x).Pairwise (· > ·) :=
    List.pairwise_map.2 (hincreasing.imp neg_lt_neg)
  have hnodup {l : List ℝ} (hl : l.Pairwise (· > ·)) : l.Nodup := hl.imp ne_of_gt
  have hneg (x : ℝ) : -x ∈ bs ↔ x ∈ bs := by
    rw [← List.mem_reverse, hmirrored, List.mem_map]
    simp
  refine List.Perm.eq_of_pairwise (fun x y _ _ hxy hyx => absurd hxy (lt_asymm hyx)) hreversed
    hturned ((List.perm_ext_iff_of_nodup (hnodup hreversed) (hnodup hturned)).2 fun x => ?_)
  rw [List.mem_reverse, mem_keepInside_iff hbs, List.mem_map]
  constructor
  · rintro ⟨hx, ⟨hlower, hupper⟩, -⟩
    refine ⟨-x, (mem_keepInside_iff hbs).2 ⟨(hneg x).2 hx, ⟨?_, ?_⟩, by simp⟩, neg_neg x⟩
    · exact neg_lt_neg hupper
    · exact neg_lt.1 hlower
  · rintro ⟨y, hy, rfl⟩
    obtain ⟨hy, ⟨hlower, hupper⟩, -⟩ := (mem_keepInside_iff hbs).1 hy
    exact ⟨(hneg y).2 hy, ⟨neg_lt_neg hupper, neg_lt.1 hlower⟩, by simp⟩

/-- A series with mirrored breakpoints is symmetric. -/
theorem isSymmetric_of_mirrored {s : BreakpointSeries ℝ} (h : Mirrored s.breakPoints) :
    s.isSymmetric = true := by
  rw [isSymmetric, h, List.zip_map_left, List.all_map, List.all_eq_true]
  intro p hp
  obtain ⟨i, hi, rfl⟩ := List.getElem_of_mem hp
  simp

end BreakpointSeries

/-! ## Induced points -/

namespace Placement

open UncertaintySet (GrowsAlong growth)

variable {set : UncertaintySet ℝ} {f : ℝ → ℝ} {pieces : ℕ}

/-- What the shares of the uncertainties grow by, from the smallest share on. -/
noncomputable def growths (set : UncertaintySet ℝ) (f : ℝ → ℝ) (pieces : ℕ) : List ℝ :=
  (List.range' 1 (pieces - 1)).map fun i => growth f (i * set.numVariables / pieces)

/-- The growths from the largest share to the smallest, for symmetric sets after their opposites and
zero. -/
noncomputable def inducedPoints (set : UncertaintySet ℝ) (f : ℝ → ℝ) (symmetric : Bool)
    (pieces : ℕ) : List ℝ :=
  (if symmetric then ((growths set f pieces).map fun x => -x) ++ [0] else []) ++
    (growths set f pieces).reverse

/-- At every share there is one more uncertainty, so both largest sums exist. -/
theorem kappaStep_eq_ok (h : set.GrowsAlong f) (hn : 0 < set.numVariables) {i : ℕ}
    (hi : i < pieces) : kappaStep set pieces i =
      .ok (f (i * set.numVariables / pieces : ℕ), f (i * set.numVariables / pieces + 1 : ℕ)) := by
  have hk : i * set.numVariables / pieces < set.numVariables :=
    Nat.div_lt_of_lt_mul ((Nat.mul_lt_mul_right hn).2 hi)
  rw [kappaStep, h.value _ hk.le, h.value _ hk]
  rfl

/-- What a set induces are the growths of its largest sums. -/
theorem kappaInduced_eq_ok (h : set.GrowsAlong f) (hn : 0 < set.numVariables) (symmetric : Bool)
    (pieces : ℕ) :
    kappaInduced set symmetric pieces = .ok (inducedPoints set f symmetric pieces) := by
  have hstep : ∀ i ∈ List.range' 1 (pieces - 1), kappaStep set pieces i =
      .ok (f (i * set.numVariables / pieces : ℕ), f (i * set.numVariables / pieces + 1 : ℕ)) := by
    intro i hi
    rw [List.mem_range'_1] at hi
    exact kappaStep_eq_ok h hn (by omega)
  have hfront : (List.range' 1 (pieces - 1)).mapM (fun i => do
      let (x, y) ← kappaStep set pieces i
      return x - y) = .ok ((growths set f pieces).map fun x => -x) := by
    rw [growths, List.map_map]
    refine mapM_eq_ok_iff.2 (List.forall₂_map_right_iff.2 (List.forall₂_same.2 fun i hi => ?_))
    rw [hstep i hi]
    simp [growth]
  have hback : (List.range' 1 (pieces - 1)).reverse.mapM (fun i => do
      let (x, y) ← kappaStep set pieces i
      return y - x) = .ok (growths set f pieces).reverse := by
    rw [growths, ← List.map_reverse]
    refine mapM_eq_ok_iff.2 (List.forall₂_map_right_iff.2 (List.forall₂_same.2 fun i hi => ?_))
    rw [hstep i (List.mem_reverse.1 hi)]
    rfl
  rw [kappaInduced]
  cases symmetric with
  | true => exact bind_eq_ok_iff.2 ⟨_, hfront, bind_eq_ok_iff.2 ⟨_, rfl,
      bind_eq_ok_iff.2 ⟨_, hback, rfl⟩⟩⟩
  | false => exact bind_eq_ok_iff.2 ⟨_, rfl, bind_eq_ok_iff.2 ⟨_, hback, rfl⟩⟩

private theorem growths_spec (h : set.GrowsAlong f) (pieces : ℕ) :
    (∀ x ∈ growths set f pieces, 0 ≤ x) ∧ (growths set f pieces).Pairwise (· ≥ ·) := by
  refine ⟨List.forall_mem_map.2 fun i _ => h.growth_nonneg _, List.pairwise_map.2 ?_⟩
  refine List.Pairwise.imp (fun {i j} hij => h.growth_antitone ?_) List.pairwise_lt_range'
  exact Nat.div_le_div_right (Nat.mul_le_mul_right _ hij.le)

/-- Induced points do not decrease. -/
theorem inducedPoints_pairwise (h : set.GrowsAlong f) (symmetric : Bool) (pieces : ℕ) :
    (inducedPoints set f symmetric pieces).Pairwise (· ≤ ·) := by
  obtain ⟨hnonneg, hdecreasing⟩ := growths_spec h pieces
  have hback : (growths set f pieces).reverse.Pairwise (· ≤ ·) :=
    List.pairwise_reverse.2 hdecreasing
  cases symmetric with
  | false => simpa [inducedPoints] using hback
  | true =>
    have hfront : ((growths set f pieces).map fun x => -x).Pairwise (· ≤ ·) :=
      List.pairwise_map.2 (hdecreasing.imp fun hxy => neg_le_neg hxy)
    rw [inducedPoints, if_pos rfl, List.pairwise_append, List.pairwise_append]
    refine ⟨⟨hfront, List.pairwise_singleton _ _, ?_⟩, hback, ?_⟩
    · intro x hx y hy
      obtain ⟨z, hz, rfl⟩ := List.mem_map.1 hx
      rw [List.mem_singleton.1 hy]
      exact neg_nonpos.2 (hnonneg z hz)
    · intro x hx y hy
      have hy0 : 0 ≤ y := hnonneg y (List.mem_reverse.1 hy)
      obtain hx | hx := List.mem_append.1 hx
      · obtain ⟨z, hz, rfl⟩ := List.mem_map.1 hx
        exact (neg_nonpos.2 (hnonneg z hz)).trans hy0
      · rwa [List.mem_singleton.1 hx]

/-- Induced points of a symmetric set are mirrored at zero. -/
theorem inducedPoints_mirrored (set : UncertaintySet ℝ) (f : ℝ → ℝ) (pieces : ℕ) :
    Mirrored (inducedPoints set f true pieces) := by
  rw [inducedPoints, if_pos rfl]
  exact mirrored_append _

end Placement

/-! ## Series with induced breakpoints -/

namespace LiftingCompiler

variable {β : Type} {c : LiftingCompiler ℝ β}

section

variable {set : UncertaintySet ℝ} {points : List ℝ}
variable {p q : UncertaintyRef × UncertaintyVariable ℝ} {s t : BreakpointSeries ℝ}

private theorem Places.breakPoints_eq (h : Places (fun _ _ => points) set p s)
    (hp : p ∈ set.vars.entries) :
    ∃ l u, p.2.bounds.lower? = some l ∧ p.2.bounds.upper? = some u ∧
      s.breakPoints = BreakpointSeries.keepInside l u none points := by
  rw [Places, BreakpointSeries.make_var_eq (variableAt_of_mem_entries hp)] at h
  split at h
  · next l u hl hu =>
    split at h
    · cases h
    · obtain rfl := Except.ok.inj h
      exact ⟨l, u, hl, hu, rfl⟩
  · cases h

/-- The same points leave the same breakpoints to all uncertainties with equal bounds. -/
theorem Places.breakPoints_congr (hs : Places (fun _ _ => points) set p s)
    (ht : Places (fun _ _ => points) set q t) (hp : p ∈ set.vars.entries)
    (hq : q ∈ set.vars.entries) (hequal : set.equalBounds = true) :
    s.breakPoints = t.breakPoints := by
  obtain ⟨l, u, hl, hu, hs⟩ := hs.breakPoints_eq hp
  obtain ⟨l', u', hl', hu', ht⟩ := ht.breakPoints_eq hq
  obtain ⟨hlower, hupper⟩ := UncertaintySet.eq_bounds_of_equalBounds hequal
    (Store.mem_items_of_mem_entries hp) (Store.mem_items_of_mem_entries hq)
  obtain rfl := Option.some.inj (hl.symm.trans (hlower.trans hl'))
  obtain rfl := Option.some.inj (hu.symm.trans (hupper.trans hu'))
  rw [hs, ht]

/-- Mirrored points make a symmetric series along an uncertainty with symmetric bounds. -/
theorem Places.isSymmetric (h : Places (fun _ _ => points) set p s) (hp : p ∈ set.vars.entries)
    (hordered : points.Pairwise (· ≤ ·)) (hmirrored : Mirrored points)
    (hbounds : p.2.bounds.isSymmetric = true) : s.isSymmetric = true := by
  obtain ⟨l, u, hl, hu, hs⟩ := h.breakPoints_eq hp
  rw [Bounds.isSymmetric, hl, hu] at hbounds
  have hopposite : -l = u := of_decide_eq_true hbounds
  have hlower : l = -u := by rw [← hopposite, neg_neg]
  apply BreakpointSeries.isSymmetric_of_mirrored
  rw [hs, hlower]
  exact BreakpointSeries.mirrored_keepInside hordered hmirrored

end

/-- When the set stays the same under permutations, and is symmetric or not negative, the induced
points are placed for every uncertainty. -/
theorem addKappaInduced_eq_ok {symmetric : Bool} {pieces : ℕ} {points : List ℝ}
    (hinvariant : c.model.uncertainty.rotationalInvariance = .decided true)
    (hsymmetry : c.model.uncertainty.symmetry = .decided symmetric)
    (hsigned : symmetric = true ∨ c.model.uncertainty.nonNegative = true)
    (hpoints : Placement.kappaInduced c.model.uncertainty symmetric pieces = .ok points)
    {c' : LiftingCompiler ℝ β} (hrun : addToEach (fun _ _ => points) c = .ok ⟨⟩ c') :
    addKappaInduced pieces c = .ok ⟨⟩ c' := by
  refine Step.bind_eq_ok_iff.2 ⟨c, c, rfl, Step.bind_eq_ok_iff.2 ⟨true, c, ?_, ?_⟩⟩
  · rw [hinvariant]
    rfl
  refine Step.bind_eq_ok_iff.2 ⟨symmetric, c, ?_, ?_⟩
  · rw [hsymmetry]
    rfl
  have hpass : ¬(!symmetric && !c.model.uncertainty.nonNegative) = true := by
    obtain rfl | hnonneg := hsigned
    · simp
    · simp [hnonneg]
  rw [if_neg hpass]
  exact Step.bind_eq_ok_iff.2 ⟨points, c, Step.ofExcept_eq_ok_iff.2 ⟨hpoints, rfl⟩, hrun⟩

/-- For every set of a known shape whose variables have equal finite bounds and that is symmetric or
not negative, induced breakpoints are placed, whatever the number of pieces: every largest sum that
is asked for exists, the points are what these sums grow by from share to share and do not decrease,
each uncertainty gets the series of the points along it, all series have the same breakpoints, and
those of a symmetric set are symmetric. -/
theorem addKappaInduced_succeeds (hc : c.inner? = none) {set : UncertaintySet ℝ}
    (hset : c.model.uncertainty = set) (htype : set.specialType ≠ .other)
    (hn : 0 < set.numVariables) (hequal : set.equalBounds = true)
    (hbounded : set.allBounded = true)
    (hsigned : set.bounds.all (·.isSymmetric) = true ∨ set.nonNegative = true) (pieces : ℕ) :
    ∃ f points placed, set.GrowsAlong f ∧
      points = Placement.inducedPoints set f (set.bounds.all (·.isSymmetric)) pieces ∧
      (∀ i < pieces, ∃ sums, Placement.kappaStep set pieces i = .ok sums) ∧
      Placement.kappaInduced set (set.bounds.all (·.isSymmetric)) pieces = .ok points ∧
      points.Pairwise (· ≤ ·) ∧
      addKappaInduced pieces c = .ok ⟨⟩ (c.withSeries placed) ∧
      List.Forall₂ (Places (fun _ _ => points) set) set.vars.entries placed ∧
      List.Forall₂ (IsAlong set) set.vars.entries placed ∧
      (∀ s ∈ placed, ∀ t ∈ placed, s.breakPoints = t.breakPoints) ∧
      (set.bounds.all (·.isSymmetric) = true → ∀ s ∈ placed, s.isSymmetric = true) := by
  subst hset
  obtain ⟨f, hf⟩ := UncertaintySet.exists_growsAlong htype hequal hbounded hn
  have hpoints := Placement.kappaInduced_eq_ok hf hn
    (c.model.uncertainty.bounds.all (·.isSymmetric)) pieces
  have hordered := Placement.inducedPoints_pairwise hf
    (c.model.uncertainty.bounds.all (·.isSymmetric)) pieces
  obtain ⟨placed, hrun, hplaced⟩ := addToEach_eq_ok hc hbounded fun _ _ =>
    BreakpointSeries.decreases_eq_false_iff.2 hordered
  have hinvariant : c.model.uncertainty.rotationalInvariance = .decided true := by
    rw [UncertaintySet.rotationalInvariance, if_neg htype, hequal]
  have hsymmetry : c.model.uncertainty.symmetry =
      .decided (c.model.uncertainty.bounds.all (·.isSymmetric)) := by
    rw [UncertaintySet.symmetry, if_neg htype]
  refine ⟨f, _, placed, hf, rfl, fun i hi => ⟨_, Placement.kappaStep_eq_ok hf hn hi⟩, hpoints,
    hordered, addKappaInduced_eq_ok hinvariant hsymmetry hsigned hpoints hrun, hplaced, ?_, ?_, ?_⟩
  · refine List.forall₂_iff_get.2 ⟨hplaced.length_eq, fun i hi hi' => ?_⟩
    exact (hplaced.get hi hi').isAlong (List.getElem_mem hi)
  · intro s hs t ht
    obtain ⟨p, hp, hs⟩ := exists_of_forall₂_right hplaced hs
    obtain ⟨q, hq, ht⟩ := exists_of_forall₂_right hplaced ht
    exact hs.breakPoints_congr ht hp hq hequal
  · intro hsymmetric s hs
    obtain ⟨p, hp, hs⟩ := exists_of_forall₂_right hplaced hs
    refine hs.isSymmetric hp hordered ?_ ?_
    · rw [hsymmetric]
      exact Placement.inducedPoints_mirrored _ f pieces
    · exact List.all_eq_true.1 hsymmetric _
        (List.mem_map_of_mem (Store.mem_items_of_mem_entries hp))

private theorem ordered_square : ∀ l u : ℝ, some (-1) = some l → some 1 = some u → ¬u < l := by
  rintro _ _ ⟨⟩ ⟨⟩
  norm_num

/-- Two uncertainties between minus one and one. -/
noncomputable def square : UncertaintySet ℝ :=
  let bounds : Bounds ℝ := ⟨some (-1), some 1, ordered_square⟩
  ⟨"disk", ⟨⟨0⟩, 0, [⟨"u", none, bounds⟩, ⟨"v", none, bounds⟩]⟩, ⟨⟨0⟩, 0, [.empty]⟩⟩

/-- The uncertainties on the disk of radius one. -/
noncomputable def disk : RobustModel ℝ where
  name := "disk"
  decisions := .new ⟨0⟩
  uncertainty := { square with
    alternatives := ⟨⟨0⟩, 0, [⟨[.named "ball" (square.normBall .two 1)]⟩]⟩ }
  constraints := []
  objective? := none
  distribution? := none

/-- A compiler for it. -/
noncomputable def diskCompiler : LiftingCompiler ℝ Unit :=
  new disk () ⟨none, none, false, 0, 0⟩ ⟨1⟩ ⟨2⟩

private theorem normBall?_disk : ConstraintSet.normBall?
    ⟨[.named "ball" (square.normBall .two 1)]⟩ square.vars.handles = some (.two, 1) :=
  ConstraintSet.normBall?_normBall square .two "ball" zero_le_one

private theorem equalBounds_disk : disk.uncertainty.equalBounds = true := by
  simp [UncertaintySet.equalBounds, UncertaintySet.bounds, disk, square, Bounds.same,
    Bounds.sameEnd]

private theorem maxOneNorm_disk {k : ℕ} (hpos : 0 < k) (hk : k ≤ 2) :
    disk.uncertainty.maxOneNorm k = .ok (min (k : ℝ) (Real.sqrt k)) := by
  have hmagnitude : disk.uncertainty.magnitude? = some 1 := by
    simp [UncertaintySet.magnitude?, disk, square, Bounds.magnitude?]
  have hsums := (UncertaintySet.SumsUpTo.ball (s := disk.uncertainty) (k := k)
    normBall?_disk).maxOneNorm_eq_ok hpos hk equalBounds_disk rfl
  rw [hsums, hmagnitude, Option.map_some, UncertaintySet.capped, Scalar.min_real, mul_one, mul_one]

private theorem growths_disk {f : ℝ → ℝ} (hf : disk.uncertainty.GrowsAlong f) :
    Placement.growths disk.uncertainty f 2 = [Real.sqrt 2 - 1] := by
  have hle : Real.sqrt 2 ≤ 2 := by
    rw [Real.sqrt_le_left two_pos.le]
    norm_num
  have hone : f 1 = 1 := by
    simpa using (hf.value 1 one_le_two).symm.trans (maxOneNorm_disk one_pos one_le_two)
  have htwo : f (1 + 1) = Real.sqrt 2 := by
    have hvalue := (hf.value 2 le_rfl).symm.trans (maxOneNorm_disk two_pos le_rfl)
    rw [Except.ok.injEq, Nat.cast_ofNat, min_eq_right hle] at hvalue
    rwa [one_add_one_eq_two]
  have hsize : disk.uncertainty.numVariables = 2 := rfl
  simp [Placement.growths, UncertaintySet.growth, hsize, hone, htwo]

private theorem keepInside_disk : BreakpointSeries.keepInside (-1) 1 none
    [-(Real.sqrt 2 - 1), 0, Real.sqrt 2 - 1] = [-(Real.sqrt 2 - 1), 0, Real.sqrt 2 - 1] := by
  have hlower : 1 < Real.sqrt 2 := Real.lt_sqrt_of_sq_lt (by norm_num)
  have hupper : Real.sqrt 2 < 2 := by
    rw [Real.sqrt_lt' two_pos]
    norm_num
  have hstart : -1 < 1 - Real.sqrt 2 := by linarith
  have hend : Real.sqrt 2 - 1 < 1 := by linarith
  have hback : -1 < Real.sqrt 2 - 1 := by linarith
  have hfront : 1 - Real.sqrt 2 < 1 := by linarith
  simp [BreakpointSeries.keepInside, hlower, hstart, hend, hback, hfront]

/-- A fresh compiler places the same three breakpoints along both uncertainties of the disk: zero,
and what the length of a diagonal has beyond that of a side. -/
theorem addKappaInduced_succeeds_disk : ∃ placed, placed.length = 2 ∧
    addKappaInduced 2 diskCompiler = .ok ⟨⟩ (diskCompiler.withSeries placed) ∧
      ∀ s ∈ placed, s.breakPoints = [-(Real.sqrt 2 - 1), 0, Real.sqrt 2 - 1] ∧
        s.isSymmetric = true := by
  have hset : diskCompiler.model.uncertainty = disk.uncertainty := rfl
  have htype : disk.uncertainty.specialType = .ball :=
    (UncertaintySet.specialType_eq_ball_iff rfl).2 ⟨1, normBall?_disk⟩
  have hbounded : disk.uncertainty.allBounded = true := by
    simp [UncertaintySet.allBounded, UncertaintySet.bounds, disk, square, Bounds.isBounded]
  have hsymmetric : disk.uncertainty.bounds.all (·.isSymmetric) = true := by
    simp [UncertaintySet.bounds, disk, square, Bounds.isSymmetric]
  obtain ⟨f, points, placed, hf, hpoints, -, -, -, hrun, hplaced, halong, -, hmirrored⟩ :=
    addKappaInduced_succeeds (c := diskCompiler) rfl hset (htype.trans_ne (by decide)) Nat.two_pos
      equalBounds_disk hbounded (.inl hsymmetric) 2
  rw [hsymmetric, Placement.inducedPoints, if_pos rfl, growths_disk hf] at hpoints
  subst hpoints
  refine ⟨placed, halong.length_eq.symm, hrun, fun s hs => ⟨?_, hmirrored hsymmetric s hs⟩⟩
  obtain ⟨p, hp, hs⟩ := exists_of_forall₂_right hplaced hs
  obtain ⟨l, u, hl, hu, hkept⟩ := hs.breakPoints_eq hp
  have hbounds : ∀ v ∈ disk.uncertainty.vars.items,
      v.bounds.lower? = some (-1) ∧ v.bounds.upper? = some 1 := by
    simp [disk, square]
  obtain ⟨hlower, hupper⟩ := hbounds _ (Store.mem_items_of_mem_entries hp)
  obtain rfl := Option.some.inj (hl.symm.trans hlower)
  obtain rfl := Option.some.inj (hu.symm.trans hupper)
  exact hkept.trans keepInside_disk

end LiftingCompiler

end AdjustableRobust
