import AdjustableRobust.Proofs.Lifting.Collection
import AdjustableRobust.Proofs.Lifting.Rotational
import AdjustableRobust.Proofs.Runs
import AdjustableRobust.Proofs.Store.Families

/-!
# Placing breakpoints for all uncertainties

A call that places breakpoints for all uncertainties takes one after the other, and fails at the
first one whose series cannot be made. The series made before stay. This concerns uncertainties
that lack a bound, and only the calls that give every uncertainty breakpoints of its own: the
induced breakpoints are the same for all uncertainties, whose bounds have to agree, so all series
can be made or none.
-/

namespace AdjustableRobust

/-! ## Points in order -/

namespace Placement

private theorem pairwise_ends {f : ℕ → ℝ} {pieces : ℕ}
    (hf : ∀ i j, i ≤ j → j < pieces → f i ≤ f j) :
    ((List.range' 1 (pieces - 1)).map f).Pairwise (· ≤ ·) := by
  refine List.pairwise_map.2 ?_
  refine List.Pairwise.imp_of_mem (fun {i j} _ hj hij => hf i j hij.le ?_) List.pairwise_lt_range'
  rw [List.mem_range'_1] at hj
  omega

/-- The ends of pieces of equal width do not decrease. -/
theorem decreases_equidistant {l u : ℝ} (h : l ≤ u) (pieces : ℕ) :
    BreakpointSeries.decreases (equidistant l u pieces) = false := by
  refine BreakpointSeries.decreases_eq_false_iff.2 (pairwise_ends fun i j hij _ => ?_)
  have hcast : (i : ℝ) ≤ j := Nat.cast_le.2 hij
  have hwidth : 0 ≤ u - l := sub_nonneg.2 h
  have hpieces : (0 : ℝ) ≤ pieces := Nat.cast_nonneg _
  change l + (i : ℝ) * (u - l) / (pieces : ℝ) ≤ l + (j : ℝ) * (u - l) / (pieces : ℝ)
  gcongr

private theorem interpolate_mono {g : ℕ → ℝ} {last : ℕ}
    (hg : ∀ i j, i ≤ j → j ≤ last → g i ≤ g j) {x y : ℝ} (hx : 0 ≤ x) (hxy : x ≤ y)
    (hy : y ≤ last) :
    g ⌊x⌋₊ + (g (min (⌊x⌋₊ + 1) last) - g ⌊x⌋₊) * (x - ⌊x⌋₊) ≤
      g ⌊y⌋₊ + (g (min (⌊y⌋₊ + 1) last) - g ⌊y⌋₊) * (y - ⌊y⌋₊) := by
  have hfloor : ⌊x⌋₊ ≤ ⌊y⌋₊ := Nat.floor_mono hxy
  have hlast : ⌊y⌋₊ ≤ last := Nat.floor_le_of_le hy
  have hslope : ∀ k, k ≤ last → 0 ≤ g (min (k + 1) last) - g k := fun k hk =>
    sub_nonneg.2 (hg _ _ (le_min k.le_succ hk) (min_le_right _ _))
  obtain heq | hlt := hfloor.eq_or_lt
  · rw [heq]
    gcongr
    exact hslope _ hlast
  · have hpart : x - ⌊x⌋₊ ≤ 1 := by linarith [Nat.lt_floor_add_one x]
    calc g ⌊x⌋₊ + (g (min (⌊x⌋₊ + 1) last) - g ⌊x⌋₊) * (x - ⌊x⌋₊)
        ≤ g ⌊x⌋₊ + (g (min (⌊x⌋₊ + 1) last) - g ⌊x⌋₊) * 1 := by
          gcongr
          exact hslope _ (hfloor.trans hlast)
      _ = g (min (⌊x⌋₊ + 1) last) := by ring
      _ ≤ g ⌊y⌋₊ := hg _ _ ((min_le_left _ _).trans hlt) hlast
      _ ≤ g ⌊y⌋₊ + (g (min (⌊y⌋₊ + 1) last) - g ⌊y⌋₊) * (y - ⌊y⌋₊) :=
          le_add_of_nonneg_right (mul_nonneg (hslope _ hlast)
            (sub_nonneg.2 (Nat.floor_le (hx.trans hxy))))

/-- Percentiles of samples in order do not decrease. -/
theorem percentile_mono {sorted : List ℝ} (hsorted : sorted.Pairwise (· ≤ ·)) {p q : ℝ}
    (hp : 0 ≤ p) (hpq : p ≤ q) (hq : q ≤ 1) : percentile sorted p ≤ percentile sorted q := by
  have hentries : ∀ i j, i ≤ j → j ≤ sorted.length - 1 →
      sorted[i]?.getD 0 ≤ sorted[j]?.getD (0 : ℝ) := by
    intro i j hij hj
    obtain rfl | hne := eq_or_ne sorted []
    · exact le_rfl
    · have hpos := List.length_pos_iff.2 hne
      have hj' : j < sorted.length := by omega
      rw [List.getElem?_eq_getElem hj', List.getElem?_eq_getElem (hij.trans_lt hj')]
      obtain rfl | hlt := hij.eq_or_lt
      · exact le_rfl
      · exact List.pairwise_iff_getElem.1 hsorted i j _ hj' hlt
  have hlast : (0 : ℝ) ≤ (sorted.length - 1 : ℕ) := Nat.cast_nonneg _
  exact interpolate_mono hentries (mul_nonneg hp hlast) (mul_le_mul_of_nonneg_right hpq hlast)
    (mul_le_of_le_one_left hlast hq)

/-- Sorting puts samples in order. -/
theorem pairwise_mergeSort (samples : List ℝ) :
    (samples.mergeSort Scalar.precedes).Pairwise (· ≤ ·) := by
  refine (List.pairwise_mergeSort (fun x y z hxy hyz => ?_) (fun x y => ?_) samples).imp
    fun h => of_decide_eq_true h
  · exact decide_eq_true ((of_decide_eq_true hxy).trans (of_decide_eq_true hyz))
  · rw [Bool.or_eq_true]
    exact (le_total x y).imp decide_eq_true decide_eq_true

/-- Percentiles that cut samples do not decrease. -/
theorem pairwise_percentiles (samples : List ℝ) (pieces : ℕ) :
    (percentiles samples pieces).Pairwise (· ≤ ·) := by
  refine pairwise_ends fun i j hij hj => percentile_mono (pairwise_mergeSort samples) ?_ ?_ ?_
  · exact div_nonneg (Nat.cast_nonneg i) (Nat.cast_nonneg pieces)
  · exact div_le_div_of_nonneg_right (Nat.cast_le.2 hij) (Nat.cast_nonneg pieces)
  · exact div_le_one_of_le₀ (Nat.cast_le.2 hj.le) (Nat.cast_nonneg pieces)

end Placement

/-! ## One series after the other -/

namespace LiftingCompiler

variable {β : Type} {c c' : LiftingCompiler ℝ β} {points : ℕ → UncertaintyVariable ℝ → List ℝ}

/-- The compiler with further series. -/
def withSeries (c : LiftingCompiler ℝ β) (placed : List (BreakpointSeries ℝ)) :
    LiftingCompiler ℝ β :=
  { c with series := c.series ++ placed }

@[simp] theorem model_withSeries (c : LiftingCompiler ℝ β) (placed : List (BreakpointSeries ℝ)) :
    (c.withSeries placed).model = c.model := rfl

@[simp] theorem inner?_withSeries (c : LiftingCompiler ℝ β) (placed : List (BreakpointSeries ℝ)) :
    (c.withSeries placed).inner? = c.inner? := rfl

@[simp] theorem withSeries_nil (c : LiftingCompiler ℝ β) : c.withSeries [] = c := by
  rw [withSeries, List.append_nil]

@[simp] theorem withSeries_withSeries (c : LiftingCompiler ℝ β)
    (first second : List (BreakpointSeries ℝ)) :
    (c.withSeries first).withSeries second = c.withSeries (first ++ second) := by
  simp only [withSeries, List.append_assoc]

/-- The series is made of the points for an uncertainty, along it. -/
def Places (points : ℕ → UncertaintyVariable ℝ → List ℝ) (set : UncertaintySet ℝ)
    (p : UncertaintyRef × UncertaintyVariable ℝ) (s : BreakpointSeries ℝ) : Prop :=
  BreakpointSeries.make (points p.1.slot p.2) (.var p.1) set.scope = .ok s

/-- Before the lifted model exists, a series is added if it can be made. -/
theorem addBreakpoints_collecting (hc : c.inner? = none) (points : List ℝ)
    (direction : LinearExpr ℝ UncertaintyRef) :
    addBreakpoints points direction c =
      match BreakpointSeries.make points direction c.model.uncertainty.scope with
      | .ok s => .ok () (c.withSeries [s])
      | .error e => .error e c := by
  unfold addBreakpoints
  change (if c.inner?.isSome = true then _ else _ : Step (LiftingCompiler ℝ β) _ _) c = _
  rw [hc, if_neg (by simp), RobustModel.uncertaintyScope]
  cases BreakpointSeries.make points direction c.model.uncertainty.scope <;> rfl

/-- Once the lifted model exists, no series is added. -/
theorem addBreakpoints_lifted (hc : c.inner?.isSome = true) (points : List ℝ)
    (direction : LinearExpr ℝ UncertaintyRef) :
    addBreakpoints points direction c = .error (.solver .alreadyBuilt) c := by
  unfold addBreakpoints
  change (if c.inner?.isSome = true then _ else _ : Step (LiftingCompiler ℝ β) _ _) c = _
  rw [if_pos hc]
  rfl

/-- A loop that succeeds adds a series along every uncertainty that it comes to. -/
theorem forM_addBreakpoints_eq_ok (hc : c.inner? = none)
    {entries : List (UncertaintyRef × UncertaintyVariable ℝ)} {u : PUnit}
    (hrun : (List.forM entries fun p => addBreakpoints (points p.1.slot p.2) (.var p.1) :
      Step (LiftingCompiler ℝ β) (PolicyError ℝ) PUnit) c = .ok u c') :
    ∃ placed, c' = c.withSeries placed ∧
      List.Forall₂ (Places points c.model.uncertainty) entries placed := by
  induction entries generalizing c with
  | nil =>
    obtain rfl := Step.forM_nil_eq_ok_iff.1 hrun
    exact ⟨[], c.withSeries_nil.symm, .nil⟩
  | cons p entries ih =>
    obtain ⟨c₁, hfirst, hrest⟩ := Step.forM_cons_eq_ok_iff.1 hrun
    rw [addBreakpoints_collecting hc] at hfirst
    split at hfirst
    · next s hs =>
      obtain ⟨-, rfl⟩ := EStateM.Result.ok.inj hfirst
      obtain ⟨placed, rfl, hplaced⟩ := ih (c := c.withSeries [s]) hc hrest
      exact ⟨s :: placed, c.withSeries_withSeries [s] placed, .cons hs hplaced⟩
    · cases hfirst

/-- A placement that fails has added the series along the uncertainties before the first one whose
series cannot be made. Once the lifted model exists it adds nothing. -/
theorem addToEach_eq_error {e : PolicyError ℝ} (hrun : addToEach points c = .error e c') :
    (c.inner?.isSome = true ∧ c' = c) ∨
      c.inner? = none ∧ ∃ before p after placed,
        c.model.uncertainty.vars.entries = before ++ p :: after ∧ c' = c.withSeries placed ∧
        List.Forall₂ (Places points c.model.uncertainty) before placed ∧
        BreakpointSeries.make (points p.1.slot p.2) (.var p.1) c.model.uncertainty.scope =
          .error e := by
  change (List.forM c.model.uncertainty.vars.entries fun p =>
    addBreakpoints (points p.1.slot p.2) (.var p.1) :
      Step (LiftingCompiler ℝ β) (PolicyError ℝ) PUnit) c = _ at hrun
  obtain ⟨before, p, after, c₁, hentries, hbefore, hp⟩ := Step.exists_of_forM_eq_error hrun
  cases hc : c.inner? with
  | some inner =>
    have hsome : c.inner?.isSome = true := by rw [hc]; rfl
    refine .inl ⟨rfl, ?_⟩
    cases before with
    | nil =>
      obtain rfl := Step.forM_nil_eq_ok_iff.1 hbefore
      rw [addBreakpoints_lifted hsome] at hp
      exact (EStateM.Result.error.inj hp).2.symm
    | cons q before =>
      obtain ⟨c₂, hq, -⟩ := Step.forM_cons_eq_ok_iff.1 hbefore
      rw [addBreakpoints_lifted hsome] at hq
      cases hq
  | none =>
    obtain ⟨placed, rfl, hplaced⟩ := forM_addBreakpoints_eq_ok hc hbefore
    rw [addBreakpoints_collecting (c := c.withSeries placed) hc] at hp
    split at hp
    · cases hp
    · next e' he =>
      obtain ⟨rfl, rfl⟩ := EStateM.Result.error.inj hp
      exact .inr ⟨rfl, before, p, after, placed, hentries, rfl, hplaced, he⟩

/-! ## Uncertainties that lack a bound -/

/-- The entries of a model are its uncertainties with their handles. -/
theorem variableAt_of_mem_entries {set : UncertaintySet ℝ}
    {p : UncertaintyRef × UncertaintyVariable ℝ} (hp : p ∈ set.vars.entries) :
    set.variableAt p.1 = .ok p.2 :=
  UncertaintySet.variableAt_eq_ok_iff.2 (Store.resolves_iff.1 (Store.resolves_of_mem_entries hp))

/-- A variable is bounded when it has both bounds. -/
theorem isBounded_iff {b : Bounds ℝ} :
    b.isBounded = true ↔ ∃ l u, b.lower? = some l ∧ b.upper? = some u := by
  rw [Bounds.isBounded]
  cases b.lower? <;> cases b.upper? <;> simp

/-- A series is made along an uncertainty that has both bounds, of points in order. -/
theorem exists_make_iff {set : UncertaintySet ℝ}
    {p : UncertaintyRef × UncertaintyVariable ℝ} (hp : p ∈ set.vars.entries) (points : List ℝ) :
    (∃ s, BreakpointSeries.make points (.var p.1) set.scope = .ok s) ↔
      p.2.bounds.isBounded = true ∧ BreakpointSeries.decreases points = false := by
  rw [BreakpointSeries.make_var_eq (variableAt_of_mem_entries hp), isBounded_iff]
  cases p.2.bounds.lower? <;> cases p.2.bounds.upper? <;>
    cases BreakpointSeries.decreases points <;> simp

/-- Uncertainties that all have bounds get a series each, when the points for them are in order. -/
theorem addToEach_eq_ok (hc : c.inner? = none) (hbounded : c.model.uncertainty.allBounded = true)
    (hpoints : ∀ slot v, BreakpointSeries.decreases (points slot v) = false) :
    ∃ placed, addToEach points c = .ok ⟨⟩ (c.withSeries placed) ∧
      List.Forall₂ (Places points c.model.uncertainty) c.model.uncertainty.vars.entries placed := by
  have hmade : ∀ p ∈ c.model.uncertainty.vars.entries,
      ∃ s, BreakpointSeries.make (points p.1.slot p.2) (.var p.1) c.model.uncertainty.scope =
        .ok s := by
    intro p hp
    rw [UncertaintySet.allBounded, UncertaintySet.bounds, List.all_map, List.all_eq_true]
      at hbounded
    exact (exists_make_iff hp _).2
      ⟨hbounded p.2 (Store.mem_items_of_mem_entries hp), hpoints _ _⟩
  cases hrun : addToEach points c with
  | error e c' =>
    obtain ⟨hlifted, -⟩ | ⟨-, before, p, after, placed, hentries, -, -, he⟩ :=
      addToEach_eq_error hrun
    · rw [hc] at hlifted
      cases hlifted
    · obtain ⟨s, hs⟩ := hmade p (by rw [hentries]; simp)
      cases hs.symm.trans he
  | ok u c' =>
    obtain ⟨placed, rfl, hplaced⟩ : ∃ placed, c' = c.withSeries placed ∧
        List.Forall₂ (Places points c.model.uncertainty)
          c.model.uncertainty.vars.entries placed := forM_addBreakpoints_eq_ok hc hrun
    exact ⟨placed, rfl, hplaced⟩

private theorem make_of_not_bounded {set : UncertaintySet ℝ}
    {p : UncertaintyRef × UncertaintyVariable ℝ} (hp : p ∈ set.vars.entries)
    (hlacks : ¬p.2.bounds.isBounded = true) (points : List ℝ) :
    BreakpointSeries.make points (.var p.1) set.scope = .error .unboundedDirection := by
  rw [BreakpointSeries.make_var_eq (variableAt_of_mem_entries hp)]
  split
  · next l u hl hu => exact absurd (isBounded_iff.2 ⟨l, u, hl, hu⟩) hlacks
  · rfl

/-- The series is one over the set, along the uncertainty. -/
def IsAlong (set : UncertaintySet ℝ) (p : UncertaintyRef × UncertaintyVariable ℝ)
    (s : BreakpointSeries ℝ) : Prop :=
  s.axis = .ok p.1 ∧ s.IsOver set

/-- The series that is placed for an uncertainty is along it. -/
theorem Places.isAlong {set : UncertaintySet ℝ}
    {p : UncertaintyRef × UncertaintyVariable ℝ} {s : BreakpointSeries ℝ}
    (h : Places points set p s) (hp : p ∈ set.vars.entries) : IsAlong set p s := by
  refine ⟨?_, _, _, h⟩
  rw [Places, BreakpointSeries.make_var_eq (variableAt_of_mem_entries hp)] at h
  split at h
  · split at h
    · cases h
    · obtain rfl := Except.ok.inj h
      simp [BreakpointSeries.axis, LinearExpr.var, LinearExpr.term]
  · cases h

/-- A placement has failed at an uncertainty that lacks a bound, and leaves the series along those
before. -/
structure StopsAtBound (c : LiftingCompiler ℝ β) (e : PolicyError ℝ) (c' : LiftingCompiler ℝ β) :
    Prop where
  error : e = .unboundedDirection
  /-- One series for each uncertainty before. -/
  placed : ∃ placed, c' = c.withSeries placed ∧
    List.Forall₂ (IsAlong c.model.uncertainty)
      (c.model.uncertainty.vars.entries.takeWhile fun p => p.2.bounds.isBounded) placed

/-- A placement with points in order that fails has come to an uncertainty that lacks a bound,
unless the lifted model exists. -/
theorem addToEach_eq_error_of_ordered {e : PolicyError ℝ}
    (hpoints : ∀ slot (v : UncertaintyVariable ℝ), v.bounds.isBounded = true →
      BreakpointSeries.decreases (points slot v) = false)
    (hrun : addToEach points c = .error e c') :
    (c.inner?.isSome = true ∧ c' = c) ∨ (c.inner? = none ∧ c.StopsAtBound e c') := by
  refine (addToEach_eq_error hrun).imp id ?_
  rintro ⟨hc, before, p, after, placed, hentries, rfl, hplaced, he⟩
  have hmem : ∀ q, q ∈ before ∨ q = p → q ∈ c.model.uncertainty.vars.entries := by
    intro q hq
    rw [hentries, List.mem_append, List.mem_cons]
    exact hq.imp_right .inl
  have hbounded : ∀ q ∈ before, q.2.bounds.isBounded = true := by
    intro q hq
    obtain ⟨s, -, hmade⟩ := exists_of_forall₂_left hplaced hq
    exact ((exists_make_iff (hmem q (.inl hq)) _).1 ⟨s, hmade⟩).1
  have hlacks : ¬p.2.bounds.isBounded = true := by
    intro h
    obtain ⟨s, hs⟩ := (exists_make_iff (hmem p (.inr rfl)) (points p.1.slot p.2)).2
      ⟨h, hpoints _ _ h⟩
    cases hs.symm.trans he
  have hstop : (p :: after).takeWhile (fun q => q.2.bounds.isBounded) = [] :=
    List.takeWhile_cons_of_neg hlacks
  have hwhile : c.model.uncertainty.vars.entries.takeWhile (fun q => q.2.bounds.isBounded) =
      before := by
    rw [hentries, List.takeWhile_append_of_pos hbounded, hstop, List.append_nil]
  have hmake := make_of_not_bounded (hmem p (.inr rfl)) hlacks (points p.1.slot p.2)
  refine ⟨hc, Except.error.inj (he.symm.trans hmake), placed, rfl, ?_⟩
  rw [hwhile]
  refine List.forall₂_iff_get.2 ⟨hplaced.length_eq, fun i hi hi' => ?_⟩
  exact (hplaced.get hi hi').isAlong (hmem _ (.inl (List.getElem_mem hi)))

/-! ## Uncertainties with equal bounds -/

/-- With equal bounds the same points make a series along all uncertainties or along none, so a
placement that fails adds nothing. -/
theorem addToEach_eq_error_of_equalBounds {e : PolicyError ℝ} {points : List ℝ}
    (hequal : c.model.uncertainty.equalBounds = true)
    (hrun : addToEach (fun _ _ => points) c = .error e c') : c' = c := by
  obtain ⟨-, rfl⟩ | ⟨-, before, p, after, placed, hentries, rfl, hplaced, he⟩ :=
    addToEach_eq_error hrun
  · rfl
  cases hplaced with
  | nil => exact c.withSeries_nil
  | @cons q s before placed hs =>
    have hmem : ∀ r, r = q ∨ r = p → r ∈ c.model.uncertainty.vars.entries := by
      rintro r (rfl | rfl) <;> rw [hentries] <;> simp
    have hitem : ∀ r, r = q ∨ r = p → r.2 ∈ c.model.uncertainty.vars.items :=
      fun r hr => Store.mem_items_of_mem_entries (hmem r hr)
    obtain ⟨hlower, hupper⟩ := UncertaintySet.eq_bounds_of_equalBounds hequal
      (hitem q (.inl rfl)) (hitem p (.inr rfl))
    obtain ⟨hbounded, hordered⟩ := (exists_make_iff (hmem q (.inl rfl)) points).1 ⟨s, hs⟩
    rw [isBounded_iff, hlower, hupper, ← isBounded_iff] at hbounded
    obtain ⟨t, ht⟩ := (exists_make_iff (hmem p (.inr rfl)) points).2 ⟨hbounded, hordered⟩
    cases ht.symm.trans he

/-- Induced breakpoints are placed for all uncertainties or for none: the questions about the set
only leave messages, and a set that stays the same under permutations has equal bounds. -/
theorem spares_addKappaInduced (model : RobustModel ℝ) (series : List (BreakpointSeries ℝ))
    (pieces : ℕ) :
    Step.Spares (fun c : LiftingCompiler ℝ β => c.model = model ∧ c.series = series)
      (addKappaInduced pieces) := by
  refine .bind_get fun c hc => .bind_ofChange (fun _ h => h) fun d hd => .check fun hinvariant => ?_
  refine .bind_ofChange (fun _ h => h) fun _ _ => .check fun _ => .bind_ofExcept fun points _ => ?_
  rw [Bool.not_eq_true', Bool.not_eq_false] at hinvariant
  have hdecided := LiftedModel.eq_decided_of_settle (Prod.ext hinvariant rfl)
  have hequal := (LiftedModel.shape_of_rotationalInvariance hdecided).2
  intro t e t' ht hrun
  rw [hc.1, ← ht.1] at hequal
  rwa [addToEach_eq_error_of_equalBounds hequal hrun]

/-- Induced breakpoints with one piece for each uncertainty. -/
theorem spares_addFullKappaInduced (model : RobustModel ℝ) (series : List (BreakpointSeries ℝ)) :
    Step.Spares (fun c : LiftingCompiler ℝ β => c.model = model ∧ c.series = series)
      addFullKappaInduced :=
  .bind_get fun _ _ => spares_addKappaInduced model series _

/-- Percentiles are placed when there are samples, and all of them have one value for each
uncertainty. -/
theorem addPercentiles_eq_error {e : PolicyError ℝ} {pieces : ℕ} {rows : List (List ℝ)}
    (hrun : addPercentiles pieces rows c = .error e c') :
    (¬(rows ≠ [] ∧ ∀ row ∈ rows, row.length = c.model.numUncertainties) ∧ c' = c) ∨
      (rows ≠ [] ∧ ∀ row ∈ rows, row.length = c.model.numUncertainties) ∧
        addToEach (fun position _ => Placement.percentiles
          (rows.map fun row => row[position]?.getD 0) pieces) c = .error e c' := by
  rw [addPercentiles] at hrun
  obtain ⟨hempty, -, rfl⟩ | ⟨hempty, hrun⟩ := Step.check_eq_error_iff.1 hrun
  · exact .inl ⟨fun h => h.1 (List.isEmpty_iff.1 hempty), rfl⟩
  beta_reduce at hrun
  rw [Step.get_bind_eq] at hrun
  cases hrow : rows.find? (·.length ≠ c.model.numUncertainties) with
  | some row =>
    rw [hrow] at hrun
    refine .inl ⟨fun h => ?_, (EStateM.Result.error.inj hrun).2.symm⟩
    have hlength := List.find?_some hrow
    rw [decide_eq_true_eq] at hlength
    exact hlength (h.2 row (List.mem_of_find?_eq_some hrow))
  | none =>
    rw [hrow] at hrun
    refine .inr ⟨⟨fun h => hempty (List.isEmpty_iff.2 h), fun row hmem => ?_⟩, hrun⟩
    have hnot := List.find?_eq_none.1 hrow row hmem
    rwa [decide_eq_true_eq, not_not] at hnot

/-! ## Placements that fail -/

/-- What a call runs that places breakpoints for all uncertainties. -/
def Call.bulk? {α β : Type} [Scalar α] :
    Call α → Option (Step (LiftingCompiler α β) (PolicyError α) Unit)
  | .equidistant pieces => some (addEquidistant pieces)
  | .kappaInduced pieces => some (addKappaInduced pieces)
  | .fullKappaInduced => some addFullKappaInduced
  | .percentiles pieces rows => some (addPercentiles pieces rows)
  | _ => none

/-- The call gives every uncertainty breakpoints of its own, and its arguments are accepted. -/
def Call.IsSeparate (model : RobustModel ℝ) : Call ℝ → Prop
  | .equidistant _ => True
  | .percentiles _ rows => rows ≠ [] ∧ ∀ row ∈ rows, row.length = model.numUncertainties
  | _ => False

/-- A call that fails either adds no series, or gives every uncertainty breakpoints of its own and
has come to one that lacks a bound. -/
theorem bulk_eq_error {call : Call ℝ} {step : Step (LiftingCompiler ℝ β) (PolicyError ℝ) Unit}
    (hcall : call.bulk? = some step) {e : PolicyError ℝ} (hrun : step c = .error e c') :
    (¬(call.IsSeparate c.model ∧ c.inner? = none) ∧ c'.series = c.series) ∨
      ((call.IsSeparate c.model ∧ c.inner? = none) ∧ c.StopsAtBound e c') := by
  have hseparate : call.IsSeparate c.model →
      (c.inner?.isSome = true ∧ c' = c) ∨ (c.inner? = none ∧ c.StopsAtBound e c') →
        (¬(call.IsSeparate c.model ∧ c.inner? = none) ∧ c'.series = c.series) ∨
          ((call.IsSeparate c.model ∧ c.inner? = none) ∧ c.StopsAtBound e c') := by
    rintro hcall (⟨hlifted, rfl⟩ | ⟨hc, hstops⟩)
    · rw [Option.isSome_iff_ne_none] at hlifted
      exact .inl ⟨fun h => hlifted h.2, rfl⟩
    · exact .inr ⟨⟨hcall, hc⟩, hstops⟩
  cases call with
  | equidistant pieces =>
    obtain rfl := Option.some.inj hcall
    refine hseparate trivial (addToEach_eq_error_of_ordered (fun _ v hv => ?_) hrun)
    obtain ⟨l, u, hl, hu⟩ := isBounded_iff.1 hv
    rw [hl, hu]
    exact Placement.decreases_equidistant (not_lt.1 (v.bounds.ordered l u hl hu)) pieces
  | kappaInduced pieces =>
    obtain rfl := Option.some.inj hcall
    exact .inl ⟨fun h => h.1, (spares_addKappaInduced _ _ pieces c e c' ⟨rfl, rfl⟩ hrun).2⟩
  | fullKappaInduced =>
    obtain rfl := Option.some.inj hcall
    exact .inl ⟨fun h => h.1, (spares_addFullKappaInduced _ _ c e c' ⟨rfl, rfl⟩ hrun).2⟩
  | percentiles pieces rows =>
    obtain rfl := Option.some.inj hcall
    obtain ⟨hrefused, rfl⟩ | ⟨haccepted, hrun⟩ := addPercentiles_eq_error hrun
    · exact .inl ⟨fun h => hrefused h.1, rfl⟩
    · exact hseparate haccepted (addToEach_eq_error_of_ordered
        (fun _ _ _ => BreakpointSeries.decreases_eq_false_iff.2
          (Placement.pairwise_percentiles _ pieces)) hrun)
  | _ => cases hcall

end LiftingCompiler

end AdjustableRobust
