import AdjustableRobust.Proofs.Duality.Box
import AdjustableRobust.Proofs.Lifting.Contents
import AdjustableRobust.Proofs.Lifting.Hull

/-!
# Exactness of lifted boxes

When the pieces of a box alternative are clipped, the lifted alternative is as small as a convex set
can be: it is the convex hull of the lifts of the realizations of the box, which is the product of
the convex hulls along the axes. Cuts across axes take nothing away from it.
-/

namespace AdjustableRobust

/-! ## What clipping says -/

namespace BoxPieces

variable {b : BoxPieces ℝ} {U : UncertaintyRef → ℝ}

private theorem holds_clippedPiece (hs : b.series.Ordered) {piece : UncertaintyRef} {i : ℕ}
    {cs : List (NamedConstraint ℝ)} (hrun : b.clippedPiece piece i = .ok cs)
    (hholds : ∀ c ∈ cs, c.2.toConic.Holds U) :
    (b.series.portion b.lower i ≤ U piece ∧ U piece ≤ b.series.portion b.upper i) ∧
      (b.lower < b.series.pieceEnd i → b.series.pieceEnd i < b.upper →
        ∃ next, b.axis.vars[i + 1]? = some next ∧
          U next / b.series.portion b.upper (i + 1) ≤
            (U piece - b.series.portion b.lower i) /
              (b.series.pieceWidth i - b.series.portion b.lower i)) := by
  obtain ⟨fills, hcs, hfills⟩ := clippedPiece_eq_ok hrun
  rw [← List.forall_mem_map (P := fun c : RawConstraint (AffineExpr ℝ UncertaintyRef) =>
    c.toConic.Holds U), hcs] at hholds
  obtain ⟨hbounds, hfill⟩ := List.forall_mem_append.1 hholds
  rw [List.forall_mem_cons, List.forall_mem_singleton, AffineExpr.holds_relateValue_iff,
    AffineExpr.holds_relateValue_iff, AffineExpr.eval_var, ← portion_eq_clip hs,
    ← portion_eq_clip hs] at hbounds
  refine ⟨⟨sub_nonneg.1 hbounds.1, sub_nonpos.1 hbounds.2⟩, fun hstart hend => ?_⟩
  obtain ⟨-, houtside⟩ | ⟨-, -, next, hnext, rfl⟩ := hfills
  · exact absurd ⟨hstart, hend⟩ houtside
  · refine ⟨next, hnext, ?_⟩
    have hremaining : min (b.upper - b.series.pieceEnd i)
        (b.series.pieceEnd (i + 1) - b.series.pieceEnd i) = b.series.portion b.upper (i + 1) := by
      rw [BreakpointSeries.portion_of_start_le hs hend.le, BreakpointSeries.pieceStart_succ,
        min_sub_sub_right]
    rw [List.forall_mem_singleton, AffineExpr.holds_relateValue_iff, AffineExpr.eval_addTerm,
      AffineExpr.eval_addConstant, AffineExpr.eval_term, hremaining, ← portion_eq_clip hs] at hfill
    change 0 ≤ _ at hfill
    linear_combination hfill

/-- Values of the pieces that satisfy all constraints of a clipped axis are clipped amounts. -/
theorem clips_of_clipped (hs : b.series.Ordered)
    (hlength : b.axis.vars.length = b.series.numPieces) {cs : List (NamedConstraint ℝ)}
    (hrun : b.clipped = .ok cs) (hholds : ∀ c ∈ cs, c.2.toConic.Holds U) :
    b.series.Clips b.lower b.upper (entryAt (b.axis.vars.map U)) := by
  have hpieces : ∀ i (hi : i < b.axis.vars.length), ∃ part,
      b.clippedPiece b.axis.vars[i] i = .ok part ∧ ∀ c ∈ part, c.2.toConic.Holds U := by
    intro i hi
    obtain ⟨part, hpart, hmem⟩ := (clipped_eq_ok hrun).1 i _ (List.getElem?_eq_getElem hi)
    exact ⟨part, hpart, fun c hc => hholds c (hmem c hc)⟩
  have hentry : ∀ i u, b.axis.vars[i]? = some u → entryAt (b.axis.vars.map U) i = U u := by
    intro i u hu
    rw [entryAt, List.getD_eq_getElem?_getD, List.getElem?_map, hu]
    rfl
  refine ⟨fun i hi => ?_, fun i hi hstart hend => ?_⟩
  · have hi : i < b.axis.vars.length := hlength ▸ hi
    obtain ⟨part, hstep, hpart⟩ := hpieces i hi
    rw [hentry i _ (List.getElem?_eq_getElem hi)]
    exact (holds_clippedPiece hs hstep hpart).1
  · have hi : i < b.axis.vars.length := hlength ▸ (Nat.lt_succ_self i).trans hi
    obtain ⟨part, hstep, hpart⟩ := hpieces i hi
    obtain ⟨next, hnext, hfill⟩ := (holds_clippedPiece hs hstep hpart).2 hstart hend
    rw [hentry i _ (List.getElem?_eq_getElem hi), hentry (i + 1) next hnext]
    exact hfill

end BoxPieces

/-! ## Mixtures along an axis -/

namespace LiftedAxis

/-- The values of the lifted variables mix the vectors to which the values of a range are lifted;
the value of a copy is itself in the range. -/
def Mixes (axis : LiftedAxis ℝ) (range : BoxRange ℝ) (U : UncertaintyRef → ℝ) : Prop :=
  match axis.series? with
  | some s =>
    entryAt (axis.vars.map U) ∈
      convexHull ℝ ((fun v => entryAt (s.lifted v)) '' {v | range.Contains v})
  | none => ∀ copy ∈ axis.vars, range.Contains (U copy)

variable {axis : LiftedAxis ℝ} {range : BoxRange ℝ} {U : UncertaintyRef → ℝ}

/-- Either way the values mix those to which the values of the range are spread. -/
theorem Mixes.mem_convexHull (h : axis.Mixes range U) {v : UncertaintyVariable ℝ}
    (hv : axis.Represents v) : entryAt (axis.vars.map U) ∈
      convexHull ℝ (entryAt '' (axis.spread '' {x | range.Contains x})) := by
  rw [Set.image_image]
  rw [Mixes] at h
  have hlength := hv.length
  unfold spread
  cases hs : axis.series? with
  | some s => simpa only [hs] using h
  | none =>
    simp only [hs] at h hlength ⊢
    obtain ⟨copy, hcopy⟩ := List.length_eq_one_iff.1 hlength
    rw [hcopy] at h ⊢
    exact subset_convexHull ℝ _ ⟨U copy, h copy (List.mem_singleton_self copy), rfl⟩

end LiftedAxis

namespace Lifting

/-- Mixtures along all axes mix the lifts of values in all ranges. -/
theorem mem_convexHull_of_mixes {axes : List (LiftedAxis ℝ)} {ranges : List (BoxRange ℝ)}
    {vs : List (UncertaintyVariable ℝ)} {U : UncertaintyRef → ℝ}
    (hvs : List.Forall₂ (fun v axis => LiftedAxis.Represents axis v) vs axes)
    (h : List.Forall₂ (fun axis range => LiftedAxis.Mixes axis range U) axes ranges) :
    entryAt (axes.flatMap fun axis => axis.vars.map U) ∈ convexHull ℝ (entryAt ''
      ((fun r => (axes.zip r).flatMap fun p => p.1.spread p.2) ''
        {r | List.Forall₂ BoxRange.Contains ranges r})) := by
  induction h generalizing vs with
  | nil => exact subset_convexHull ℝ _ ⟨[], ⟨[], .nil, rfl⟩, rfl⟩
  | @cons axis range axes ranges hmix _ ih =>
    obtain ⟨v, rest, hv, hrest, rfl⟩ := List.forall₂_cons_right_iff.1 hvs
    rw [List.flatMap_cons]
    refine entryAt_append_mem_convexHull ?_ ?_ (hmix.mem_convexHull hv) (ih hrest)
    · rintro _ ⟨x, -, rfl⟩
      rw [hv.length_spread, List.length_map]
    · rintro _ ⟨x, hx, rfl⟩ _ ⟨r, hr, rfl⟩
      exact ⟨x :: r, .cons hx hr, rfl⟩

end Lifting

/-! ## Affine constraints -/

private theorem AffineExpr.eval_mix {e : AffineExpr ℝ UncertaintyRef} {f g : ℕ → ℝ} {x y : ℝ}
    (hxy : x + y = 1) : e.eval (bySlot (x • f + y • g)) =
      x * e.eval (bySlot f) + y * e.eval (bySlot g) := by
  have hlinear : ∀ ts : List (Term ℝ UncertaintyRef),
      (ts.map fun t => t.scale * bySlot (x • f + y • g) t.var).sum =
        x * (ts.map fun t => t.scale * bySlot f t.var).sum +
          y * (ts.map fun t => t.scale * bySlot g t.var).sum := by
    intro ts
    induction ts with
    | nil => simp
    | cons t ts ih =>
      have hhead : bySlot (x • f + y • g) t.var = x * bySlot f t.var + y * bySlot g t.var := rfl
      rw [List.map_cons, List.map_cons, List.map_cons, List.sum_cons, List.sum_cons, List.sum_cons,
        ih, hhead]
      ring
  rw [eval, eval, eval, LinearExpr.eval, LinearExpr.eval, LinearExpr.eval, hlinear]
  linear_combination -e.constant * hxy

/-- The values that satisfy an affine constraint are convex. -/
theorem RawConstraint.convex_setOf_holds {c : RawConstraint (ConicExpr ℝ UncertaintyRef)}
    (hc : c.expression.normed? = none) : Convex ℝ {f : ℕ → ℝ | c.Holds (bySlot f)} := by
  intro f hf g hg x y hx hy hxy
  have heval : ∀ f : ℕ → ℝ, c.expression.eval (bySlot f) = c.expression.affine.eval (bySlot f) :=
    fun f => by rw [ConicExpr.eval, hc, Option.elim_none, zero_add]
  change c.sense.Holds _ at hf hg ⊢
  rw [heval] at hf hg ⊢
  rw [AffineExpr.eval_mix hxy]
  cases hsense : c.sense <;> rw [hsense] at hf hg
  · exact add_nonpos (mul_nonpos_of_nonneg_of_nonpos hx hf) (mul_nonpos_of_nonneg_of_nonpos hy hg)
  · exact add_nonneg (mul_nonneg hx hf) (mul_nonneg hy hg)
  · change _ = (0 : ℝ) at hf hg ⊢
    rw [hf, hg, mul_zero, mul_zero, add_zero]

namespace LiftedModel

variable {model lifted : RobustModel ℝ} {options : LiftingOptions} {d : Draft ℝ}
variable {a b : ConstraintSet ℝ}

private theorem Images.affine {retractions : List (AffineExpr ℝ UncertaintyRef)}
    {cs : List (RawConstraint (ConicExpr ℝ UncertaintyRef))} (h : Images model retractions a cs)
    (hbox : a.isBox = true) : ∀ c ∈ cs, c.expression.normed? = none := by
  intro c hc
  obtain ⟨raw, hraw, -, himage⟩ := exists_of_forall₂_right h hc
  have hkept := (ConicExpr.parts_of_substitute himage).1
  obtain ⟨base, hbase, rfl⟩ := List.mem_map.1 hraw
  have hbound := List.all_eq_true.1 hbox base hbase
  rw [Constraint.isVariableBound, Bool.and_eq_true] at hbound
  have haffine : base.expression.normed? = none := Option.isNone_iff_eq_none.1 hbound.1
  rwa [haffine, Option.map_none, Option.map_eq_none_iff] at hkept

private theorem Holds.affine (h : Holds model options d a b) (hbox : a.isBox = true)
    (set : UncertaintySet ℝ) : ∀ c ∈ set.region b, c.expression.normed? = none := by
  obtain ⟨ref, images, box, cuts, himages, hcuts, haffine, hraws⟩ := h
  refine List.forall_mem_append.2 ⟨?_, fun c hc => ?_⟩
  · change ∀ c ∈ b.raws, _
    rw [hraws]
    simp only [List.forall_mem_append]
    refine ⟨⟨⟨fun c hc => ?_, himages.affine hbox⟩, hcuts.affine⟩, haffine⟩
    obtain ⟨axis, -, hc⟩ := List.mem_flatMap.1 hc
    exact axis.affine_of_mem_fills hc
  · obtain ⟨e, -, hrow⟩ := List.mem_flatMap.1 hc
    obtain ⟨_, _, _, hcut⟩ := Bounds.isCut_of_mem_rows hrow
    exact hcut.affine

/-! ## Both inclusions -/

private theorem clips_range {s : BreakpointSeries ℝ} {range : BoxRange ℝ} {x : ℝ}
    (hx : range.Contains x) (hmem : ∀ y, range.Contains y → s.lower ≤ y ∧ y ≤ s.upper) :
    range.lower?.getD s.lower ≤ range.upper?.getD s.upper ∧
      range.upper?.getD s.upper ≤ s.upper ∧
        Set.Icc (range.lower?.getD s.lower) (range.upper?.getD s.upper) ⊆
          {y | range.Contains y} := by
  obtain ⟨lower?, upper?⟩ := range
  have hlower : lower?.getD s.lower ≤ x := by
    cases lower? with
    | none => exact (hmem x hx).1
    | some l => exact hx.lower l rfl
  have hupper : x ≤ upper?.getD s.upper := by
    cases upper? with
    | none => exact (hmem x hx).2
    | some u => exact hx.upper u rfl
  have hsubset : Set.Icc (lower?.getD s.lower) (upper?.getD s.upper) ⊆
      {y | (⟨lower?, upper?⟩ : BoxRange ℝ).Contains y} := by
    rintro y ⟨hl, hu⟩
    refine ⟨fun l h => ?_, fun u h => ?_⟩
    · obtain rfl : lower? = some l := h
      exact hl
    · obtain rfl : upper? = some u := h
      exact hu
  have hle := hlower.trans hupper
  exact ⟨hle, (hmem _ (hsubset ⟨hle, le_rfl⟩)).2, hsubset⟩

private theorem admits_of_contains (hbox : a.isBox = true) {ranges : List (BoxRange ℝ)}
    (hranges : BoxRange.ofAlternative model.uncertainty a = .ok ranges) {r : List ℝ}
    (hr : model.uncertainty.Realizes a r) {k : ℕ} (hk : k < ranges.length)
    (hk' : k < model.uncertainty.vars.items.length) {y : ℝ} (hy : ranges[k].Contains y) :
    model.uncertainty.vars.items[k].bounds.admits y = true := by
  have hiff := BoxRange.realizes_iff_forall₂ hbox hranges ⟨r, hr⟩
  -- the realization with the value in place of its own
  have hchanged : List.Forall₂ BoxRange.Contains ranges (r.set k y) := by
    have hcontains := (hiff r).1 hr
    rw [List.forall₂_iff_get] at hcontains ⊢
    refine ⟨by rw [List.length_set, hcontains.1], fun i hi hi' => ?_⟩
    simp only [List.get_eq_getElem, List.getElem_set]
    split
    · next h =>
      subst h
      exact hy
    · exact hcontains.2 i hi (by rwa [List.length_set] at hi')
  have hrealizes := (hiff _).2 hchanged
  have hadmits := UncertaintySet.forall₂_admits_iff.2 ⟨hrealizes.length, hrealizes.bounds⟩
  have hget := hadmits.get hk' (by rw [← hadmits.length_eq]; exact hk')
  simpa using hget

private theorem mixes_of_boxRow {ref : ConstraintSetRef} {v : UncertaintyVariable ℝ}
    {axis : LiftedAxis ℝ} {range : BoxRange ℝ} {U : UncertaintyRef → ℝ}
    {cs : List (RawConstraint (ConicExpr ℝ UncertaintyRef))} (hv : axis.Represents v)
    (hclip : options.useOldBoxConstraints = false) (hrow : BoxRow options ref (v, axis, range) cs)
    (hholds : ∀ c ∈ cs, c.Holds U) (hcontains : range.Contains (axis.retract U))
    (hadmits : ∀ y, range.Contains y → v.bounds.admits y = true) : axis.Mixes range U := by
  rw [LiftedAxis.Mixes]
  have hlength := hv.length
  cases hs : axis.series? with
  | none =>
    rw [hs, Option.elim_none] at hlength
    obtain ⟨copy, hcopy⟩ := List.length_eq_one_iff.1 hlength
    simp only [hcopy, List.forall_mem_singleton]
    simpa [LiftedAxis.retract, LiftedAxis.origin, hs, hcopy] using hcontains
  | some s =>
    rw [hs, Option.elim_some] at hlength
    obtain ⟨hordered, -⟩ := hv.pieces s hs
    obtain ⟨hle, hupper, hsubset⟩ := clips_range hcontains fun y hy =>
      hv.mem_range (hadmits y hy) hs
    simp only [BoxRow, hs, boxConstraints, hclip, if_neg Bool.false_ne_true] at hrow
    obtain ⟨named, hnamed, rfl⟩ := hrow
    have hclips := BoxPieces.clips_of_clipped (U := U) hordered hlength hnamed fun c hc =>
      hholds _ (List.mem_map_of_mem hc)
    refine convexHull_mono (Set.image_mono hsubset)
      (hclips.mem_convexHull hordered hle hupper fun i hi => ?_)
    rw [entryAt, List.getD_eq_getElem?_getD, List.getElem?_eq_none, Option.getD_none]
    rwa [List.length_map, hlength]

private theorem mixes_of_realizes {l : Lifting ℝ}
    (hl : l.Lifts model.uncertainty lifted.uncertainty) (hd : d.axes = l.axes)
    (hclip : options.useOldBoxConstraints = false) {i : ℕ}
    (ha : model.uncertainty.alternatives.items[i]? = some a)
    (hb : lifted.uncertainty.alternatives.items[i]? = some b) (h : Holds model options d a b)
    (hbox : a.isBox = true) {ranges : List (BoxRange ℝ)}
    (hranges : BoxRange.ofAlternative model.uncertainty a = .ok ranges) {R : List ℝ}
    (hR : lifted.uncertainty.Realizes b R) :
    List.Forall₂ (fun axis range => LiftedAxis.Mixes axis range (bySlot (entryAt R))) l.axes
      ranges := by
  set U : UncertaintyRef → ℝ := bySlot (entryAt R)
  have hr := hl.retract ha hb hR
  have hiff := BoxRange.realizes_iff_forall₂ hbox hranges ⟨_, hr⟩
  have hcontains := (hiff _).1 hr
  rw [Lifting.retract, List.forall₂_map_right_iff] at hcontains
  obtain ⟨ref, images, box, cuts, -, hcuts, -, hraws⟩ := h
  obtain ⟨ranges', css, hranges', hrows, rfl⟩ : ∃ ranges' css,
      BoxRange.ofAlternative model.uncertainty a = .ok ranges' ∧ List.Forall₂ (BoxRow options ref)
        (model.uncertainty.vars.items.zip (d.axes.zip ranges')) css ∧ box = css.flatten := by
    rw [BoxCuts, if_pos hbox] at hcuts
    exact hcuts
  obtain rfl := Except.ok.inj (hranges.symm.trans hranges')
  have hholds : ∀ c ∈ css.flatten, c.Holds U := by
    intro c hc
    refine (UncertaintySet.realizes_iff.1 hR).2.2 c (List.mem_append_left _ ?_)
    change c ∈ b.raws
    rw [hraws]
    exact List.mem_append_left _ (List.mem_append_right _ hc)
  rw [List.forall₂_iff_get]
  refine ⟨hcontains.length_eq.symm, fun k hk hk' => ?_⟩
  have hk₀ : k < model.uncertainty.vars.items.length := hl.isOver.represents.length_eq ▸ hk
  have hrepresents := hl.isOver.represents.get hk₀ hk
  have hcontained := hcontains.get hk' hk
  have hrow : k < (model.uncertainty.vars.items.zip (d.axes.zip ranges)).length := by
    simp only [List.length_zip, hd, lt_min_iff]
    exact ⟨hk₀, hk, hk'⟩
  have hbox' := hrows.get hrow (hrows.length_eq ▸ hrow)
  simp only [List.get_eq_getElem, List.getElem_zip, hd] at hrepresents hcontained hbox' ⊢
  exact mixes_of_boxRow hrepresents hclip hbox'
    (fun c hc => hholds c (List.mem_flatten.2 ⟨_, List.getElem_mem _, hc⟩)) hcontained
    fun y hy => admits_of_contains hbox hranges hr hk' hk₀ hy

private theorem realizes_of_mixes {l : Lifting ℝ}
    (hl : l.Lifts model.uncertainty lifted.uncertainty) {i : ℕ}
    (ha : model.uncertainty.alternatives.items[i]? = some a)
    (hb : lifted.uncertainty.alternatives.items[i]? = some b) (h : Holds model options d a b)
    (hbox : a.isBox = true) {ranges : List (BoxRange ℝ)}
    (hranges : BoxRange.ofAlternative model.uncertainty a = .ok ranges)
    (hne : ∃ r, model.uncertainty.Realizes a r) {R : List ℝ}
    (hR : R.length = lifted.uncertainty.numVariables)
    (hmixes : List.Forall₂ (fun axis range => LiftedAxis.Mixes axis range (bySlot (entryAt R)))
      l.axes ranges) : lifted.uncertainty.Realizes b R := by
  have hblocks : (l.axes.flatMap fun axis => axis.vars.map (bySlot (entryAt R))) = R := by
    rw [← List.map_flatMap, hl.handles, Store.map_bySlot_handles]
    exact map_entryAt_range hR
  have hmem := Lifting.mem_convexHull_of_mixes hl.isOver.represents hmixes
  rw [hblocks] at hmem
  -- all lifts are realizations, and these are convex
  have hlift : ∀ r, model.uncertainty.Realizes a r → lifted.uncertainty.Realizes b
      ((l.axes.zip r).flatMap fun p => p.1.spread p.2) := by
    intro r hr
    obtain ⟨R, hlifted, hrealizes⟩ := hl.lift ha hb hr
    rw [hl.isOver.lift_eq_ok hr.length, Except.ok.injEq] at hlifted
    exact hlifted ▸ hrealizes
  have hconvex : Convex ℝ {f : ℕ → ℝ |
      ∀ c ∈ lifted.uncertainty.region b, c.Holds (bySlot f)} := by
    simp only [Set.ofPred_forall]
    exact convex_iInter₂ fun c hc =>
      RawConstraint.convex_setOf_holds (h.affine hbox lifted.uncertainty c hc)
  obtain ⟨r₀, hr₀⟩ := hne
  have hoccurs := (UncertaintySet.realizes_iff.1 (hlift r₀ hr₀)).2.1
  refine UncertaintySet.realizes_iff.2 ⟨hR, hoccurs, ?_⟩
  refine convexHull_min ?_ hconvex hmem
  rintro _ ⟨_, ⟨r, hr, rfl⟩, rfl⟩
  have hrealizes := (BoxRange.realizes_iff_forall₂ hbox hranges ⟨r₀, hr₀⟩ r).2 hr
  exact (UncertaintySet.realizes_iff.1 (hlift r hrealizes)).2.2

/-- When pieces are clipped, a lifted box is the product of convex hulls along its axes: the values
of the pieces of an axis mix lifts of values in the range that the box leaves of the uncertainty,
and copies have a value in the range. -/
theorem build_boxes_exact {series : List (BreakpointSeries ℝ)} {owner : OwnerId}
    {lifting : Lifting ℝ} {w w' : Diagnostics} (hseries : ∀ s ∈ series, s.IsOver model.uncertainty)
    (hclip : options.useOldBoxConstraints = false)
    (hrun : build model series options owner w = .ok (lifted, lifting) w') {i : ℕ}
    (ha : model.uncertainty.alternatives.items[i]? = some a) (hbox : a.isBox = true)
    (hne : ∃ r, model.uncertainty.Realizes a r) :
    ∃ ranges b, BoxRange.ofAlternative model.uncertainty a = .ok ranges ∧
      lifted.uncertainty.alternatives.items[i]? = some b ∧
        (∀ r, model.uncertainty.Realizes a r ↔ List.Forall₂ BoxRange.Contains ranges r) ∧
          ∀ R, lifted.uncertainty.Realizes b R ↔ R.length = lifted.uncertainty.numVariables ∧
            List.Forall₂ (fun axis range => LiftedAxis.Mixes axis range (bySlot (entryAt R)))
              lifting.axes ranges := by
  obtain ⟨draft, _, _, _, _, -, haxes, hstages, -⟩ := build_stages hseries hrun
  have hl := build_lifts hseries hrun
  obtain ⟨b, hb, hholds⟩ := hstages.contents i a ha
  obtain ⟨ranges, hranges⟩ : ∃ ranges, BoxRange.ofAlternative model.uncertainty a = .ok ranges := by
    obtain ⟨_, _, _, _, -, hcuts, -⟩ := hholds
    rw [BoxCuts, if_pos hbox] at hcuts
    obtain ⟨ranges, -, hranges, -⟩ := hcuts
    exact ⟨ranges, hranges⟩
  refine ⟨ranges, b, hranges, hb, BoxRange.realizes_iff_forall₂ hbox hranges hne, fun R => ?_⟩
  constructor
  · intro hR
    exact ⟨hR.length, mixes_of_realizes hl haxes hclip ha hb hholds hbox hranges hR⟩
  · rintro ⟨hlength, hmixes⟩
    exact realizes_of_mixes hl ha hb hholds hbox hranges hne hlength hmixes

/-- The segment lifted along its halves is the convex hull of the lifts of its points. -/
theorem build_boxes_exact_halves : ∃ lifted b, halves.IsOver segment.uncertainty ∧
    build segment [halves] ⟨false, false⟩ ⟨1⟩ .empty = .ok (lifted, ⟨[halfAxis]⟩) .empty ∧
      segment.uncertainty.Realizes .empty [0] ∧
        lifted.uncertainty.alternatives.items[0]? = some b ∧
          ∀ R, lifted.uncertainty.Realizes b R ↔ R.length = lifted.uncertainty.numVariables ∧
            halfAxis.Mixes ⟨some (-1), some 1⟩ (bySlot (entryAt R)) := by
  obtain ⟨lifted, hrun⟩ := build_segment .empty
  have hbounds : List.Forall₂ (fun v x => v.bounds.admits x = true)
      segment.uncertainty.vars.items [(0 : ℝ)] := .cons (by norm_num [Bounds.admits]) .nil
  have hrealizes : segment.uncertainty.Realizes .empty [0] :=
    ⟨rfl, (UncertaintySet.forall₂_admits_iff.1 hbounds).2, rfl⟩
  obtain ⟨ranges, b, hranges, hb, -, hiff⟩ := build_boxes_exact
    (List.forall_mem_singleton.2 halves_isOver) rfl hrun (i := 0) (a := .empty) rfl rfl
    ⟨_, hrealizes⟩
  obtain rfl : [⟨some (-1), some 1⟩] = ranges := Except.ok.inj hranges
  refine ⟨lifted, b, halves_isOver, hrun, hrealizes, hb, fun R => ?_⟩
  rw [hiff R]
  simp

end LiftedModel

end AdjustableRobust
