import AdjustableRobust.Proofs.Lifting.Placement
import AdjustableRobust.Proofs.Lifting.Stages

/-!
# What failed placements leave

Series are only added to a lifting compiler, also by calls that fail. A model is lifted along one
series for each axis at most, so the series that a failed placement leaves are in the way of others
along the same uncertainties: with such a series, the model is not lifted any more.
-/

namespace AdjustableRobust

/-! ## Series along one axis -/

namespace LiftedModel

variable {set : UncertaintySet ℝ} {series : List (BreakpointSeries ℝ)}

/-- No two series are along the same axis. -/
def DistinctAxes (series : List (BreakpointSeries ℝ)) : Prop :=
  series.Pairwise fun s t => ∀ u, s.axis = .ok u → t.axis ≠ .ok u

/-- Every series is along an uncertainty of the set. -/
def AlongAxes (set : UncertaintySet ℝ) (series : List (BreakpointSeries ℝ)) : Prop :=
  ∀ s ∈ series, ∃ u v, s.axis = .ok u ∧ set.variableAt u = .ok v

/-- Uncertainties are lifted along one series at most. -/
theorem distinctAxes_of_assignSeries {table : List (Option (BreakpointSeries ℝ))}
    (hrun : assignSeries set series = .ok table) : DistinctAxes series := by
  have hall := foldlM_prefix (I := fun ps (table : List (Option (BreakpointSeries ℝ))) =>
    DistinctAxes ps ∧ ∀ s ∈ ps, ∀ u, s.axis = .ok u → ∃ t, table[u.slot]? = some (some t)) ?_
    ⟨List.Pairwise.nil, by simp⟩ hrun
  · exact hall.1
  · rintro ps s - table table' - ⟨hdistinct, htaken⟩ hstep
    simp only [bind_eq_ok_iff, PolicyError.fromModel, PolicyError.fromStore, mapError_eq_ok_iff]
      at hstep
    obtain ⟨u, hu, v, -, s?, hlookup, hstep⟩ := hstep
    cases s? with
    | some _ => exact absurd hstep throw_ne_ok
    | none =>
      obtain rfl := pure_eq_ok_iff.1 hstep
      have hfree : table[u.slot]? = some none := Handle.lookup_eq_ok_iff.1 hlookup
      have hin := (List.getElem?_eq_some_iff.1 hfree).1
      refine ⟨List.pairwise_append.2 ⟨hdistinct, List.pairwise_singleton _ _, ?_⟩, ?_⟩
      · intro s' hs' t ht w hw hw'
        obtain rfl := List.mem_singleton.1 ht
        obtain rfl : w = u := Except.ok.inj (hw'.symm.trans hu)
        obtain ⟨t', ht'⟩ := htaken s' hs' w hw
        cases Option.some.inj (hfree.symm.trans ht')
      · intro s' hs' w hw
        by_cases hslot : u.slot = w.slot
        · exact ⟨s, by rw [← hslot, List.getElem?_set_self hin]⟩
        · rw [List.getElem?_set_ne hslot]
          obtain hs' | hs' := List.mem_append.1 hs'
          · exact htaken s' hs' w hw
          · obtain rfl := List.mem_singleton.1 hs'
            exact absurd (congrArg Handle.slot (Except.ok.inj (hu.symm.trans hw))) hslot

/-- Series along uncertainties of the set are only refused for being along the same one. -/
theorem assignSeries_blames_duplicates (haxes : AlongAxes set series) :
    Blames (fun e => ∃ name, e = .duplicateBreakpointDirection name) (assignSeries set series) := by
  refine Blames.foldlM_invariant (I := fun table => table.length = set.numVariables) ?_ ?_
    List.length_replicate
  · intro table s hs table' htable hstep
    simp only [bind_eq_ok_iff, PolicyError.fromModel, PolicyError.fromStore, mapError_eq_ok_iff]
      at hstep
    obtain ⟨u, -, v, -, s?, -, hstep⟩ := hstep
    cases s? with
    | some _ => exact absurd hstep throw_ne_ok
    | none =>
      obtain rfl := pure_eq_ok_iff.1 hstep
      exact List.length_set.trans htable
  · intro table htable s hs
    obtain ⟨u, v, hu, hv⟩ := haxes s hs
    have hslot : u.slot < table.length := by
      rw [htable]
      exact (List.getElem?_eq_some_iff.1 (UncertaintySet.variableAt_eq_ok_iff.1 hv).2.2).1
    refine .bind_ok hu (.bind_ok (mapError_eq_ok_iff.2 hv)
      (.bind_ok (mapError_eq_ok_iff.2 (Handle.lookup_of_lt u table hslot)) ?_))
    split
    · exact .throw ⟨_, rfl⟩
    · exact .pure

/-- A model is not lifted along series that are refused. -/
theorem perform_build_of_assignSeries {model : RobustModel ℝ} {options : LiftingOptions}
    {owner : OwnerId} {e : PolicyError ℝ}
    (hassign : assignSeries model.uncertainty series = .error e) (d : Diagnostics) :
    (build model series options owner).perform d = (.error e, d) := by
  have haxes : buildAxes model series options owner = .error e := by
    rw [buildAxes, liftUncertainties, hassign]
    rfl
  rw [build, haxes]
  rfl

/-- A model is lifted along one series for each axis at most. -/
theorem distinctAxes_of_build {model : RobustModel ℝ} {options : LiftingOptions} {owner : OwnerId}
    {d d' : Diagnostics} {p : RobustModel ℝ × Lifting ℝ}
    (hrun : (build model series options owner).perform d = (.ok p, d')) : DistinctAxes series := by
  cases hassign : assignSeries model.uncertainty series with
  | error e =>
    rw [perform_build_of_assignSeries hassign] at hrun
    cases hrun
  | ok table => exact distinctAxes_of_assignSeries hassign

end LiftedModel

/-! ## Compilers with two series along one axis -/

namespace LiftingCompiler

variable {β : Type} {c c' : LiftingCompiler ℝ β}

/-- A lifted model exists only of series along different axes. -/
def LiftsDistinct (c : LiftingCompiler ℝ β) : Prop :=
  c.inner?.isSome = true → LiftedModel.DistinctAxes c.series

private theorem keeps_liftsDistinct_addBreakpoints (points : List ℝ)
    (direction : LinearExpr ℝ UncertaintyRef) :
    Step.Keeps LiftsDistinct (addBreakpoints (β := β) points direction) := by
  intro c hc
  cases hinner : c.inner? with
  | some inner =>
    rw [Step.perform, addBreakpoints_lifted (by rw [hinner]; rfl)]
    exact hc
  | none =>
    rw [Step.perform, addBreakpoints_collecting hinner]
    cases BreakpointSeries.make points direction c.model.uncertainty.scope with
    | error e => exact hc
    | ok s =>
      intro hsome
      rw [inner?_withSeries, hinner] at hsome
      cases hsome

private theorem keeps_liftsDistinct_build : Step.Keeps (LiftsDistinct (β := β)) build := by
  intro c hc
  cases hstage : c.stage with
  | lifted lifting inner =>
    rw [perform_build_lifted hstage]
    exact hc
  | collecting backend =>
    rw [perform_build_collecting hstage]
    cases hrun : (LiftedModel.build c.model c.series c.options c.liftedOwner).perform
        c.diagnostics with
    | mk result d =>
      cases result with
      | error e =>
        intro hsome
        rw [inner?, hstage] at hsome
        cases hsome
      | ok p => exact fun _ => LiftedModel.distinctAxes_of_build hrun

private theorem build_of_assignSeries {backend : β} (hstage : c.stage = .collecting backend)
    {e : PolicyError ℝ}
    (hassign : LiftedModel.assignSeries c.model.uncertainty c.series = .error e) :
    (build.perform c).1 = .error e := by
  rw [perform_build_collecting hstage, LiftedModel.perform_build_of_assignSeries hassign]

/-- There is no lifted model and none can be built. -/
structure Obstructed (c : LiftingCompiler ℝ β) : Prop where
  unlifted : c.inner? = none
  /-- Building fails, and if all series are along uncertainties, for two along the same one. -/
  refused : ∃ e, (build.perform c).1 = .error e ∧
    (LiftedModel.AlongAxes c.model.uncertainty c.series →
      ∃ name, e = .duplicateBreakpointDirection name)

/-- Two series along the same axis are in the way of the lifted model. -/
theorem LiftsDistinct.obstructed (hc : c.LiftsDistinct)
    (hseries : ¬LiftedModel.DistinctAxes c.series) : c.Obstructed := by
  cases hstage : c.stage with
  | lifted lifting inner => exact absurd (hc (by rw [inner?, hstage]; rfl)) hseries
  | collecting backend =>
    refine ⟨by rw [inner?, hstage], ?_⟩
    cases hassign : LiftedModel.assignSeries c.model.uncertainty c.series with
    | ok table => exact absurd (LiftedModel.distinctAxes_of_assignSeries hassign) hseries
    | error e =>
      exact ⟨e, build_of_assignSeries hstage hassign, fun haxes =>
        LiftedModel.assignSeries_blames_duplicates haxes e hassign⟩

variable [ConicBackend ℝ β]

/-- Series are only added, whatever is asked of a compiler. -/
theorem series_foldl_answer (c : LiftingCompiler ℝ β) (calls : List (Call ℝ)) :
    c.series <+: (calls.foldl answer c).series := by
  have hadd : ∀ points direction, Step.Keeps (fun d : LiftingCompiler ℝ β => c.series <+: d.series)
      (addBreakpoints points direction) := fun points direction =>
    .bind_get fun d hd => .check <| .bind_ofExcept fun s _ =>
      .set (hd.trans (List.prefix_append d.series [s]))
  have hbuild : Step.Keeps (fun d : LiftingCompiler ℝ β => c.series <+: d.series) build :=
    keeps_build fun _ _ _ h => h
  exact List.foldlRecOn (motive := fun d : LiftingCompiler ℝ β => c.series <+: d.series) calls
    answer (List.prefix_refl _) fun d hd call _ => answer_of_keeps hadd (fun _ _ _ _ h => h) hbuild
      (keeps_solve hbuild fun _ _ _ _ _ h => h) hd call

/-- A lifted model exists only of series along different axes, whatever is asked of a compiler. -/
theorem LiftsDistinct.foldl_answer (hc : c.LiftsDistinct) (calls : List (Call ℝ)) :
    (calls.foldl answer c).LiftsDistinct :=
  List.foldlRecOn (motive := LiftsDistinct) calls answer hc fun d hd call _ =>
    answer_of_keeps keeps_liftsDistinct_addBreakpoints (fun _ _ _ _ h => h)
      keeps_liftsDistinct_build (keeps_solve keeps_liftsDistinct_build fun d _ _ _ hstage hd _ =>
        hd (by rw [inner?, hstage]; rfl)) hd call

private theorem takeWhile_ne_nil_iff {γ : Type} {p : γ → Bool} {xs : List γ} :
    xs.takeWhile p ≠ [] ↔ ∃ x ∈ xs.head?, p x = true := by
  cases xs with
  | nil => simp
  | cons x xs => cases hx : p x <;> simp [hx]

/-- Placing breakpoints for all uncertainties in one call is not all or nothing. A call that fails
leaves the series along the uncertainties before the first one that lacks a bound, if it gives every
uncertainty breakpoints of its own, accepts its arguments, and comes before the lifted model. Any
other call that fails leaves none, nor does one where the first uncertainty lacks a bound. Whatever
is asked of the compiler afterwards, the series stay, and a further one along the same uncertainty
obstructs the lifted model. -/
theorem failed_placements_stay {call : Call ℝ}
    {step : Step (LiftingCompiler ℝ β) (PolicyError ℝ) Unit} (hcall : call.bulk? = some step)
    {e : PolicyError ℝ} (hfails : step c = .error e c') :
    ∃ placed, c'.series = c.series ++ placed ∧
      (placed ≠ [] ↔ (call.IsSeparate c.model ∧ c.inner? = none) ∧
        ∃ p ∈ c.model.uncertainty.vars.entries.head?, p.2.bounds.isBounded = true) ∧
      (placed ≠ [] → e = .unboundedDirection ∧
        List.Forall₂ (IsAlong c.model.uncertainty)
          (c.model.uncertainty.vars.entries.takeWhile fun p => p.2.bounds.isBounded) placed) ∧
      ∀ (calls : List (Call ℝ)) d, d = calls.foldl answer c' →
        ∃ later, d.series = c'.series ++ later ∧
          ∀ s ∈ placed, ∀ t ∈ later, t.axis = s.axis → d.Obstructed := by
  obtain ⟨hnot, hsame⟩ | ⟨hseparate, rfl, placed, rfl, halong⟩ := bulk_eq_error hcall hfails
  · refine ⟨[], by rw [hsame, List.append_nil], iff_of_false (by simp) fun h => hnot h.1,
      by simp, ?_⟩
    rintro calls d rfl
    obtain ⟨later, hlater⟩ := series_foldl_answer c' calls
    exact ⟨later, hlater.symm, by simp⟩
  · refine ⟨placed, rfl, ?_, fun _ => ⟨rfl, halong⟩, ?_⟩
    · rw [and_iff_right hseparate, ← List.length_pos_iff, ← halong.length_eq, List.length_pos_iff]
      exact takeWhile_ne_nil_iff
    · rintro calls d rfl
      obtain ⟨later, hlater⟩ := series_foldl_answer (c.withSeries placed) calls
      refine ⟨later, hlater.symm, fun s hs t ht haxis => ?_⟩
      have hlifts : (c.withSeries placed).LiftsDistinct := fun h => by
        rw [inner?_withSeries, hseparate.2] at h
        cases h
      refine (hlifts.foldl_answer calls).obstructed fun hdistinct => ?_
      rw [← hlater] at hdistinct
      obtain ⟨p, -, hown, -⟩ := exists_of_forall₂_right halong hs
      exact (List.pairwise_append.1 hdistinct).2.2 _ (List.mem_append_right _ hs) t ht _ hown
        (haxis.trans hown)

/-! ## A variable without bounds -/

/-- An uncertainty between zero and one, and a second one without bounds. -/
noncomputable def lopsided : RobustModel ℝ where
  name := "lopsided"
  decisions := .new ⟨0⟩
  uncertainty := ⟨"lopsided", ⟨⟨0⟩, 0, [⟨"u", none, .unit⟩, ⟨"v", none, .free⟩]⟩,
    ⟨⟨0⟩, 0, [.empty]⟩⟩
  constraints := []
  objective? := none
  distribution? := none

/-- A compiler for it. -/
noncomputable def lopsidedCompiler : LiftingCompiler ℝ (Replay ℝ) :=
  new lopsided (.new []) ⟨none, none, false, 0, 0⟩ ⟨1⟩ ⟨2⟩

/-- A series of one breakpoint along the first uncertainty. -/
noncomputable def pointAt (b : ℝ) : BreakpointSeries ℝ := ⟨[b], .var ⟨⟨0⟩, 0, 0⟩, 0, 1⟩

private theorem make_pointAt {b : ℝ} (hb : 0 < b) (hb' : b < 1) :
    BreakpointSeries.make [b] (.var ⟨⟨0⟩, 0, 0⟩) lopsidedCompiler.model.uncertainty.scope =
      .ok (pointAt b) := by
  have hmake : BreakpointSeries.make [b] (.var ⟨⟨0⟩, 0, 0⟩)
      lopsidedCompiler.model.uncertainty.scope = _ := BreakpointSeries.make_var rfl rfl rfl rfl
  rw [hmake]
  simp [BreakpointSeries.keepInside, pointAt, hb, hb']

private theorem addEquidistant_lopsided : addEquidistant 2 lopsidedCompiler =
    .error .unboundedDirection (lopsidedCompiler.withSeries [pointAt (1 / 2)]) := by
  have hpoints : Placement.equidistant (0 : ℝ) 1 2 = [1 / 2] := by
    change [(0 : ℝ) + ((1 : ℕ) : ℝ) * (1 - 0) / ((2 : ℕ) : ℝ)] = _
    norm_num
  have hfirst : addBreakpoints (Placement.equidistant 0 1 2) (.var ⟨⟨0⟩, 0, 0⟩) lopsidedCompiler =
      .ok () (lopsidedCompiler.withSeries [pointAt (1 / 2)]) := by
    rw [hpoints, addBreakpoints_collecting rfl, make_pointAt (by norm_num) (by norm_num)]
  have hsecond : addBreakpoints [] (.var ⟨⟨0⟩, 0, 1⟩)
      (lopsidedCompiler.withSeries [pointAt (1 / 2)]) =
        .error .unboundedDirection (lopsidedCompiler.withSeries [pointAt (1 / 2)]) := by
    have hmake : BreakpointSeries.make [] (.var ⟨⟨0⟩, 0, 1⟩)
        lopsidedCompiler.model.uncertainty.scope = _ :=
      BreakpointSeries.make_var_eq (v := ⟨"v", none, .free⟩) rfl []
    rw [addBreakpoints_collecting rfl, model_withSeries, hmake]
    rfl
  refine Step.bind_eq_error_iff.2 (.inr ⟨_, _, rfl, ?_⟩)
  refine Step.bind_eq_error_iff.2 (.inr ⟨_, _, hfirst, ?_⟩)
  exact Step.bind_eq_error_iff.2 (.inl hsecond)

/-- The series along the bounded first uncertainty stays when the unbounded second one is refused.
-/
theorem failed_placements_stay_lopsided : ∃ (c' : LiftingCompiler ℝ (Replay ℝ))
    (placed : List (BreakpointSeries ℝ)),
    addEquidistant 2 lopsidedCompiler = .error .unboundedDirection c' ∧ c'.series = placed ∧
      placed ≠ [] ∧ List.Forall₂ (IsAlong lopsided.uncertainty)
        (lopsided.uncertainty.vars.entries.takeWhile fun p => p.2.bounds.isBounded) placed := by
  have hcall : (Call.equidistant 2 : Call ℝ).bulk? (β := Replay ℝ) = some (addEquidistant 2) := rfl
  obtain ⟨placed, hseries, hleft, hplaced, -⟩ :=
    failed_placements_stay hcall addEquidistant_lopsided
  have hne := hleft.2 ⟨⟨trivial, rfl⟩, _, rfl, isBounded_iff.2 ⟨0, 1, rfl, rfl⟩⟩
  exact ⟨_, placed, addEquidistant_lopsided, hseries, hne, (hplaced hne).2⟩

/-- The series along the first uncertainty stays, and with another breakpoint for that uncertainty
the model is not lifted. -/
theorem lopsided_placement_stays :
    lopsidedCompiler.series = [] ∧
      (addEquidistant 2).perform lopsidedCompiler =
        (.error .unboundedDirection, lopsidedCompiler.withSeries [pointAt (1 / 2)]) ∧
      (build.perform ((lopsidedCompiler.answer (.equidistant 2)).answer
        (.breakpoints [1 / 4] (.var ⟨⟨0⟩, 0, 0⟩)))).1 =
          .error (.duplicateBreakpointDirection "u") := by
  have hfails : (addEquidistant 2).perform lopsidedCompiler =
      (.error .unboundedDirection, lopsidedCompiler.withSeries [pointAt (1 / 2)]) := by
    rw [Step.perform, addEquidistant_lopsided]
  have hretry : (lopsidedCompiler.answer (.equidistant 2)).answer
      (.breakpoints [1 / 4] (.var ⟨⟨0⟩, 0, 0⟩)) =
        lopsidedCompiler.withSeries [pointAt (1 / 2), pointAt (1 / 4)] := by
    rw [answer, answer, hfails, Step.perform, addBreakpoints_collecting rfl, model_withSeries,
      make_pointAt (by norm_num) (by norm_num)]
    exact withSeries_withSeries _ _ _
  have hassign : LiftedModel.assignSeries lopsided.uncertainty
      [pointAt (1 / 2), pointAt (1 / 4)] = .error (.duplicateBreakpointDirection "u") := by
    have haxis : ∀ b, (pointAt b).axis = .ok ⟨⟨0⟩, 0, 0⟩ := fun b => by
      simp [BreakpointSeries.axis, pointAt, LinearExpr.var, LinearExpr.term]
    simp only [LiftedModel.assignSeries, List.foldlM_cons, haxis]
    rfl
  exact ⟨rfl, hfails, hretry ▸ build_of_assignSeries rfl hassign⟩

end LiftingCompiler

end AdjustableRobust
