import AdjustableRobust.Proofs.Lifting.Box
import AdjustableRobust.Proofs.Lifting.Rotational
import AdjustableRobust.Proofs.Success

/-!
# Projection of the lifted set

The realizations of a lifted alternative are retracted onto exactly the realizations of the base
alternative: every base realization is lifted to a lifted one, every lifted realization is retracted
to a base one, and retracting undoes lifting.
-/

namespace AdjustableRobust

namespace Lifting

/-- The lifted set has the lifted variables, and alternatives with valid constraints, among them
the base constraints on what is retracted. -/
structure Lifts (l : Lifting ℝ) (set lifted : UncertaintySet ℝ) : Prop where
  isOver : l.IsOver set
  handles : l.axes.flatMap (·.vars) = lifted.vars.handles
  /-- The bounds of the lifted variables are those of the axes. -/
  admits : ∀ U : UncertaintyRef → ℝ,
    (∀ e ∈ lifted.vars.entries, e.2.bounds.admits (U e.1) = true) ↔
      List.Forall₂ (fun (v : UncertaintyVariable ℝ) (axis : LiftedAxis ℝ) =>
        axis.Admits v (axis.vars.map U)) set.vars.items l.axes
  size : lifted.alternatives.size = max set.alternatives.size 1
  valid : ∀ i b, lifted.alternatives.items[i]? = some b →
    ∀ c ∈ b.constraints, l.Valid set i c.toRawConstraint
  retracted : ∀ i a, set.alternatives.items[i]? = some a →
    ∀ c ∈ a.constraints, l.HasRetracted set i c lifted

namespace Lifts

variable {l : Lifting ℝ} {set lifted lifted' : UncertaintySet ℝ}

/-- Adding valid constraints changes nothing. -/
theorem tighten (h : l.Lifts set lifted) (ht : lifted.Tightens (l.Valid set) lifted') :
    l.Lifts set lifted' where
  isOver := h.isOver
  handles := by rw [ht.vars, h.handles]
  admits := by rw [ht.vars]; exact h.admits
  size := ht.size.trans h.size
  valid i b' hb' c hc := by
    obtain ⟨b, cs, hb, hconstraints, hcs⟩ := ht.added i b' hb'
    rw [hconstraints, List.mem_append] at hc
    exact hc.elim (h.valid i b hb c) (hcs c)
  retracted i a ha c hc := (h.retracted i a ha c hc).mono ht

/-- Every base alternative has a lifted one. -/
theorem exists_alternative (h : l.Lifts set lifted) {i : ℕ} {a : ConstraintSet ℝ}
    (ha : set.alternatives.items[i]? = some a) : ∃ b, lifted.alternatives.items[i]? = some b := by
  have hi : i < set.alternatives.size := (List.getElem?_eq_some_iff.1 ha).1
  have hi' : i < lifted.alternatives.items.length :=
    lt_of_lt_of_le hi ((le_max_left _ _).trans h.size.ge)
  exact ⟨_, List.getElem?_eq_getElem hi'⟩

variable {i : ℕ} {a b : ConstraintSet ℝ}

/-- Realizations of the base alternative are lifted to realizations of the lifted one. -/
theorem lift (h : l.Lifts set lifted) (ha : set.alternatives.items[i]? = some a)
    (hb : lifted.alternatives.items[i]? = some b) {r : List ℝ} (hr : set.Realizes a r) :
    ∃ R, l.lift r = .ok R ∧ lifted.Realizes b R := by
  have hadmits := UncertaintySet.forall₂_admits_iff.2 ⟨hr.length, hr.bounds⟩
  refine ⟨_, h.isOver.lift_eq_ok hr.length, UncertaintySet.realizes_iff.2 ?_⟩
  obtain ⟨hlength, hlift⟩ := h.isOver.isLift_flatMap hr.length h.handles rfl
  refine ⟨hlength, fun c hc u hu => ?_, fun c hc => ?_⟩
  · have hmem := (h.valid i b hb c hc).occurs u hu
    rw [h.handles, Store.handles] at hmem
    obtain ⟨j, hj, rfl⟩ := List.mem_map.1 hmem
    exact List.mem_range.1 hj
  · rcases List.mem_append.1 hc with hc | hc
    · obtain ⟨c', hc', rfl⟩ := List.mem_map.1 hc
      exact (h.valid i b hb c' hc').holds a r _ ha hr hlift
    · obtain ⟨e, he, hrow⟩ := List.mem_flatMap.1 hc
      refine (Bounds.admits_iff_rows _ _ _).1 ((h.admits _).2 ?_ e he) c hrow
      rw [List.forall₂_iff_get]
      refine ⟨h.isOver.represents.length_eq, fun j hj hj' => ?_⟩
      have hj'' : j < r.length := hlift.length_eq ▸ hj'
      have hspread := hlift.get hj' hj''
      rw [hspread]
      exact (h.isOver.represents.get hj hj').admits_spread (hadmits.get hj hj'')

/-- Realizations of the lifted alternative are retracted to realizations of the base one. -/
theorem retract (h : l.Lifts set lifted) (ha : set.alternatives.items[i]? = some a)
    (hb : lifted.alternatives.items[i]? = some b) {R : List ℝ} (hR : lifted.Realizes b R) :
    set.Realizes a (l.retract R) := by
  have hholds := (UncertaintySet.realizes_iff.1 hR).2.2
  have hentries := (UncertaintySet.boundsRespected_ofList_iff hR.length).1 hR.bounds
  have hadmits : List.Forall₂ (fun v x => v.bounds.admits x = true) set.vars.items
      (l.retract R) := by
    have hall := (h.admits _).1 hentries
    rw [Lifting.retract, List.forall₂_map_right_iff, List.forall₂_iff_get]
    refine ⟨hall.length_eq, fun j hj hj' => ?_⟩
    exact (h.isOver.represents.get hj hj').admits_of_admits (hall.get hj hj')
  obtain ⟨hlength, hbounds⟩ := UncertaintySet.forall₂_admits_iff.1 hadmits
  refine ⟨hlength, hbounds, (ConstraintSet.satisfied_iff _ _).2 fun c hc => ?_⟩
  obtain ⟨c', hc', hretracts⟩ := h.retracted i a ha c hc b hb
  refine (Constraint.feasible_iff (Assignment.ofList_within _)).2 ⟨fun u hu => ?_, ?_⟩
  · exact Assignment.ofList_eq_bySlot_iff.2 (hlength ▸ hretracts.resolves u hu)
  · exact (hretracts.holds _).1 (hholds _ (List.mem_append_left _ (List.mem_map_of_mem hc')))

/-- Retracting undoes lifting within the bounds. -/
theorem retract_lift (h : l.Lifts set lifted) {r : List ℝ} (hr : r.length = set.numVariables)
    (hbounds : UncertaintySet.boundsRespected (.ofList r) 0 set.vars.entries = .ok true) :
    ∃ R, l.lift r = .ok R ∧ l.retract R = r := by
  refine ⟨_, h.isOver.lift_eq_ok hr, ?_⟩
  obtain ⟨-, hlift⟩ := h.isOver.isLift_flatMap hr h.handles rfl
  exact h.isOver.retract_of_isLift (UncertaintySet.forall₂_admits_iff.2 ⟨hr, hbounds⟩) hlift

end Lifts

end Lifting

namespace LiftedModel

variable {model lifted lifted' : RobustModel ℝ} {axes : List (LiftedAxis ℝ)} {d : Draft ℝ}

/-! ## Stages of the construction -/

/-- Adding alternatives keeps variables and constraints, and everything but the uncertainty set. -/
theorem addAlternatives_empty (xs : List (ConstraintSet ℝ)) (m : RobustModel ℝ) :
    let m' := xs.foldl (fun (m : RobustModel ℝ) _ => m.addAlternative.2) m
    m' = { m with uncertainty := m'.uncertainty } ∧
      m'.uncertainty.vars = m.uncertainty.vars ∧ m'.uncertainty.alternatives.items =
        m.uncertainty.alternatives.items ++ List.replicate xs.length .empty := by
  induction xs generalizing m with
  | nil => simp
  | cons x xs ih =>
    obtain ⟨hrest, hvars, hitems⟩ := ih m.addAlternative.2
    refine ⟨?_, hvars, ?_⟩
    · rw [List.foldl_cons, hrest]
      rfl
    · rw [List.foldl_cons, hitems, List.length_cons, List.replicate_succ]
      change (m.uncertainty.alternatives.items ++ [.empty]) ++ _ = _
      rw [List.append_assoc, List.singleton_append]

/-- The lifted model starts with one empty alternative for each base one, and at least one. -/
theorem emptyAlternatives (hd : d.IsOver model.uncertainty) :
    let m := (model.uncertainty.alternatives.items.drop 1).foldl
      (fun (m : RobustModel ℝ) _ => m.addAlternative.2) d.lifted
    m = { d.lifted with uncertainty := m.uncertainty } ∧
      m.uncertainty.vars = d.lifted.uncertainty.vars ∧ m.uncertainty.alternatives.items =
        List.replicate (max model.uncertainty.alternatives.size 1) .empty := by
  obtain ⟨hrest, hvars, hitems⟩ :=
    addAlternatives_empty (model.uncertainty.alternatives.items.drop 1) d.lifted
  have hcount : model.uncertainty.alternatives.items.length - 1 + 1 =
      max model.uncertainty.alternatives.size 1 := by
    rw [Store.size]
    omega
  rw [hd.alternatives, List.singleton_append, ← List.replicate_succ, List.length_drop, hcount]
    at hitems
  exact ⟨hrest, hvars, hitems⟩

private theorem uncertainty_addDecision {dv : DecisionVariable ℝ} {h : DecisionRef}
    (hrun : addDecision axes lifted dv = .ok (h, lifted')) :
    lifted'.uncertainty = lifted.uncertainty := by
  rw [addDecision] at hrun
  split at hrun
  · rw [PolicyError.fromModel, mapError_eq_ok_iff, RobustModel.addDecision, bind_eq_ok_iff] at hrun
    obtain ⟨_, -, hrun⟩ := hrun
    obtain ⟨-, rfl⟩ := Prod.mk.inj (pure_eq_ok_iff.1 hrun)
    rfl
  · simp only [bind_eq_ok_iff, PolicyError.fromModel, mapError_eq_ok_iff,
      RobustModel.addDecisionDependingOn, pure_eq_ok_iff] at hrun
    obtain ⟨_, -, _, -, _, -, hrun⟩ := hrun
    obtain ⟨-, rfl⟩ := Prod.mk.inj hrun
    rfl

/-- Adding the decisions keeps the uncertainty set. -/
theorem uncertainty_addDecisions {hs : List DecisionRef}
    (hrun : addDecisions model axes lifted = .ok (hs, lifted')) :
    lifted'.uncertainty = lifted.uncertainty := by
  refine foldlM_invariant (I := fun p : List DecisionRef × RobustModel ℝ =>
    p.2.uncertainty = lifted.uncertainty) ?_ rfl hrun
  rintro ⟨hs, m⟩ dv - p' hm hstep
  rw [bind_eq_ok_iff] at hstep
  obtain ⟨⟨h, m'⟩, hadd, hstep⟩ := hstep
  rw [pure_eq_ok_iff] at hstep
  subst hstep
  exact (uncertainty_addDecision hadd).trans hm

/-- Adding constraints and objective keeps the uncertainty set. -/
theorem uncertainty_addConstraints {rs : List (AffineExpr ℝ UncertaintyRef)}
    {ds : List DecisionRef} (hrun : addConstraints model rs ds lifted = .ok lifted') :
    lifted'.uncertainty = lifted.uncertainty := by
  simp only [addConstraints, bind_eq_ok_iff, pure_eq_ok_iff] at hrun
  obtain ⟨m, hfold, o, -, e, -, rfl⟩ := hrun
  have hkept : m.uncertainty = lifted.uncertainty := by
    refine foldlM_invariant (I := fun m : RobustModel ℝ => m.uncertainty = lifted.uncertainty)
      (fun m c _ m' hm hstep => ?_) rfl hfold
    rw [bind_eq_ok_iff] at hstep
    obtain ⟨_, -, hstep⟩ := hstep
    rw [pure_eq_ok_iff] at hstep
    subst hstep
    exact hm
  exact hkept

private theorem getElem?_of_mem_zip_handles {κ : EntityKind} {β γ : Type} {xs : List β}
    {s : Store κ γ} {p : β × Handle κ} (hp : p ∈ xs.zip s.handles) :
    xs[p.2.slot]? = some p.1 := by
  obtain ⟨i, hi, rfl⟩ := List.getElem_of_mem hp
  rw [List.length_zip, lt_min_iff] at hi
  rw [List.getElem_zip]
  simp [Store.handles, Store.handleFor, hi.1]

private theorem lifts_of_addAlternatives (hd : d.IsOver model.uncertainty)
    (hvars : lifted.uncertainty.vars = d.lifted.uncertainty.vars)
    (hitems : lifted.uncertainty.alternatives.items =
      List.replicate (max model.uncertainty.alternatives.size 1) .empty)
    (hrun : (model.uncertainty.alternatives.items.zip
      lifted.uncertainty.alternatives.handles).foldlM
        (fun lifted (p : ConstraintSet ℝ × ConstraintSetRef) =>
          addAlternative model d.axes d.retractions lifted p.1 p.2) lifted = .ok lifted') :
    Lifting.Lifts ⟨d.axes⟩ model.uncertainty lifted'.uncertainty := by
  have hsize : lifted.uncertainty.alternatives.size =
      max model.uncertainty.alternatives.size 1 := by
    rw [Store.size, hitems, List.length_replicate]
  obtain ⟨htightens, hretracted⟩ := addAlternatives_eq_ok hd
    (fun p hp => getElem?_of_mem_zip_handles hp) hrun
  refine ⟨hd.axes, ?_, ?_, htightens.size.trans hsize, fun i b' hb' c hc => ?_,
    fun i a ha c hc => ?_⟩
  · rw [htightens.vars, hvars]
    exact hd.handles
  · rw [htightens.vars, hvars]
    exact hd.admits
  · obtain ⟨b, cs, hb, hconstraints, hcs⟩ := htightens.added i b' hb'
    have hempty : b = .empty := by
      rw [hitems] at hb
      exact List.eq_of_mem_replicate (List.mem_of_getElem? hb)
    rw [hconstraints, hempty] at hc
    exact hcs c hc
  · obtain ⟨hi, rfl⟩ := List.getElem?_eq_some_iff.1 ha
    have hi' : i < lifted.uncertainty.alternatives.handles.length := by
      rw [Store.handles, List.length_map, List.length_range, hsize]
      exact lt_of_lt_of_le hi (le_max_left _ _)
    have hmem := List.getElem_mem (l := model.uncertainty.alternatives.items.zip
      lifted.uncertainty.alternatives.handles) (n := i)
        (by rw [List.length_zip]; exact lt_min hi hi')
    rw [List.getElem_zip] at hmem
    have hthere := hretracted _ hmem c hc
    simpa [Store.handles, Store.handleFor] using hthere

/-- The lifted model before the cuts across axes lifts the uncertainty set. -/
theorem buildAxes_eq_ok {series : List (BreakpointSeries ℝ)} {options : LiftingOptions}
    {owner : OwnerId} (hseries : ∀ s ∈ series, s.IsOver model.uncertainty)
    (hrun : buildAxes model series options owner = .ok (lifted, axes)) :
    Lifting.Lifts ⟨axes⟩ model.uncertainty lifted.uncertainty := by
  simp only [buildAxes, bind_eq_ok_iff, PolicyError.fromModel, mapError_eq_ok_iff, pure_eq_ok_iff]
    at hrun
  obtain ⟨d, hdraft, filled, hfilled, ⟨ds, decided⟩, hdecided, constrained, hconstrained, tightened,
    htightened, hresult⟩ := hrun
  obtain ⟨rfl, rfl⟩ := Prod.mk.inj hresult
  have hd := liftUncertainties_eq_ok hseries hdraft
  obtain ⟨-, hvars, hitems⟩ := emptyAlternatives hd
  have hlifts := lifts_of_addAlternatives hd hvars hitems hfilled
  have hkept : constrained.uncertainty = filled.uncertainty :=
    (uncertainty_addConstraints hconstrained).trans (uncertainty_addDecisions hdecided)
  rw [← hkept] at hlifts
  refine hlifts.tighten (.of_foldlM (fun m p hp m' hstep => ?_) htightened)
  exact tightens_of_tightenBox hd.axes (getElem?_of_mem_zip_handles hp) hstep

/-- A lifted model is built axis by axis, then cut across axes if that is asked for; at last the
distribution is lifted, without a look at the uncertainty set. -/
theorem build_eq_ok {series : List (BreakpointSeries ℝ)} {options : LiftingOptions}
    {owner : OwnerId} {lifting : Lifting ℝ} {d d' : Diagnostics}
    (hrun : build model series options owner d = .ok (lifted, lifting) d') :
    ∃ boxed cut, buildAxes model series options owner = .ok (boxed, lifting.axes) ∧
      (cut = boxed ∨ ∃ d₁ d₂, tightenRotational model lifting.axes boxed d₁ = .ok cut d₂) ∧
        lifted = model.distribution?.elim cut fun base =>
          cut.setDistribution (.lifted base lifting) := by
  rw [build] at hrun
  obtain ⟨⟨boxed, axes⟩, d₁, hboxed, hrun⟩ := Step.bind_eq_ok_iff.1 hrun
  obtain ⟨hboxed, -⟩ := Step.ofExcept_eq_ok_iff.1 hboxed
  have hcuts : ∃ cut d₂ d₃, (cut = boxed ∨
      tightenRotational model axes boxed d₂ = .ok cut d₃) ∧
        (lifted, lifting) = (model.distribution?.elim cut fun base =>
          cut.setDistribution (.lifted base ⟨axes⟩), ⟨axes⟩) := by
    cases hdistribution : model.distribution? <;> simp only [hdistribution] at hrun <;>
      split at hrun
    all_goals
      obtain ⟨cut, d₂, hcut, hrun⟩ := Step.bind_eq_ok_iff.1 hrun
      have hresult := (Step.pure_eq_ok_iff.1 hrun).1.symm
    · exact ⟨cut, _, _, .inr hcut, hresult⟩
    · exact ⟨cut, d₂, d₂, .inl (Step.pure_eq_ok_iff.1 hcut).1.symm, hresult⟩
    · exact ⟨cut, _, _, .inr hcut, hresult⟩
    · exact ⟨cut, d₂, d₂, .inl (Step.pure_eq_ok_iff.1 hcut).1.symm, hresult⟩
  obtain ⟨cut, d₂, d₃, hcut, hresult⟩ := hcuts
  obtain ⟨rfl, rfl⟩ := Prod.mk.inj hresult
  refine ⟨boxed, cut, hboxed, ?_, rfl⟩
  exact hcut.imp_right fun h => ⟨_, _, h⟩

/-- The lifted model lifts the uncertainty set, whichever tightening is chosen. -/
theorem build_lifts {series : List (BreakpointSeries ℝ)} {options : LiftingOptions}
    {owner : OwnerId} {lifting : Lifting ℝ} {d d' : Diagnostics}
    (hseries : ∀ s ∈ series, s.IsOver model.uncertainty)
    (hrun : build model series options owner d = .ok (lifted, lifting) d') :
    lifting.Lifts model.uncertainty lifted.uncertainty := by
  obtain ⟨boxed, cut, hboxed, hcut, rfl⟩ := build_eq_ok hrun
  have hlifts := buildAxes_eq_ok hseries hboxed
  have hafter : lifting.Lifts model.uncertainty cut.uncertainty := by
    obtain rfl | ⟨d₁, d₂, hcut⟩ := hcut
    · exact hlifts
    · have hsize : model.uncertainty.alternatives.size = 1 →
          boxed.uncertainty.alternatives.size = 1 := by
        intro hone
        rw [hlifts.size, hone, max_self]
      exact hlifts.tighten (tightens_of_tightenRotational hlifts.isOver hsize hcut)
  cases model.distribution? with
  | none => exact hafter
  | some base => exact hafter

/-! ## A variable in two halves -/

/-- A model of one uncertainty between minus one and one. -/
noncomputable def segment : RobustModel ℝ where
  name := "segment"
  decisions := .new ⟨0⟩
  uncertainty := ⟨"segment", ⟨⟨0⟩, 0, [⟨"u", none, ⟨some (-1), some 1, by
    rintro _ _ ⟨⟩ ⟨⟩; norm_num⟩⟩]⟩, ⟨⟨0⟩, 0, [.empty]⟩⟩
  constraints := []
  objective? := some (.new .minimize .zero)
  distribution? := none

/-- A breakpoint at zero cuts the range of the uncertainty into halves. -/
noncomputable def halves : BreakpointSeries ℝ := ⟨[0], .var ⟨⟨0⟩, 0, 0⟩, -1, 1⟩

/-- The lifted variables that stand for the halves. -/
noncomputable def halfAxis : LiftedAxis ℝ := ⟨some halves, [⟨⟨1⟩, 0, 0⟩, ⟨⟨1⟩, 0, 1⟩]⟩

/-- The series is one over the model. -/
theorem halves_isOver : halves.IsOver segment.uncertainty := by
  have hmake : BreakpointSeries.make [0] (.var ⟨⟨0⟩, 0, 0⟩) segment.uncertainty.scope = _ :=
    BreakpointSeries.make_var rfl rfl rfl rfl
  refine ⟨[0], .var ⟨⟨0⟩, 0, 0⟩, hmake.trans ?_⟩
  simp [BreakpointSeries.keepInside, halves]

private theorem pieceWidth_halves : halves.pieceWidth 0 = 1 ∧ halves.pieceWidth 1 = 1 := by
  norm_num [BreakpointSeries.pieceWidth, BreakpointSeries.pieceEnd, BreakpointSeries.pieceStart,
    halves]

/-- The segment with decisions, constraints and an objective. -/
noncomputable def segmentWith (decisions : Store .decision (DecisionVariable ℝ))
    (constraints : List (RobustConstraint ℝ)) (objective : RobustObjective ℝ) : RobustModel ℝ :=
  { segment with decisions, constraints, objective? := some objective }

/-- The halves as lifted uncertainties, with nothing else in the model yet. -/
noncomputable def halved : RobustModel ℝ where
  name := "segment_lifted"
  decisions := .new ⟨1⟩
  uncertainty := ⟨"segment_lifted", ⟨⟨1⟩, 0, [⟨"u_L0", none, ⟨some 0, some 1, by
    rintro _ _ ⟨⟩ ⟨⟩; norm_num⟩⟩, ⟨"u_L1", none, ⟨some 0, some 1, by
    rintro _ _ ⟨⟩ ⟨⟩; norm_num⟩⟩]⟩, ⟨⟨1⟩, 0, [.empty]⟩⟩
  constraints := []
  objective? := none
  distribution? := none

/-- The uncertainty is minus one plus its halves. -/
noncomputable def fromHalves : AffineExpr ℝ UncertaintyRef :=
  ((AffineExpr.const (-1)).addTerm 1 ⟨⟨1⟩, 0, 0⟩).addTerm 1 ⟨⟨1⟩, 0, 1⟩

/-- A lifted model with a single alternative. -/
noncomputable def withAlternative (m : RobustModel ℝ) (b : ConstraintSet ℝ) : RobustModel ℝ :=
  { m with uncertainty := { m.uncertainty with alternatives := ⟨⟨1⟩, 0, [b]⟩ } }

private theorem lift_segment : liftUncertainties segment [halves] ⟨1⟩ =
    .ok ⟨halved, [halfAxis], [fromHalves]⟩ := by
  have hassign : assignSeries segment.uncertainty [halves] = .ok [some halves] := by
    simp [assignSeries, BreakpointSeries.axis, halves, LinearExpr.var, LinearExpr.term]
    rfl
  obtain ⟨hzero, hone⟩ := pieceWidth_halves
  have hpieces : List.range halves.numPieces = [0, 1] := rfl
  have hrows : segment.uncertainty.vars.items.zip [some halves] =
    [(⟨"u", none, ⟨some (-1), some 1, by rintro _ _ ⟨⟩ ⟨⟩; norm_num⟩⟩, some halves)] := rfl
  simp only [liftUncertainties, hassign, bind, Except.bind, hrows, List.foldlM, Draft.addPieces,
    hpieces, RobustModel.addUncertainty, hzero, hone, Bounds.make_of_le zero_le_one]
  rfl

private theorem addConstraint_withAlternative {m m' : RobustModel ℝ}
    (hm : ∃ b, m' = withAlternative m b) (name : String)
    (c : RawConstraint (ConicExpr ℝ UncertaintyRef)) :
    Yields (m'.addUncertaintyConstraintTo ⟨⟨1⟩, 0, 0⟩ name c)
      fun m' => ∃ b, m' = withAlternative m b := by
  obtain ⟨b, rfl⟩ := hm
  exact ⟨_, rfl, b.add name c, rfl⟩

private theorem tightenBox_segment {m : RobustModel ℝ} (b : ConstraintSet ℝ) :
    Yields (tightenBox segment ⟨false, false⟩ [halfAxis] (withAlternative m b) .empty ⟨⟨1⟩, 0, 0⟩)
      fun m' => ∃ b, m' = withAlternative m b := by
  have hbox : (!(ConstraintSet.empty : ConstraintSet ℝ).isBox) = false := rfl
  have hranges : BoxRange.ofAlternative segment.uncertainty .empty = .ok [⟨some (-1), some 1⟩] :=
    rfl
  have hclipped : Yields (BoxPieces.clipped ⟨⟨⟨1⟩, 0, 0⟩, "u", halves, halfAxis, -1, 1⟩)
      fun _ => True := by
    have hnext : halfAxis.variableAt 1 = .ok ⟨⟨1⟩, 0, 1⟩ := rfl
    have hpieces : halfAxis.vars.zipIdx = [(⟨⟨1⟩, 0, 0⟩, 0), (⟨⟨1⟩, 0, 1⟩, 1)] := rfl
    have hends : halves.pieceEnd 0 = 0 ∧ halves.pieceEnd 1 = 1 := ⟨rfl, rfl⟩
    simp [Yields, BoxPieces.clipped, BoxPieces.clippedPiece, hpieces, hnext, hends]
  simp only [tightenBox, hbox, if_neg Bool.false_ne_true, hranges]
  refine Yields.bind (P := (· = [⟨some (-1), some 1⟩])) ⟨_, rfl, rfl⟩ fun _ hr => ?_
  rw [hr]
  refine Yields.foldlM (fun m hm p hp => ?_) ⟨b, rfl⟩
  rw [show p = (_, halfAxis, ⟨some (-1), some 1⟩) from List.mem_singleton.1 hp]
  refine Yields.bind (.mapError hclipped) fun cs _ => ?_
  exact Yields.foldlM (fun m hm c _ => .mapError (addConstraint_withAlternative hm _ _)) hm

/-- A model over the segment is lifted along the halves when its decisions and constraints are. -/
theorem build_segmentWith {decisions : Store .decision (DecisionVariable ℝ)}
    {constraints : List (RobustConstraint ℝ)} {objective : RobustObjective ℝ}
    (hs : List DecisionRef) (m₁ : RobustModel ℝ) {m₂ : RobustModel ℝ}
    (hdecided : ∀ b, addDecisions (segmentWith decisions constraints objective) [halfAxis]
      (withAlternative halved b) = .ok (hs, withAlternative m₁ b))
    (hconstrained : ∀ b, addConstraints (segmentWith decisions constraints objective) [fromHalves]
      hs (withAlternative m₁ b) = .ok (withAlternative m₂ b)) (d : Diagnostics) :
    ∃ b, build (segmentWith decisions constraints objective) [halves] ⟨false, false⟩ ⟨1⟩ d =
      .ok (withAlternative m₂ b, ⟨[halfAxis]⟩) d := by
  set model := segmentWith decisions constraints objective with hmodel
  have hdraft : liftUncertainties model [halves] ⟨1⟩ = .ok ⟨halved, [halfAxis], [fromHalves]⟩ :=
    lift_segment
  obtain ⟨b, hb⟩ : ∃ b, addAlternative model [halfAxis] [fromHalves] halved .empty ⟨⟨1⟩, 0, 0⟩ =
    .ok (withAlternative halved b) := ⟨_, rfl⟩
  obtain ⟨_, hbox, b', rfl⟩ := tightenBox_segment (m := m₂) b
  have hsets : model.uncertainty.alternatives.items.zip
      halved.uncertainty.alternatives.handles = [(.empty, ⟨⟨1⟩, 0, 0⟩)] := rfl
  have hothers : model.uncertainty.alternatives.items.drop 1 = [] := rfl
  have haxes : buildAxes model [halves] ⟨false, false⟩ ⟨1⟩ =
      .ok (withAlternative m₂ b', [halfAxis]) := by
    simp only [buildAxes, hdraft, hothers, List.foldl_nil, bind_eq_ok_iff, pure_eq_ok_iff,
      PolicyError.fromModel, mapError_eq_ok_iff]
    refine ⟨_, rfl, withAlternative halved b, ?_, (hs, _), hdecided b, _, hconstrained b, _, ?_,
      rfl⟩
    · rw [hsets, List.foldlM_cons, hb]
      rfl
    · rw [hsets, List.foldlM_cons]
      exact bind_eq_ok_iff.2 ⟨_, hbox, rfl⟩
  refine ⟨b', ?_⟩
  rw [build, haxes]
  rfl

/-- The segment itself is lifted along its halves. -/
theorem build_segment (d : Diagnostics) :
    ∃ lifted, build segment [halves] ⟨false, false⟩ ⟨1⟩ d = .ok (lifted, ⟨[halfAxis]⟩) d := by
  obtain ⟨o, hconstrained⟩ : ∃ o, ∀ b, addConstraints segment [fromHalves] []
      (withAlternative halved b) = .ok (withAlternative (halved.setObjective o) b) :=
    ⟨_, fun _ => rfl⟩
  obtain ⟨b, hb⟩ := build_segmentWith [] halved (fun _ => rfl) hconstrained d
  exact ⟨_, hb⟩

/-! ## Exact projection -/

/-- The lifted uncertainty set projects exactly onto the base one. -/
theorem build_projects {series : List (BreakpointSeries ℝ)} {options : LiftingOptions}
    {owner : OwnerId} {lifting : Lifting ℝ} {d d' : Diagnostics}
    (hseries : ∀ s ∈ series, s.IsOver model.uncertainty)
    (hrun : build model series options owner d = .ok (lifted, lifting) d') :
    (∀ (i : ℕ) a, model.uncertainty.alternatives.items[i]? = some a →
      ∃ b, lifted.uncertainty.alternatives.items[i]? = some b ∧
        (∀ r, model.uncertainty.Realizes a r →
          ∃ R, lifting.lift r = .ok R ∧ lifted.uncertainty.Realizes b R) ∧
        ∀ R, lifted.uncertainty.Realizes b R →
          model.uncertainty.Realizes a (lifting.retract R)) ∧
      ∀ r : List ℝ, r.length = model.uncertainty.numVariables →
        UncertaintySet.boundsRespected (.ofList r) 0 model.uncertainty.vars.entries = .ok true →
          ∃ R, lifting.lift r = .ok R ∧ lifting.retract R = r := by
  have hlifts := build_lifts hseries hrun
  constructor
  · intro i a ha
    obtain ⟨b, hb⟩ := hlifts.exists_alternative ha
    exact ⟨b, hb, fun r hr => hlifts.lift ha hb hr, fun R hR => hlifts.retract ha hb hR⟩
  · intro r hr hbounds
    exact hlifts.retract_lift hr hbounds

/-- The point one half is lifted to a realization of the halves, which is retracted to the segment.
-/
theorem build_projects_halves : ∃ lifted b R, halves.IsOver segment.uncertainty ∧
    build segment [halves] ⟨false, false⟩ ⟨1⟩ .empty = .ok (lifted, ⟨[halfAxis]⟩) .empty ∧
      lifted.uncertainty.alternatives.items[0]? = some b ∧
        Lifting.lift ⟨[halfAxis]⟩ [1 / 2] = .ok R ∧ lifted.uncertainty.Realizes b R ∧
          segment.uncertainty.Realizes .empty (Lifting.retract ⟨[halfAxis]⟩ R) := by
  obtain ⟨lifted, hrun⟩ := build_segment .empty
  have hseries : ∀ s ∈ [halves], s.IsOver segment.uncertainty :=
    List.forall_mem_singleton.2 halves_isOver
  obtain ⟨halternatives, -⟩ := build_projects hseries hrun
  obtain ⟨b, hb, hlift, hretract⟩ := halternatives 0 .empty rfl
  have hbounds : List.Forall₂ (fun v x => v.bounds.admits x = true)
      segment.uncertainty.vars.items [(1 / 2 : ℝ)] :=
    .cons (by norm_num [Bounds.admits]) .nil
  obtain ⟨R, hR, hrealizes⟩ := hlift [1 / 2]
    ⟨rfl, (UncertaintySet.forall₂_admits_iff.1 hbounds).2, rfl⟩
  exact ⟨lifted, b, R, halves_isOver, hrun, hb, hR, hrealizes, hretract R hrealizes⟩

end LiftedModel

end AdjustableRobust
