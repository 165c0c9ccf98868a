import AdjustableRobust.Proofs.Expression.Substitution
import AdjustableRobust.Proofs.Lifting.Draft

/-!
# Lifting the alternatives

Constraints are only ever added to the lifted alternatives. A constraint is valid for an alternative
when the lifts of all its realizations satisfy it: pieces fill up one after the other, and the base
constraints hold on what is retracted. The latter are all there, so what satisfies the lifted
alternative is retracted to a realization of the base one.
-/

namespace AdjustableRobust

/-! ## Adding constraints -/

namespace UncertaintySet

/-- Only constraints that are valid for their alternative are added to a set. -/
structure Tightens (valid : ℕ → RawConstraint (ConicExpr ℝ UncertaintyRef) → Prop)
    (s s' : UncertaintySet ℝ) : Prop where
  vars : s'.vars = s.vars
  size : s'.alternatives.size = s.alternatives.size
  added : ∀ i b', s'.alternatives.items[i]? = some b' → ∃ b cs,
    s.alternatives.items[i]? = some b ∧ b'.constraints = b.constraints ++ cs ∧
      ∀ c ∈ cs, valid i c.toRawConstraint

namespace Tightens

variable {valid : ℕ → RawConstraint (ConicExpr ℝ UncertaintyRef) → Prop}
variable {s s' s'' : UncertaintySet ℝ}

/-- Nothing is added. -/
theorem refl (s : UncertaintySet ℝ) : Tightens valid s s where
  vars := rfl
  size := rfl
  added _ b hb := ⟨b, [], hb, (List.append_nil _).symm, by simp⟩

/-- Constraints are added one after the other. -/
theorem trans (h : Tightens valid s s') (h' : Tightens valid s' s'') : Tightens valid s s'' where
  vars := h'.vars.trans h.vars
  size := h'.size.trans h.size
  added i b'' hb'' := by
    obtain ⟨b', cs', hb', hconstraints', hcs'⟩ := h'.added i b'' hb''
    obtain ⟨b, cs, hb, hconstraints, hcs⟩ := h.added i b' hb'
    refine ⟨b, cs ++ cs', hb, ?_, List.forall_mem_append.2 ⟨hcs, hcs'⟩⟩
    rw [hconstraints', hconstraints, List.append_assoc]

/-- Adding a valid constraint to an alternative. -/
theorem of_addConstraintTo {h : ConstraintSetRef} {name : String}
    {c : RawConstraint (ConicExpr ℝ UncertaintyRef)} (hc : valid h.slot c)
    (hrun : s.addConstraintTo h name c = .ok s') : Tightens valid s s' := by
  rw [addConstraintTo_eq_ok hrun]
  refine ⟨rfl, List.length_modify _ _ _, fun i b' hb' => ?_⟩
  rw [List.getElem?_modify] at hb'
  obtain ⟨b, hb, rfl⟩ := Option.map_eq_some_iff.1 hb'
  by_cases hi : h.slot = i
  · refine ⟨b, [.named name c], hb, by rw [if_pos hi]; rfl, ?_⟩
    rw [List.forall_mem_singleton]
    exact hi ▸ hc
  · exact ⟨b, [], hb, by rw [if_neg hi, List.append_nil], by simp⟩

/-- Adding a valid constraint to the last alternative. -/
theorem of_addConstraint {name : String} {c : RawConstraint (ConicExpr ℝ UncertaintyRef)}
    (hc : valid (s.alternatives.size - 1) c) (hrun : s.addConstraint name c = .ok s') :
    Tightens valid s s' := by
  obtain ⟨h, hslot, hadd⟩ := exists_addConstraintTo hrun
  exact of_addConstraintTo (hslot ▸ hc) hadd

/-- Steps that only add valid constraints. -/
theorem of_foldlM {ε α : Type} {f : RobustModel ℝ → α → Except ε (RobustModel ℝ)} {xs : List α}
    {m m' : RobustModel ℝ} (hstep : ∀ m, ∀ x ∈ xs, ∀ m', f m x = .ok m' →
      Tightens valid m.uncertainty m'.uncertainty) (hrun : xs.foldlM f m = .ok m') :
    Tightens valid m.uncertainty m'.uncertainty :=
  foldlM_invariant (I := fun b : RobustModel ℝ => Tightens valid m.uncertainty b.uncertainty)
    (fun b x hx b' hb hrun => hb.trans (hstep b x hx b' hrun)) (refl _) hrun

end Tightens

end UncertaintySet

/-- A constraint that was added is there. -/
theorem RobustModel.exists_mem_of_addUncertaintyConstraintTo {m m' : RobustModel ℝ}
    {set : ConstraintSetRef} {name : String} {c : RawConstraint (ConicExpr ℝ UncertaintyRef)}
    (hrun : m.addUncertaintyConstraintTo set name c = .ok m') {b : ConstraintSet ℝ}
    (hb : m'.uncertainty.alternatives.items[set.slot]? = some b) :
    ∃ c' ∈ b.constraints, c'.toRawConstraint = c := by
  rw [addUncertaintyConstraintTo_eq_ok hrun, List.getElem?_modify] at hb
  obtain ⟨b₀, -, rfl⟩ := Option.map_eq_some_iff.1 hb
  rw [if_pos rfl]
  exact ⟨.named name c, List.mem_append_right _ (List.mem_singleton_self _), rfl⟩

/-- Adding a valid constraint to an alternative of a model. -/
theorem RobustModel.tightens_of_addUncertaintyConstraintTo
    {valid : ℕ → RawConstraint (ConicExpr ℝ UncertaintyRef) → Prop} {m m' : RobustModel ℝ}
    {set : ConstraintSetRef} {name : String} {c : RawConstraint (ConicExpr ℝ UncertaintyRef)}
    (hc : valid set.slot c) (hrun : m.addUncertaintyConstraintTo set name c = .ok m') :
    UncertaintySet.Tightens valid m.uncertainty m'.uncertainty := by
  rw [addUncertaintyConstraintTo, bind_eq_ok_iff] at hrun
  obtain ⟨s, hs, hrun⟩ := hrun
  rw [pure_eq_ok_iff] at hrun
  subst hrun
  exact .of_addConstraintTo hc hs

/-! ## Valid constraints -/

/-- The lifted variable of a piece, if the piece exists. -/
theorem LiftedAxis.variableAt_eq_ok_iff {axis : LiftedAxis ℝ} {i : ℕ} {u : UncertaintyRef} :
    axis.variableAt i = .ok u ↔ axis.vars[i]? = some u := by
  rw [variableAt]
  cases axis.vars[i]? <;> simp

namespace Lifting

/-- The lifts of all realizations of an alternative satisfy a constraint on lifted variables. -/
structure Valid (l : Lifting ℝ) (set : UncertaintySet ℝ) (i : ℕ)
    (c : RawConstraint (ConicExpr ℝ UncertaintyRef)) : Prop where
  occurs : ∀ u ∈ c.expression.vars, u ∈ l.axes.flatMap (·.vars)
  holds : ∀ a r U, set.alternatives.items[i]? = some a → set.Realizes a r → l.IsLift r U →
    c.Holds U

/-- A constraint on lifted variables says of them what one on the base uncertainties says of what
they are retracted to. -/
structure Retracts (l : Lifting ℝ) (set : UncertaintySet ℝ)
    (c c' : RawConstraint (ConicExpr ℝ UncertaintyRef)) : Prop where
  resolves : ∀ u ∈ c.expression.vars, u.slot < set.numVariables
  occurs : ∀ u ∈ c'.expression.vars, u ∈ l.axes.flatMap (·.vars)
  holds : ∀ U, c'.Holds U ↔ c.Holds (bySlot (entryAt (l.axes.map (·.retract U))))

variable {l : Lifting ℝ} {set : UncertaintySet ℝ} {r : List ℝ} {U : UncertaintyRef → ℝ}

/-- An alternative has a constraint that says of the lifted variables what a base constraint says of
what they are retracted to. -/
def HasRetracted (l : Lifting ℝ) (set : UncertaintySet ℝ) (i : ℕ) (c : UncertaintyConstraint ℝ)
    (s : UncertaintySet ℝ) : Prop :=
  ∀ b, s.alternatives.items[i]? = some b →
    ∃ c' ∈ b.constraints, l.Retracts set c.toRawConstraint c'.toRawConstraint

/-- Tightening keeps constraints. -/
theorem HasRetracted.mono {l : Lifting ℝ} {set : UncertaintySet ℝ} {i : ℕ}
    {c : UncertaintyConstraint ℝ} {valid : ℕ → RawConstraint (ConicExpr ℝ UncertaintyRef) → Prop}
    {s s' : UncertaintySet ℝ} (h : l.HasRetracted set i c s) (ht : s.Tightens valid s') :
    l.HasRetracted set i c s' := by
  intro b' hb'
  obtain ⟨b, cs, hb, hconstraints, -⟩ := ht.added i b' hb'
  obtain ⟨c', hc', hretracts⟩ := h b hb
  exact ⟨c', hconstraints ▸ List.mem_append_left cs hc', hretracts⟩

/-- What a constraint says of retracted values is valid for the alternatives that have the
constraint. -/
theorem Retracts.valid {l : Lifting ℝ} {set : UncertaintySet ℝ}
    {c : UncertaintyConstraint ℝ} {c' : RawConstraint (ConicExpr ℝ UncertaintyRef)}
    (h : l.Retracts set c.toRawConstraint c') (hl : l.IsOver set) {i : ℕ} {a : ConstraintSet ℝ}
    (ha : set.alternatives.items[i]? = some a) (hc : c ∈ a.constraints) : l.Valid set i c' where
  occurs := h.occurs
  holds a' r U ha' hr hU := by
    obtain rfl := Option.some.inj (ha.symm.trans ha')
    have hadmits := UncertaintySet.forall₂_admits_iff.2 ⟨hr.length, hr.bounds⟩
    rw [h.holds U, hl.retract_of_isLift hadmits hU]
    exact (UncertaintySet.realizes_iff.1 hr).2.2 _
      (List.mem_append_left _ (List.mem_map_of_mem hc))

/-- A constraint on a single lifted axis is valid when it holds wherever realizations of the
alternative fill the axis. -/
theorem IsOver.valid_of_isFilled {l : Lifting ℝ} {set : UncertaintySet ℝ} (h : l.IsOver set)
    {k : ℕ} {axis : LiftedAxis ℝ} {s : BreakpointSeries ℝ} (hk : l.axes[k]? = some axis)
    (hs : axis.series? = some s) {i : ℕ} {c : RawConstraint (ConicExpr ℝ UncertaintyRef)}
    (hoccurs : ∀ u ∈ c.expression.vars, u ∈ axis.vars)
    (hholds : ∀ a r x U, set.alternatives.items[i]? = some a → set.Realizes a r →
      r[k]? = some x → axis.IsFilled s x U → c.Holds U) : l.Valid set i c where
  occurs u hu := List.mem_flatMap.2 ⟨axis, List.mem_of_getElem? hk, hoccurs u hu⟩
  holds a r U ha hr hU := by
    have hadmits := UncertaintySet.forall₂_admits_iff.2 ⟨hr.length, hr.bounds⟩
    obtain ⟨x, hx, hfilled⟩ := h.isFilled hadmits hU hk hs
    exact hholds a r x U ha hr hx hfilled

end Lifting

namespace LiftedModel

variable {model : RobustModel ℝ} {d : Draft ℝ}

/-! ## Fill constraints -/

/-- Fill constraints are valid. -/
theorem tightens_of_addFill {l : Lifting ℝ} {set : UncertaintySet ℝ} (h : l.IsOver set) {k : ℕ}
    {axis : LiftedAxis ℝ} {s : BreakpointSeries ℝ} (hk : l.axes[k]? = some axis)
    (hs : axis.series? = some s) {lifted lifted' : RobustModel ℝ} {ref : ConstraintSetRef}
    {name : String} (hrun : addFill lifted ref name s axis = .ok lifted') :
    UncertaintySet.Tightens (l.Valid set) lifted.uncertainty lifted'.uncertainty := by
  refine .of_foldlM (fun m x hx m' hstep => ?_) hrun
  obtain ⟨⟨previous, piece⟩, i⟩ := x
  obtain ⟨hle, hlt, hpair⟩ := List.mem_zipIdx hx
  obtain ⟨j, rfl⟩ := Nat.exists_eq_add_of_le' hle
  simp only [Nat.add_sub_cancel, List.getElem_zip, List.getElem_tail, Prod.mk.injEq] at hpair
  rw [List.length_zip, List.length_tail] at hlt
  have hprevious : axis.vars[j]? = some previous := by
    rw [hpair.1, List.getElem?_eq_getElem]
  have hpiece : axis.vars[j + 1]? = some piece := by
    rw [hpair.2, List.getElem?_eq_getElem]
  refine RobustModel.tightens_of_addUncertaintyConstraintTo ?_ hstep
  refine h.valid_of_isFilled hk hs (fun u hu => ?_) fun a r x U _ _ _ hfilled => ?_
  · rw [AffineExpr.vars_relateValue, AffineExpr.vars_addTerm, AffineExpr.vars_term,
      List.singleton_append, List.mem_pair] at hu
    rcases hu with rfl | rfl
    · exact List.mem_of_getElem? hpiece
    · exact List.mem_of_getElem? hprevious
  · have hj : j + 1 < s.numPieces := hfilled.length ▸ (List.getElem?_eq_some_iff.1 hpiece).1
    have hfill := BreakpointSeries.portion_div_le hfilled.ordered hj x
    rw [AffineExpr.holds_relateValue_iff, AffineExpr.eval_addTerm, AffineExpr.eval_term,
      hfilled.portion _ _ hpiece, hfilled.portion _ _ hprevious, Nat.add_sub_cancel]
    change _ ≤ (0 : ℝ)
    linear_combination hfill

/-! ## Base constraints -/

/-- A base uncertainty is replaced by what its axis retracts to. -/
theorem retract_eq_ok (hd : d.IsOver model.uncertainty) {u : UncertaintyRef}
    {g : AffineExpr ℝ UncertaintyRef} (hrun : retract model d.retractions u = .ok g) :
    (∃ v, model.uncertainty.variableAt u = .ok v) ∧
      (∀ w ∈ g.vars, w ∈ d.axes.flatMap (·.vars)) ∧
        ∀ U, g.eval U = bySlot (entryAt (d.axes.map (·.retract U))) u := by
  rw [retract, bind_eq_ok_iff] at hrun
  obtain ⟨v, hv, hrun⟩ := hrun
  rw [liftM_eq_ok_iff, Handle.lookup_eq_ok_iff] at hrun
  obtain ⟨hlt, rfl⟩ := List.getElem?_eq_some_iff.1 hrun
  have hlt' : u.slot < d.axes.length := hd.retractions.length_eq ▸ hlt
  obtain ⟨hvars, heval⟩ := hd.retractions.get hlt' hlt
  rw [List.get_eq_getElem, List.get_eq_getElem] at hvars
  refine ⟨⟨v, hv⟩, fun w hw => ?_, fun U => ?_⟩
  · rw [hvars] at hw
    exact List.mem_flatMap.2 ⟨_, List.getElem_mem hlt', hw⟩
  · simp only [List.get_eq_getElem] at heval
    rw [heval U]
    simp [bySlot, entryAt, List.getD_eq_getElem?_getD, hlt']

/-- Substituting the retraction in a constraint. -/
theorem retracts_of_substitute (hd : d.IsOver model.uncertainty)
    {c : RawConstraint (ConicExpr ℝ UncertaintyRef)} {e : ConicExpr ℝ UncertaintyRef}
    (hrun : c.expression.substitute (retract model d.retractions) = .ok e) :
    Lifting.Retracts ⟨d.axes⟩ model.uncertainty c ⟨c.sense, e⟩ := by
  have himage := ConicExpr.substitute_eq_ok hrun
  refine ⟨fun u hu => ?_, fun w hw => ?_, fun U => ?_⟩
  · obtain ⟨g, hg⟩ := himage.resolves u hu
    obtain ⟨v, hv⟩ := (retract_eq_ok hd hg).1
    exact UncertaintySet.slot_lt_of_variableAt hv
  · obtain ⟨u, -, g, hg, hwg⟩ := himage.vars w hw
    exact (retract_eq_ok hd hg).2.1 w hwg
  · rw [RawConstraint.Holds, RawConstraint.Holds]
    rw [himage.eval U _ fun u g hg => (retract_eq_ok hd hg).2.2 U]

private theorem tightens_of_fill (hd : d.IsOver model.uncertainty) {m m' : RobustModel ℝ}
    {ref : ConstraintSetRef} {v : UncertaintyVariable ℝ} {axis : LiftedAxis ℝ}
    (hp : (v, axis) ∈ model.uncertainty.vars.items.zip d.axes) {s : BreakpointSeries ℝ}
    (hs : axis.series? = some s) (hrun : addFill m ref v.name s axis = .ok m') :
    UncertaintySet.Tightens (Lifting.Valid ⟨d.axes⟩ model.uncertainty) m.uncertainty
      m'.uncertainty := by
  obtain ⟨k, hk, hget⟩ := List.getElem_of_mem hp
  have haxis : d.axes[k]? = some axis := by
    rw [List.length_zip, lt_min_iff] at hk
    rw [List.getElem_zip, Prod.mk.injEq] at hget
    rw [List.getElem?_eq_getElem hk.2, hget.2]
  exact tightens_of_addFill hd.axes haxis hs hrun

private theorem addRetracted_eq_ok (hd : d.IsOver model.uncertainty) {m m' : RobustModel ℝ}
    {a : ConstraintSet ℝ} {ref : ConstraintSetRef}
    (ha : model.uncertainty.alternatives.items[ref.slot]? = some a) {c : UncertaintyConstraint ℝ}
    (hc : c ∈ a.constraints)
    (hrun : (do
      let e ← c.expression.substitute (retract model d.retractions)
      RobustModel.addUncertaintyConstraintTo m ref c.name ⟨c.sense, e⟩) = .ok m') :
    UncertaintySet.Tightens (Lifting.Valid ⟨d.axes⟩ model.uncertainty) m.uncertainty
        m'.uncertainty ∧
      Lifting.HasRetracted ⟨d.axes⟩ model.uncertainty ref.slot c m'.uncertainty := by
  obtain ⟨e, he, hadd⟩ := bind_eq_ok_iff.1 hrun
  have hretracts := retracts_of_substitute hd (c := c.toRawConstraint) he
  constructor
  · exact RobustModel.tightens_of_addUncertaintyConstraintTo (hretracts.valid hd.axes ha hc) hadd
  · intro b hb
    obtain ⟨c', hc', heq⟩ := RobustModel.exists_mem_of_addUncertaintyConstraintTo hadd hb
    exact ⟨c', hc', heq ▸ hretracts⟩

/-- Lifting an alternative adds valid constraints, among them all base constraints on what is
retracted. -/
theorem addAlternative_eq_ok (hd : d.IsOver model.uncertainty) {lifted lifted' : RobustModel ℝ}
    {a : ConstraintSet ℝ} {ref : ConstraintSetRef}
    (ha : model.uncertainty.alternatives.items[ref.slot]? = some a)
    (hrun : addAlternative model d.axes d.retractions lifted a ref = .ok lifted') :
    UncertaintySet.Tightens (Lifting.Valid ⟨d.axes⟩ model.uncertainty) lifted.uncertainty
        lifted'.uncertainty ∧
      ∀ c ∈ a.constraints,
        Lifting.HasRetracted ⟨d.axes⟩ model.uncertainty ref.slot c lifted'.uncertainty := by
  rw [addAlternative, bind_eq_ok_iff] at hrun
  obtain ⟨filled, hfill, hrun⟩ := hrun
  constructor
  · have hfilled : UncertaintySet.Tightens (Lifting.Valid ⟨d.axes⟩ model.uncertainty)
        lifted.uncertainty filled.uncertainty := by
      refine .of_foldlM (fun m p hp m' hstep => ?_) hfill
      obtain ⟨v, axis⟩ := p
      cases hs : axis.series? with
      | none =>
        simp only [hs, pure_eq_ok_iff] at hstep
        exact hstep ▸ .refl _
      | some s =>
        simp only [hs] at hstep
        exact tightens_of_fill hd hp hs hstep
    exact hfilled.trans
      (.of_foldlM (fun m c hc m' hstep => (addRetracted_eq_ok hd ha hc hstep).1) hrun)
  · refine foldlM_forall (P := fun c (m : RobustModel ℝ) =>
      Lifting.HasRetracted ⟨d.axes⟩ model.uncertainty ref.slot c m.uncertainty) ?_ hrun
    intro m c hc m' hstep
    obtain ⟨htightens, hretracted⟩ := addRetracted_eq_ok hd ha hc hstep
    exact ⟨hretracted, fun c' hc' => hc'.mono htightens⟩

/-- Lifting all alternatives adds valid constraints, among them all base constraints on what is
retracted. -/
theorem addAlternatives_eq_ok (hd : d.IsOver model.uncertainty) {lifted lifted' : RobustModel ℝ}
    {sets : List (ConstraintSet ℝ × ConstraintSetRef)}
    (hsets : ∀ p ∈ sets, model.uncertainty.alternatives.items[p.2.slot]? = some p.1)
    (hrun : sets.foldlM (fun lifted (p : ConstraintSet ℝ × ConstraintSetRef) =>
      addAlternative model d.axes d.retractions lifted p.1 p.2) lifted = .ok lifted') :
    UncertaintySet.Tightens (Lifting.Valid ⟨d.axes⟩ model.uncertainty) lifted.uncertainty
        lifted'.uncertainty ∧
      ∀ p ∈ sets, ∀ c ∈ p.1.constraints,
        Lifting.HasRetracted ⟨d.axes⟩ model.uncertainty p.2.slot c lifted'.uncertainty := by
  constructor
  · exact .of_foldlM (fun m p hp m' hstep => (addAlternative_eq_ok hd (hsets p hp) hstep).1) hrun
  · refine foldlM_forall (P := fun (p : ConstraintSet ℝ × ConstraintSetRef) (m : RobustModel ℝ) =>
      ∀ c ∈ p.1.constraints,
        Lifting.HasRetracted ⟨d.axes⟩ model.uncertainty p.2.slot c m.uncertainty) ?_ hrun
    intro m p hp m' hstep
    obtain ⟨htightens, hretracted⟩ := addAlternative_eq_ok hd (hsets p hp) hstep
    exact ⟨hretracted, fun q hq c hc => (hq c hc).mono htightens⟩

end LiftedModel

end AdjustableRobust
