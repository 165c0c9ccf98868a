import AdjustableRobust.Proofs.Duality.Existence
import AdjustableRobust.Proofs.Solver.StandardForm
import Mathlib.Order.Defs.Unbundled

/-!
# Models that the cone backend takes

The cone backend takes continuous models without exclusive groups that refer to their own variables
only and have norms nowhere but on the small side of an inequality. Models stay like this while
variables, constraints and objectives with these properties are appended. The dual of any model is
like this.
-/

namespace AdjustableRobust

/-! ## What the backend takes -/

/-- An expression refers to variables of the model only. -/
def AffineExpr.Over (e : AffineExpr ℝ ConicRef) (m : ConicModel ℝ) : Prop :=
  ∀ v ∈ e.vars, m.Declares v

/-- A constraint refers to variables of the model only, and a norm in it is bounded from above. -/
structure RawConstraint.Fits (c : RawConstraint (ConicExpr ℝ ConicRef)) (m : ConicModel ℝ) :
    Prop where
  vars : ∀ v ∈ c.expression.vars, m.Declares v
  convex : c.expression.normed? ≠ none → c.sense = .leq

namespace ConicModel

/-- The cone backend takes the model. -/
structure Assemblable (m : ConicModel ℝ) : Prop where
  continuous : ∀ v ∈ m.vars.items, v.type = .continuous
  groups : m.exclusiveGroups = []
  constraints : ∀ c ∈ m.constraints, c.toRawConstraint.Fits m
  objectives : ∀ o ∈ m.objectives, o.expression.Over m

end ConicModel

namespace StandardForm

variable {m : ConicModel ℝ}

private theorem rowOf_yields {e : AffineExpr ℝ ConicRef} (he : e.Over m) (factor : ℝ) :
    Yields (rowOf m e factor) fun _ => True := by
  refine (Yields.mapM (Q := fun _ => True) fun t ht => ?_).imp fun _ _ => trivial
  have ht' : t.var ∈ e.vars := LinearExpr.vars_simplify_subset _ (List.mem_map_of_mem ht)
  obtain ⟨x, hx⟩ := (he t.var ht').exists_variableAt
  exact .bind_ok (SolverError.liftM_eq_ok_iff.2 hx) (.pure trivial)

private theorem addNorm_yields {n : NormedVector ℝ ConicRef} (hn : ∀ row ∈ n.rows, row.Over m)
    (bound : Row ℝ) (k : ℝ) (rows : ConeRows ℝ) (numColumns : ℕ) :
    Yields (addNorm m n bound k rows numColumns) fun _ => True := by
  unfold addNorm
  cases n.norm with
  | two =>
    refine Yields.bind (Yields.mapM (Q := fun _ => True) fun row hrow => ?_) fun _ _ =>
      .pure trivial
    exact (rowOf_yields (hn row hrow) (-1)).bind fun _ _ => .pure trivial
  | infinity =>
    refine Yields.bind (.foldlM (I := fun _ => True) (fun _ _ row hrow => ?_) trivial)
      fun _ _ => .pure trivial
    exact (rowOf_yields (hn row hrow) 1).bind fun _ _ => .pure trivial
  | one =>
    refine Yields.bind (.foldlM (I := fun _ => True) (fun _ _ row hrow => ?_) trivial)
      fun _ _ => .pure trivial
    exact (rowOf_yields (hn row hrow) 1).bind fun _ _ => .pure trivial

private theorem addConstraint_yields {c : ConicConstraint ℝ} (hc : c.toRawConstraint.Fits m)
    (d : Draft ℝ) : Yields (addConstraint m d c) fun _ => True := by
  have haffine : c.expression.affine.Over m := fun v hv =>
    hc.vars v (List.mem_append_right _ hv)
  unfold addConstraint
  cases hn : c.expression.normed? with
  | none =>
    refine Yields.bind (P := fun _ => True) ?_ fun _ _ => .pure trivial
    unfold addAffine
    cases c.sense <;> exact (rowOf_yields haffine _).bind fun _ _ => .pure trivial
  | some n =>
    have hsense : c.sense = .leq := hc.convex (by simp [hn])
    have hrows : ∀ row ∈ n.rows, row.Over m := fun row hrow v hv =>
      hc.vars v (List.mem_append_left _ (by rw [hn]; exact List.mem_flatMap.2 ⟨row, hrow, hv⟩))
    rw [hsense]
    refine (rowOf_yields haffine 1).bind fun bound _ => ?_
    exact (addNorm_yields hrows _ _ _ _).bind fun _ _ => .pure trivial

/-- The backend takes what it can take. -/
theorem exists_ofModel (hm : m.Assemblable) : ∃ f, ofModel m = .ok f := by
  have hcontinuous : m.isContinuous = true :=
    List.all_eq_true.2 fun v hv => decide_eq_true (hm.continuous v hv)
  suffices h : Yields (ofModel m) fun _ => True from Exists.imp (fun _ hf => hf.1) h
  unfold ofModel
  rw [hcontinuous, hm.groups]
  refine Yields.bind (.foldlM (I := fun _ => True) (fun d _ c hc => ?_) trivial) fun _ _ => ?_
  · exact addConstraint_yields (hm.constraints c hc) d
  · refine Yields.bind (Yields.mapM (Q := fun _ => True) fun o ho => ?_) fun _ _ => .pure trivial
    exact (rowOf_yields (hm.objectives o ho) 1).bind fun _ _ => .pure trivial

end StandardForm

/-! ## Appending -/

namespace ConicModel

variable {m m' : ConicModel ℝ}

/-- The variables of the first model are variables of the second one, and if the backend takes the
first one, it takes the second. -/
structure Develops (m m' : ConicModel ℝ) : Prop where
  declares : ∀ v, m.Declares v → m'.Declares v
  assemblable : m.Assemblable → m'.Assemblable

instance : IsPreorder (ConicModel ℝ) Develops where
  refl _ := ⟨fun _ h => h, fun h => h⟩
  trans _ _ _ h h' := ⟨fun v hv => h'.declares v (h.declares v hv),
    fun hm => h'.assemblable (h.assemblable hm)⟩

end ConicModel

variable {m m' : ConicModel ℝ}

namespace AffineExpr.Over

variable {e f : AffineExpr ℝ ConicRef}

/-- Expressions stay about variables of the model. -/
theorem mono (he : e.Over m) (h : ∀ v, m.Declares v → m'.Declares v) : e.Over m' :=
  fun v hv => h v (he v hv)

/-- The sum of two expressions. -/
theorem add (he : e.Over m) (hf : f.Over m) : (e.add f).Over m := by
  rw [Over, vars_add]
  exact List.forall_mem_append.2 ⟨he, hf⟩

/-- A term. -/
theorem addTerm (he : e.Over m) {v : ConicRef} (hv : m.Declares v) (scale : ℝ) :
    (e.addTerm scale v).Over m := by
  rw [Over, vars_addTerm]
  exact List.forall_mem_append.2 ⟨he, List.forall_mem_singleton.2 hv⟩

/-- A constant. -/
theorem addConstant (he : e.Over m) (c : ℝ) : (e.addConstant c).Over m := by
  rwa [Over, vars_addConstant]

/-- A multiple. -/
theorem scale (he : e.Over m) (c : ℝ) : (e.scale c).Over m := by
  rwa [Over, vars_scale]

/-- The opposite. -/
theorem negate (he : e.Over m) : e.negate.Over m := he.scale (-1)

/-- The difference in a relation. -/
theorem relate (he : e.Over m) (hf : f.Over m) (s : ConstraintSense) :
    (e.relate s f).expression.Over m := he.add hf.negate

/-- The difference in a relation to a value. -/
theorem relateValue (he : e.Over m) (s : ConstraintSense) (c : ℝ) :
    (e.relateValue s c).expression.Over m := he.relate (by simp [Over]) s

end AffineExpr.Over

/-- Constraints go on fitting. -/
theorem RawConstraint.Fits.mono {c : RawConstraint (ConicExpr ℝ ConicRef)} (hc : c.Fits m)
    (h : ∀ v, m.Declares v → m'.Declares v) : c.Fits m' :=
  ⟨fun v hv => h v (hc.vars v hv), hc.convex⟩

/-- An affine constraint fits when its variables are those of the model. -/
theorem RawConstraint.fits_toConic {c : RawConstraint (AffineExpr ℝ ConicRef)}
    (hc : c.expression.Over m) : c.toConic.Fits m :=
  ⟨hc, fun h => absurd rfl h⟩

/-- The norm of variables of the model below another one fits. -/
theorem RawConstraint.fits_normOf (k : NormKind) {vs : List ConicRef} {v : ConicRef}
    (hvs : ∀ w ∈ vs, m.Declares w) (hv : m.Declares v) :
    ((ConicExpr.normOf k vs).relate .leq (.var v)).Fits m := by
  refine ⟨?_, fun _ => rfl⟩
  have hvars : ((ConicExpr.normOf k vs).relate .leq (.var v)).expression.vars = vs ++ [v] := by
    simp [ConicExpr.relate, ConicExpr.addAffine, ConicExpr.normOf, ConicExpr.vars]
  rw [hvars]
  exact List.forall_mem_append.2 ⟨hvs, List.forall_mem_singleton.2 hv⟩

namespace ConicModel

/-- A continuous variable is appended. -/
theorem develops_push {v : ConicVariable ℝ} (hv : v.type = .continuous) :
    m.Develops (m.push v).2 := by
  have hdeclares : ∀ w, m.Declares w → (m.push v).2.Declares w := fun w hw =>
    (m.encodes_push v).extension.declares hw
  refine ⟨hdeclares, fun hm => ⟨?_, hm.groups, fun c hc => (hm.constraints c hc).mono hdeclares,
    fun o ho => (hm.objectives o ho).mono hdeclares⟩⟩
  exact List.forall_mem_append.2 ⟨hm.continuous, List.forall_mem_singleton.2 hv⟩

/-- Numbered continuous variables are appended. -/
theorem develops_addVariables (m : ConicModel ℝ) (n : ℕ) (name : String) (b : Bounds ℝ) :
    m.Develops (m.addVariables n name b).2 ∧
      ∀ h ∈ (m.addVariables n name b).1, (m.addVariables n name b).2.Declares h := by
  unfold addVariables
  -- The last variable is split off.
  induction n with
  | zero => exact ⟨refl_of Develops m, by simp⟩
  | succ n ih =>
    obtain ⟨hdevelops, hdeclares⟩ := ih
    rw [List.range_succ, List.foldl_append, List.foldl_cons, List.foldl_nil]
    have hpush := fun m' : ConicModel ℝ =>
      develops_push (m := m') (v := ⟨s!"{name}_{n}", b, .continuous, none, none⟩) rfl
    refine ⟨trans_of Develops hdevelops (hpush _), List.forall_mem_append.2
      ⟨fun h hh => (hpush _).declares h (hdeclares h hh), List.forall_mem_singleton.2 ?_⟩⟩
    exact declares_push _ _

/-- A constraint that fits is appended. -/
theorem develops_addConstraint {c : RawConstraint (ConicExpr ℝ ConicRef)} (name : String)
    (hc : c.Fits m) : m.Develops (m.addConstraint name c) := by
  refine ⟨fun _ h => h, fun hm => ⟨hm.continuous, hm.groups, ?_, hm.objectives⟩⟩
  exact List.forall_mem_append.2 ⟨fun c hc => (hm.constraints c hc).mono fun _ h => h,
    List.forall_mem_singleton.2 (hc.mono fun _ h => h)⟩

/-- An objective about variables of the model is appended. -/
theorem develops_addObjective {o : ConicObjective ℝ} (ho : o.expression.Over m) :
    m.Develops (m.addObjective o) := by
  refine ⟨fun _ h => h, fun hm => ⟨hm.continuous, hm.groups,
    fun c hc => (hm.constraints c hc).mono fun _ h => h, ?_⟩⟩
  exact List.forall_mem_append.2 ⟨hm.objectives, List.forall_mem_singleton.2 ho⟩

/-- Stored values do not matter. -/
theorem develops_of_dropSolution_eq (h : m'.dropSolution = m.dropSolution) : m.Develops m' := by
  have hdeclares : ∀ {m : ConicModel ℝ} v, m.dropSolution.Declares v ↔ m.Declares v := fun v => by
    simp [declares_iff, dropSolution, Store.mapItems, Store.size]
  have hassemblable : ∀ {m : ConicModel ℝ}, m.dropSolution.Assemblable ↔ m.Assemblable := by
    refine fun {m} => ⟨fun hm => ⟨?_, hm.groups, ?_, ?_⟩, fun hm => ⟨?_, hm.groups, ?_, ?_⟩⟩
    · exact List.forall_mem_map.1 hm.continuous
    · exact fun c hc => (List.forall_mem_map.1 hm.constraints c hc).mono fun v => (hdeclares v).1
    · exact fun o ho => (List.forall_mem_map.1 hm.objectives o ho).mono fun v => (hdeclares v).1
    · exact List.forall_mem_map.2 hm.continuous
    · exact List.forall_mem_map.2 fun c hc => (hm.constraints c hc).mono fun v => (hdeclares v).2
    · exact List.forall_mem_map.2 fun o ho => (hm.objectives o ho).mono fun v => (hdeclares v).2
  exact ⟨fun v hv => (hdeclares v).1 (h ▸ (hdeclares v).2 hv),
    fun hm => hassemblable.1 (h ▸ hassemblable.2 hm)⟩

/-- The backend takes the empty model. -/
theorem assemblable_new (name : String) (owner : OwnerId) :
    (new name owner : ConicModel ℝ).Assemblable :=
  ⟨by simp [new, Store.new], rfl, by simp [new], by simp [new]⟩

end ConicModel

namespace Lagrangian

variable {l l' : Lagrangian ℝ} {κ : EntityKind}

/-- Objective and residuals refer to variables of the model only. -/
structure Over (l : Lagrangian ℝ) (m : ConicModel ℝ) : Prop where
  objective : l.objective.Over m
  residuals : ∀ e ∈ l.residuals, e.Over m

/-- Without terms there are no variables. -/
theorem over_zero (n : ℕ) : (zero n).Over m := by
  refine ⟨by simp [zero, AffineExpr.Over], fun e he => ?_⟩
  rw [List.eq_of_mem_replicate he]
  simp [AffineExpr.Over]

namespace Over

/-- The variables stay variables of the model. -/
theorem mono (hl : l.Over m) (h : ∀ v, m.Declares v → m'.Declares v) : l.Over m' :=
  ⟨hl.objective.mono h, fun e he => (hl.residuals e he).mono h⟩

/-- A term of the objective. -/
theorem addObjective (hl : l.Over m) {v : ConicRef} (hv : m.Declares v) (scale : ℝ) :
    (l.addObjective scale v).Over m :=
  ⟨hl.objective.addTerm hv scale, hl.residuals⟩

/-- A constant of the objective. -/
theorem addConstant (hl : l.Over m) (c : ℝ) : (l.addConstant c).Over m :=
  ⟨hl.objective.addConstant c, hl.residuals⟩

/-- A change of a residual. -/
theorem modifyResidual (hl : l.Over m) {h : Handle κ}
    {f : AffineExpr ℝ ConicRef → AffineExpr ℝ ConicRef} (hf : ∀ e, e.Over m → (f e).Over m)
    (hrun : l.modifyResidual h f = .ok l') : l'.Over m := by
  obtain ⟨_, -, hl'⟩ := bind_eq_ok_iff.1 hrun
  rw [← pure_eq_ok_iff.1 hl']
  refine ⟨hl.objective, fun e he => ?_⟩
  obtain ⟨i, hi, rfl⟩ := List.getElem_of_mem he
  rw [List.getElem_modify]
  split
  · exact hf _ (hl.residuals _ (List.getElem_mem _))
  · exact hl.residuals _ (List.getElem_mem _)

/-- A term of a residual. -/
theorem addResidual (hl : l.Over m) {h : Handle κ} {scale : ℝ} {v : ConicRef} (hv : m.Declares v)
    (hrun : l.addResidual h scale v = .ok l') : l'.Over m :=
  hl.modifyResidual (fun _ he => he.addTerm hv scale) hrun

/-- A constant of a residual. -/
theorem addResidualConstant (hl : l.Over m) {h : Handle κ} {c : ℝ}
    (hrun : l.addResidualConstant h c = .ok l') : l'.Over m :=
  hl.modifyResidual (fun _ he => he.addConstant c) hrun

end Over

end Lagrangian

/-! ## Duals -/

namespace ConicModel

namespace DualDraft

variable {d d' : DualDraft ℝ}

/-- The backend takes the model of the draft, and the Lagrangian is about its variables. -/
structure Sound (d : DualDraft ℝ) : Prop where
  dual : d.dual.Assemblable
  lagrangian : d.lagrangian.Over d.dual

private theorem Sound.declare (hd : d.Sound) (name : String) (b : Bounds ℝ)
    (info : DualInformation) :
    let (dv, dual) := d.dual.addDualVariable name b info
    Sound { d with dual } ∧ dual.Declares dv ∧ ∀ v, d.dual.Declares v → dual.Declares v := by
  have hpush := develops_push (m := d.dual) (v := ⟨name, b, .continuous, some info, none⟩) rfl
  exact ⟨⟨hpush.assemblable hd.dual, hd.lagrangian.mono hpush.declares⟩,
    d.dual.declares_push _, hpush.declares⟩

private theorem Sound.addRow (hd : d.Sound) {row : AffineExpr ℝ ConicRef} {dv : ConicRef}
    (hdv : d.dual.Declares dv) (hrun : DualDraft.addRow m d row dv = .ok d') :
    d'.Sound ∧ d'.dual = d.dual := by
  obtain ⟨l, hl, hd'⟩ := bind_eq_ok_iff.1 hrun
  obtain rfl := pure_eq_ok_iff.1 hd'
  refine ⟨⟨hd.dual, ?_⟩, rfl⟩
  refine foldlM_invariant (I := fun l => l.Over d.dual) (fun l t _ l' hl hstep => ?_)
    (hd.lagrangian.addObjective hdv _) hl
  obtain ⟨_, -, hstep⟩ := bind_eq_ok_iff.1 hstep
  exact hl.addResidual hdv (liftM_eq_ok_iff.1 hstep)

private theorem Sound.addConstraint (hd : d.Sound) {c : ConicConstraint ℝ} {position : ℕ}
    (hrun : DualDraft.addConstraint m d c position = .ok d') : d'.Sound := by
  obtain ⟨hd₁, hdv, -⟩ := hd.declare s!"DE_{c.name}" c.sense.dualBounds (.constraint position)
  obtain ⟨d₂, hrow, hrun⟩ := bind_eq_ok_iff.1 hrun
  obtain ⟨hd₂, hdual⟩ := hd₁.addRow hdv hrow
  cases hn : c.expression.normed? with
  | none =>
    rw [hn, pure_eq_ok_iff] at hrun
    exact hrun ▸ hd₂
  | some n =>
    simp only [hn] at hrun
    obtain ⟨⟨d₃, dus⟩, hrows, hrun⟩ := bind_eq_ok_iff.1 hrun
    -- The duals so far, that of the constraint included, are variables of the draft.
    obtain ⟨hd₃, hdv₃, hdus⟩ := foldlM_invariant
      (I := fun s : DualDraft ℝ × List ConicRef => s.1.Sound ∧
        s.1.dual.Declares (d.dual.addDualVariable s!"DE_{c.name}" c.sense.dualBounds
          (.constraint position)).1 ∧ ∀ du ∈ s.2, s.1.dual.Declares du)
      (fun s x _ s' ⟨hs, hsv, hsdus⟩ hstep => by
        obtain ⟨hs₁, hdu, hmono⟩ := hs.declare s!"DNV_{c.name}_{x.2}" .free (.row position x.2)
        obtain ⟨s₂, hrow, hstep⟩ := bind_eq_ok_iff.1 hstep
        obtain ⟨hs₂, hdual⟩ := hs₁.addRow hdu hrow
        rw [← pure_eq_ok_iff.1 hstep]
        refine ⟨hs₂, hdual ▸ hmono _ hsv, hdual ▸ List.forall_mem_append.2
          ⟨fun du hdu => hmono du (hsdus du hdu), List.forall_mem_singleton.2 hdu⟩⟩)
      ⟨hd₂, hdual ▸ hdv, by simp⟩ hrows
    have hcone := develops_addConstraint s!"DSOC_{c.name}"
      (RawConstraint.fits_normOf n.norm.dual hdus hdv₃)
    rw [← pure_eq_ok_iff.1 hrun]
    exact ⟨hcone.assemblable hd₃.dual, hd₃.lagrangian.mono hcone.declares⟩

private theorem Sound.addBounds (hd : d.Sound) {h : ConicRef} {v : ConicVariable ℝ}
    (hrun : DualDraft.addBounds d h v = .ok d') : d'.Sound := by
  rw [addBounds_eq_foldlM] at hrun
  refine foldlM_invariant (fun d p _ d' hd hstep => ?_) hd hrun
  rw [addBound, bind_eq_ok_iff] at hstep
  obtain ⟨l, hrow, hd'⟩ := hstep
  obtain ⟨hd₁, hdv, -⟩ := hd.declare _ p.2.sense.dualBounds p.1
  rw [← pure_eq_ok_iff.1 hd']
  exact ⟨hd₁.dual, (hd₁.lagrangian.addObjective hdv _).addResidual hdv (liftM_eq_ok_iff.1 hrow)⟩

end DualDraft

/-- The backend takes every dual. -/
theorem assemblable_of_dualize {owner : OwnerId} {d : ConicModel ℝ}
    (hrun : m.dualize owner = .ok d) : d.Assemblable := by
  obtain ⟨-, -, o, d₁, d₂, l, -, hconstraints, hbounds, hobjective, rfl⟩ := dualize_steps hrun
  have hd₀ : DualDraft.Sound ⟨.new s!"{m.name}Dual" owner, .zero m.numVariables⟩ :=
    ⟨assemblable_new _ owner, Lagrangian.over_zero _⟩
  have hd₁ : d₁.Sound := foldlM_invariant
    (fun _ _ _ _ hd hstep => DualDraft.Sound.addConstraint hd hstep) hd₀ hconstraints
  have hd₂ : d₂.Sound := foldlM_invariant
    (fun _ _ _ _ hd hstep => DualDraft.Sound.addBounds hd hstep) hd₁ hbounds
  have hl : l.Over d₂.dual := by
    refine foldlM_invariant (I := fun l => l.Over d₂.dual) (fun l t _ l' hl hstep => ?_)
      (hd₂.lagrangian.addConstant _) hobjective
    obtain ⟨_, -, hstep⟩ := bind_eq_ok_iff.1 hstep
    exact hl.addResidualConstant (liftM_eq_ok_iff.1 hstep)
  have hdual := List.foldlRecOn (motive := fun dual : ConicModel ℝ => d₂.dual.Develops dual)
    (m.vars.items.zip l.residuals) (fun dual x =>
      dual.addConstraint s!"DVar_{x.1.name}" (x.2.relateValue .eq 0).toConic) (refl_of _ _)
    fun dual hdual x hx => trans_of _ hdual (develops_addConstraint _ (RawConstraint.fits_toConic
      (((hl.residuals _ (List.of_mem_zip hx).2).relateValue .eq 0).mono hdual.declares)))
  have hend : ∀ x : ConicObjective ℝ, x.expression.Over d₂.dual →
      (ConicModel.addObjective _ x).Assemblable := fun x hx =>
    (develops_addObjective (hx.mono hdual.declares)).assemblable (hdual.assemblable hd₂.dual)
  refine hend _ ?_
  cases o.sense with
  | minimize => exact hl.objective
  | maximize => exact hl.objective.negate

/-- A dual can be dualized again. -/
theorem exists_dualize_of_dualize {owner : OwnerId} {d : ConicModel ℝ}
    (hrun : m.dualize owner = .ok d) (owner' : OwnerId) : ∃ d', d.dualize owner' = .ok d' := by
  have hd := assemblable_of_dualize hrun
  obtain ⟨o, e, -, -, -, -, hobjectives⟩ := dualize_eq_ok hrun
  have hmem : ∀ x, d.objectives = [x] → d.objective = .ok x ∧ x ∈ d.objectives := fun x hx => by
    rw [objective, hx]
    exact ⟨rfl, List.mem_singleton_self x⟩
  obtain ⟨hobjective, hmem⟩ := hmem _ hobjectives
  obtain ⟨d', hd', -⟩ := dualize_yields owner'
    (List.all_eq_true.2 fun v hv => decide_eq_true (hd.continuous v hv)) hd.groups hobjective
    (fun c hc => (hd.constraints c hc).vars) (hd.objectives _ hmem)
  exact ⟨d', hd'⟩

end ConicModel

end AdjustableRobust
