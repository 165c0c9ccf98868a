import AdjustableRobust.Proofs.Duality.Dualization

/-!
# Duals of conic models

The dual of a conic model is the dual of minimizing its objective, or the opposite of its objective,
over its constraints and bounds. Whatever satisfies the dual therefore certifies a bound on what
satisfies the model: weak duality.
-/

namespace AdjustableRobust

/-- The constraints that bound a variable, with what their duals are called. -/
noncomputable def Bounds.ledger (b : Bounds ℝ) (h : ConicRef) :
    List (DualInformation × RawConstraint (ConicExpr ℝ ConicRef)) :=
  (b.lower?.map fun l => (.lowerBound h, ⟨.geq, .ofAffine ⟨-l, .var h⟩⟩)).toList ++
    (b.upper?.map fun u => (.upperBound h, ⟨.leq, .ofAffine ⟨-u, .var h⟩⟩)).toList

/-- What is in the ledger is the lower bound or the upper bound. -/
theorem Bounds.of_mem_ledger {b : Bounds ℝ} {h : ConicRef}
    {p : DualInformation × RawConstraint (ConicExpr ℝ ConicRef)} (hp : p ∈ b.ledger h) :
    ∃ c, p = (.lowerBound h, ⟨.geq, .ofAffine ⟨-c, .var h⟩⟩) ∨
      p = (.upperBound h, ⟨.leq, .ofAffine ⟨-c, .var h⟩⟩) := by
  simp only [ledger, List.mem_append, Option.mem_toList, Option.map_eq_some_iff] at hp
  rcases hp with ⟨l, -, rfl⟩ | ⟨u, -, rfl⟩
  · exact ⟨l, .inl rfl⟩
  · exact ⟨u, .inr rfl⟩

/-- The constraints of the ledger are about the variable alone. -/
theorem Bounds.exists_of_mem_ledger {b : Bounds ℝ} {h : ConicRef}
    {p : DualInformation × RawConstraint (ConicExpr ℝ ConicRef)} (hp : p ∈ b.ledger h) :
    ∃ c, p.2 = ⟨p.2.sense, .ofAffine ⟨-c, .var h⟩⟩ := by
  obtain ⟨c, rfl | rfl⟩ := of_mem_ledger hp <;> exact ⟨c, rfl⟩

/-- The ledger is about the constraints that bound the variable. -/
theorem Bounds.map_snd_ledger (b : Bounds ℝ) (h : ConicRef) :
    (b.ledger h).map Prod.snd = b.rows h := by
  unfold ledger rows
  cases b.lower? <;> cases b.upper? <;> rfl

namespace ConicModel

variable {m : ConicModel ℝ} {ω : ConicRef → ℝ}

/-! ## Regions of conic models -/

/-- All constraints and bounds of a model, as constraints. -/
noncomputable def region (m : ConicModel ℝ) : List (RawConstraint (ConicExpr ℝ ConicRef)) :=
  m.constraints.map (·.toRawConstraint) ++ m.vars.entries.flatMap fun e => e.2.bounds.rows e.1

/-- All constraints and bounds of a model, with what their duals are called. -/
noncomputable def ledger (m : ConicModel ℝ) :
    List (DualInformation × RawConstraint (ConicExpr ℝ ConicRef)) :=
  m.constraints.zipIdx.map (fun p => (.constraint p.2, p.1.toRawConstraint)) ++
    m.vars.entries.flatMap fun e => e.2.bounds.ledger e.1

/-- The ledger is about the region. -/
theorem map_snd_ledger (m : ConicModel ℝ) : m.ledger.map Prod.snd = m.region := by
  rw [ledger, region, List.map_append, List.map_map, List.map_flatMap]
  congr 1
  · conv_rhs => rw [← List.zipIdx_map_fst 0 m.constraints, List.map_map]
    rfl
  · simp only [Bounds.map_snd_ledger]

/-- A handle that is accepted is the one of its position. -/
theorem Declares.handleFor_slot {v : ConicRef} (hv : m.Declares v) :
    m.vars.handleFor v.slot = v := by
  obtain ⟨ho, he, -⟩ := declares_iff.1 hv
  rw [Store.handleFor, ← ho, ← he]

/-- A handle with a variable is accepted. -/
theorem declares_of_variableAt {v : ConicRef} {x : ConicVariable ℝ} (h : m.variableAt v = .ok x) :
    m.Declares v := by
  obtain ⟨ho, he, hx⟩ := (Store.get_eq_ok_iff _ _ _).1 (liftM_eq_ok_iff.1 h)
  exact declares_iff.2 ⟨ho, he, (List.getElem?_eq_some_iff.1 hx).1⟩

/-- Values by position. -/
def positional (m : ConicModel ℝ) (ω : ConicRef → ℝ) (i : ℕ) : ℝ := ω (m.vars.handleFor i)

/-- Variables of the model have their values at their positions. -/
theorem Declares.bySlot_positional {v : ConicRef} (hv : m.Declares v) (ω : ConicRef → ℝ) :
    bySlot (m.positional ω) v = ω v := by
  rw [bySlot, positional, hv.handleFor_slot]

/-- Feasible values satisfy the region, when the constraints refer to variables of the model. -/
theorem Feasible.holds_of_mem_region (hω : m.Feasible ω)
    (hown : ∀ c ∈ m.constraints, ∀ v ∈ c.expression.vars, m.Declares v)
    {c : RawConstraint (ConicExpr ℝ ConicRef)} (hc : c ∈ m.region) :
    c.Holds (bySlot (m.positional ω)) := by
  rcases List.mem_append.1 hc with hc | hc
  · obtain ⟨k, hk, rfl⟩ := List.mem_map.1 hc
    rw [RawConstraint.holds_congr fun v hv => (hown k hk v hv).bySlot_positional ω]
    exact Constraint.feasible_total_iff.1 (hω.constraints k hk)
  · obtain ⟨e, he, hc⟩ := List.mem_flatMap.1 hc
    obtain ⟨i, -, hi⟩ := Store.mem_entries_iff.1 he
    refine (e.2.bounds.admits_iff_rows e.1 _).1 ?_ c hc
    have hvalue : bySlot (m.positional ω) e.1 = ω e.1 := by rw [hi]; rfl
    rw [hvalue]
    exact hω.bounds e he

/-! ## Dualizing step by step -/

namespace DualDraft

variable {d d' : DualDraft ℝ}

/-- A row is added with its dual. Its variables are those of the model. -/
theorem addRow_eq_ok {row : AffineExpr ℝ ConicRef} {dv : ConicRef}
    (hrun : addRow m d row dv = .ok d') : d'.dual = d.dual ∧ (∀ v ∈ row.vars, m.Declares v) ∧
      d.lagrangian.Gains d'.lagrangian [row] [dv] := by
  simp only [addRow, bind_eq_ok_iff, pure_eq_ok_iff] at hrun
  obtain ⟨l, hfold, rfl⟩ := hrun
  refine ⟨rfl, fun v hv => ?_, Lagrangian.gains_of_foldlM (fun l t l' ht => ?_)
    (d.lagrangian.growsBy_addObjective row.constant dv) hfold⟩
  · obtain ⟨t, ht, rfl⟩ := List.mem_map.1 hv
    refine foldlM_forall (P := fun t _ => m.Declares t.var) (fun l t _ l' ht => ?_) hfold t ht
    obtain ⟨x, hx, -⟩ := bind_eq_ok_iff.1 ht
    exact ⟨declares_of_variableAt hx, fun _ h => h⟩
  · obtain ⟨x, -, ht⟩ := bind_eq_ok_iff.1 ht
    exact liftM_eq_ok_iff.1 ht

private theorem foldlM_rows_eq_ok (name : ℕ → String) (info : ℕ → DualInformation)
    {rows : List (AffineExpr ℝ ConicRef)} {duals : List ConicRef}
    (hrun : rows.zipIdx.foldlM (fun ((d : DualDraft ℝ), dus) (row, i) => do
      let (du, dual) := d.dual.addDualVariable (name i) .free (info i)
      let d ← addRow m { d with dual } row du
      return (d, dus ++ [du])) (d, []) = .ok (d', duals)) :
    (∀ row ∈ rows, ∀ v ∈ row.vars, m.Declares v) ∧
      d.dual.AddsVariables d'.dual duals (List.replicate rows.length .free) ∧
        d.lagrangian.Gains d'.lagrangian rows duals := by
  have hall := foldlM_prefix (I := fun ps (s : DualDraft ℝ × List ConicRef) =>
    (∀ p ∈ ps, ∀ v ∈ p.1.vars, m.Declares v) ∧
      d.dual.AddsVariables s.1.dual s.2 (List.replicate ps.length .free) ∧
        d.lagrangian.Gains s.1.lagrangian (ps.map Prod.fst) s.2) ?_
      ⟨by simp, .refl _, .nil _⟩ hrun
  · obtain ⟨hdeclares, hvars, hgains⟩ := hall
    rw [List.length_zipIdx] at hvars
    rw [List.zipIdx_map_fst] at hgains
    refine ⟨fun row hrow => ?_, hvars, hgains⟩
    rw [← List.zipIdx_map_fst 0 rows] at hrow
    obtain ⟨p, hp, rfl⟩ := List.mem_map.1 hrow
    exact hdeclares p hp
  · rintro ps ⟨row, i⟩ rest ⟨d₁, dus⟩ ⟨d₂, dus'⟩ - ⟨hdeclares, hvars, hgains⟩ hstep
    simp only [bind_eq_ok_iff, pure_eq_ok_iff, Prod.mk.injEq] at hstep
    obtain ⟨d₃, hrow, rfl, rfl⟩ := hstep
    obtain ⟨hdual, hrow, hgain⟩ := addRow_eq_ok hrow
    refine ⟨?_, ?_, ?_⟩
    · exact List.forall_mem_append.2 ⟨hdeclares, List.forall_mem_singleton.2 hrow⟩
    · rw [List.length_append, List.length_singleton, List.replicate_succ', hdual]
      exact hvars.trans (addsVariables_push _ _)
    · rw [List.map_append]
      exact hgains.append hgain

/-- Dualizing a constraint. -/
theorem addConstraint_eq_ok {c : ConicConstraint ℝ} {position : ℕ}
    (hrun : addConstraint m d c position = .ok d') : (∀ v ∈ c.expression.vars, m.Declares v) ∧
      Dualizes d.dual d'.dual d.lagrangian d'.lagrangian [c.toRawConstraint] := by
  obtain ⟨⟨sense, ⟨normed?, affine⟩⟩, cname, dual?⟩ := c
  obtain ⟨d₁, hrow, hrest⟩ := bind_eq_ok_iff.1 hrun
  obtain ⟨hdual, hdeclares, hgains⟩ := addRow_eq_ok hrow
  have hvar := d.dual.addsVariables_push ⟨s!"DE_{cname}", sense.dualBounds, .continuous,
    some (.constraint position), none⟩
  cases normed? with
  | none =>
    obtain rfl := pure_eq_ok_iff.1 hrest
    refine ⟨by simpa [ConicExpr.vars] using hdeclares, ?_⟩
    rw [hdual]
    exact .of_affine hvar hgains
  | some n =>
    obtain ⟨⟨d₂, duals⟩, hrows, hrest⟩ := bind_eq_ok_iff.1 hrest
    obtain rfl := pure_eq_ok_iff.1 hrest
    obtain ⟨hdeclares', hvars, hgains'⟩ := foldlM_rows_eq_ok (fun i => s!"DNV_{cname}_{i}")
      (.row position) hrows
    rw [hdual] at hvars
    refine ⟨fun v hv => ?_, .of_normed (hvar.trans hvars) (hgains.append hgains')⟩
    rcases List.mem_append.1 hv with hv | hv
    · obtain ⟨row, hrow, hv⟩ := List.mem_flatMap.1 hv
      exact hdeclares' row hrow v hv
    · exact hdeclares v hv

private theorem dualizes_of_foldlM {β ε : Type} {step : DualDraft ℝ → β → Except ε (DualDraft ℝ)}
    (rows : β → List (RawConstraint (ConicExpr ℝ ConicRef))) {xs : List β}
    (hstep : ∀ x ∈ xs, ∀ d d', step d x = .ok d' →
      Dualizes d.dual d'.dual d.lagrangian d'.lagrangian (rows x))
    (hrun : xs.foldlM step d = .ok d') :
    Dualizes d.dual d'.dual d.lagrangian d'.lagrangian (xs.flatMap rows) := by
  induction xs generalizing d with
  | nil =>
    rw [List.foldlM_nil, pure_eq_ok_iff] at hrun
    exact hrun ▸ .nil _ _
  | cons x xs ih =>
    rw [List.foldlM_cons, bind_eq_ok_iff] at hrun
    obtain ⟨d₁, hfirst, hrest⟩ := hrun
    rw [List.forall_mem_cons] at hstep
    exact (hstep.1 d d₁ hfirst).append (ih hstep.2 hrest)

/-- Dualize a bound: its dual is a variable, and its row has a single term. -/
noncomputable def addBound (h : ConicRef) (v : ConicVariable ℝ) (d : DualDraft ℝ)
    (p : DualInformation × RawConstraint (ConicExpr ℝ ConicRef)) :
    Except (ModelError ℝ) (DualDraft ℝ) := do
  let name := match p.1 with
    | .upperBound _ => s!"DUB_{v.name}"
    | _ => s!"DLB_{v.name}"
  let (dv, dual) := d.dual.addDualVariable name p.2.sense.dualBounds p.1
  let lagrangian := d.lagrangian.addObjective p.2.expression.affine.constant dv
  return ⟨dual, ← lagrangian.addResidual h 1 dv⟩

/-- The bounds of a variable are dualized one after the other. -/
theorem addBounds_eq_foldlM (d : DualDraft ℝ) (h : ConicRef) (v : ConicVariable ℝ) :
    addBounds d h v = (v.bounds.ledger h).foldlM (addBound h v) d := by
  unfold addBounds Bounds.ledger
  cases v.bounds.lower? <;> cases v.bounds.upper? <;>
    simp [addBound, ConicExpr.ofAffine, ConstraintSense.dualBounds]

/-- Dualizing the bounds of a variable dualizes the constraints that they are. -/
theorem addBounds_eq_ok {h : ConicRef} {v : ConicVariable ℝ} (hrun : addBounds d h v = .ok d') :
    Dualizes d.dual d'.dual d.lagrangian d'.lagrangian (v.bounds.rows h) := by
  rw [addBounds_eq_foldlM] at hrun
  have hall := dualizes_of_foldlM (fun p => [p.2]) (fun p hp d d' hstep => ?_) hrun
  · rwa [← List.map_eq_flatMap, Bounds.map_snd_ledger] at hall
  · obtain ⟨b, hb⟩ := Bounds.exists_of_mem_ledger hp
    rw [addBound, bind_eq_ok_iff] at hstep
    obtain ⟨l, hrow, hd'⟩ := hstep
    obtain rfl := pure_eq_ok_iff.1 hd'
    rw [hb, liftM_eq_ok_iff] at hrow
    rw [hb]
    exact .of_affine (addsVariables_push _ _)
      (Lagrangian.gains_bound (d.lagrangian.growsBy_addObjective _ _) hrow)

/-- Dualizing all constraints. -/
theorem foldlM_addConstraint_eq_ok
    (hrun : m.constraints.zipIdx.foldlM (fun d (c, i) => addConstraint m d c i) d = .ok d') :
    (∀ c ∈ m.constraints, ∀ v ∈ c.expression.vars, m.Declares v) ∧
      Dualizes d.dual d'.dual d.lagrangian d'.lagrangian
        (m.constraints.map (·.toRawConstraint)) := by
  have hfst := List.zipIdx_map_fst 0 m.constraints
  constructor
  · rw [← hfst, List.forall_mem_map]
    exact foldlM_forall (P := fun p _ => ∀ v ∈ p.1.expression.vars, m.Declares v)
      (fun _ _ _ _ hc => ⟨(addConstraint_eq_ok hc).1, fun _ h => h⟩) hrun
  · have hall := dualizes_of_foldlM (fun p => [p.1.toRawConstraint])
      (fun _ _ _ _ hc => (addConstraint_eq_ok hc).2) hrun
    rwa [← hfst, List.map_map, List.map_eq_flatMap]

/-- Dualizing all bounds. -/
theorem foldlM_addBounds_eq_ok
    (hrun : m.vars.entries.foldlM (fun d (h, v) => addBounds d h v) d = .ok d') :
    Dualizes d.dual d'.dual d.lagrangian d'.lagrangian
      (m.vars.entries.flatMap fun e => e.2.bounds.rows e.1) :=
  dualizes_of_foldlM (fun e => e.2.bounds.rows e.1) (fun _ _ _ _ hb => addBounds_eq_ok hb) hrun

end DualDraft

/-! ## The dual -/

private theorem foldlM_addObjective_eq_ok {e : LinearExpr ℝ ConicRef} {sign : ℝ}
    {l l' : Lagrangian ℝ} (hrun : e.terms.foldlM (fun (l : Lagrangian ℝ) t => do
      let _ ← m.variableAt t.var
      l.addResidualConstant t.var (sign * t.scale)) l = (.ok l' : Except (ModelError ℝ) _)) :
    (∀ v ∈ e.vars, m.Declares v) ∧ l.GrowsBy l' fun _ u => sign * e.eval (bySlot u) := by
  obtain ⟨hdeclares, hlen, hval⟩ := Lagrangian.growsBy_of_foldlM m.Declares
    (fun v _ u => sign * bySlot u v) (fun l₁ t l₂ _ ht => by
      obtain ⟨x, hx, ht⟩ := bind_eq_ok_iff.1 ht
      obtain ⟨-, hlen, hval⟩ := Lagrangian.addResidualConstant_eq_ok (liftM_eq_ok_iff.1 ht)
      refine ⟨declares_of_variableAt hx, hlen, fun ω u => ?_⟩
      simp only [hval, bySlot]
      ring) rfl hrun
  refine ⟨hdeclares, hlen, fun ω u => ?_⟩
  have hsum : (e.eval fun v => sign * bySlot u v) = sign * e.eval (bySlot u) := by
    rw [LinearExpr.eval, LinearExpr.eval, ← List.sum_map_mul_left]
    simp only [mul_left_comm]
  simp only [hval, hsum]

/-- Constraints that are added one after the other. -/
theorem addsConstraints_foldl {β : Type} (name : β → String)
    (c : β → RawConstraint (ConicExpr ℝ ConicRef)) (xs : List β) (m : ConicModel ℝ) :
    m.AddsConstraints (xs.foldl (fun m x => m.addConstraint (name x) (c x)) m)
      fun ω => ∀ x ∈ xs, (c x).Holds ω := by
  induction xs generalizing m with
  | nil => exact .refl m fun _ => by simp
  | cons x xs ih =>
    refine ((m.addsConstraints_addConstraint (name x) (c x)).trans (ih _)).of_iff fun ω => ?_
    rw [List.forall_mem_cons]

/-- The objective of a dual, which goes the other way. -/
noncomputable def dualObjective (sense : ObjectiveSense) (e : AffineExpr ℝ ConicRef) :
    ConicObjective ℝ :=
  match sense with
  | .minimize => .new .maximize e
  | .maximize => .new .minimize e.negate

/-- What a dual is made of: the duals of the constraints, those of the bounds, then the terms of the
objective, and a constraint for each residual. -/
theorem dualize_steps {owner : OwnerId} {d : ConicModel ℝ} (hrun : m.dualize owner = .ok d) :
    m.isContinuous = true ∧ m.exclusiveGroups = [] ∧ ∃ o d₁ d₂ l, m.objective = .ok o ∧
      m.constraints.zipIdx.foldlM (fun d (c, i) => DualDraft.addConstraint m d c i)
        (⟨.new s!"{m.name}Dual" owner, .zero m.numVariables⟩ : DualDraft ℝ) = .ok d₁ ∧
      m.vars.entries.foldlM (fun d (h, v) => DualDraft.addBounds d h v) d₁ = .ok d₂ ∧
      o.expression.linear.terms.foldlM (fun (l : Lagrangian ℝ) t => do
        let _ ← m.variableAt t.var
        l.addResidualConstant t.var (o.sense.sign * t.scale))
        (d₂.lagrangian.addConstant (o.sense.sign * o.expression.constant)) = .ok l ∧
      d = ((m.vars.items.zip l.residuals).foldl (fun dual x =>
        dual.addConstraint s!"DVar_{x.1.name}"
          (x.2.relateValue .eq 0).toConic) d₂.dual).addObjective
        (dualObjective o.sense l.objective) := by
  unfold dualize at hrun
  split at hrun
  · simp only [bind_eq_ok_iff, throw_ne_ok, false_and, exists_false] at hrun
  next hguard =>
  obtain ⟨hcontinuous, hgroups⟩ : m.isContinuous = true ∧ m.exclusiveGroups = [] := by
    simpa using hguard
  obtain ⟨o, ho, hrun⟩ := bind_eq_ok_iff.1 hrun
  obtain ⟨d₁, hconstraints, hrun⟩ := bind_eq_ok_iff.1 hrun
  obtain ⟨d₂, hbounds, hrun⟩ := bind_eq_ok_iff.1 hrun
  obtain ⟨l, hobjective, hrun⟩ := bind_eq_ok_iff.1 hrun
  refine ⟨hcontinuous, hgroups, o, d₁, d₂, l, ho, hconstraints, hbounds, hobjective, ?_⟩
  rw [← pure_eq_ok_iff.1 hrun]
  cases o.sense <;> rfl

/-- The dual of a model is the dual of minimizing its objective, with a sign, over its region. The
model refers to its own variables only. -/
theorem dualize_eq_ok {owner : OwnerId} {d : ConicModel ℝ} (hrun : m.dualize owner = .ok d) :
    ∃ o e, m.objective = .ok o ∧
      (∀ c ∈ m.constraints, ∀ v ∈ c.expression.vars, m.Declares v) ∧
      (∀ v ∈ o.expression.vars, m.Declares v) ∧
      AppendsDual (.new s!"{m.name}Dual" owner) { d with objectives := [] } e m.region
        (fun _ u => o.sense.sign * o.expression.eval (bySlot u)) ∧
      d.objectives = [match o.sense with
        | .minimize => .new .maximize e
        | .maximize => .new .minimize e.negate] := by
  obtain ⟨-, -, o, d₁, d₂, l, ho, hconstraints, hbounds, hobjective, rfl⟩ := dualize_steps hrun
  obtain ⟨howned, hfirst⟩ := DualDraft.foldlM_addConstraint_eq_ok hconstraints
  have hregion := hfirst.append (DualDraft.foldlM_addBounds_eq_ok hbounds)
  obtain ⟨hdeclares, hgrows⟩ := foldlM_addObjective_eq_ok hobjective
  -- The signed objective: its constant first, then its terms.
  have hsigned : d₂.lagrangian.GrowsBy l fun _ u => o.sense.sign * o.expression.eval (bySlot u) :=
    (d₂.lagrangian.growsBy_addConstant _).trans hgrows fun ω u => by rw [AffineExpr.eval, mul_add]
  have hsize : l.residuals.length = m.vars.items.length := by
    rw [hsigned.1, hregion.residuals, Lagrangian.zero, List.length_replicate]
    rfl
  have hresiduals := (addsConstraints_foldl (fun x => s!"DVar_{x.1.name}")
    (fun x => (x.2.relateValue .eq 0).toConic) (m.vars.items.zip l.residuals) d₂.dual).of_iff
      fun ω => Lagrangian.forall_mem_zip_residuals_iff hsize
        (P := fun e => (e.relateValue .eq 0).toConic.Holds ω)
  have happends := hregion.appendsDual hsigned (hresiduals.of_iff fun ω => by
    simp only [AffineExpr.holds_relateValue_iff, sub_zero, ConstraintSense.Holds])
  have hbare : ∀ (d : ConicModel ℝ) (x : ConicObjective ℝ), d.objectives = [] →
      { d.addObjective x with objectives := [] } = d ∧ (d.addObjective x).objectives = [x] := by
    rintro ⟨_, _, _, _, _⟩ x rfl
    exact ⟨rfl, rfl⟩
  obtain ⟨hdual, hobjectives⟩ := hbare _ (dualObjective o.sense l.objective)
    happends.extension.objectives
  exact ⟨o, l.objective, ho, howned, hdeclares, hdual ▸ happends, hobjectives⟩

private theorem dual_le_of_feasible {d : ConicModel ℝ} {owner : OwnerId} {o : ConicObjective ℝ}
    {e : AffineExpr ℝ ConicRef} {η : ConicRef → ℝ}
    (hown : ∀ c ∈ m.constraints, ∀ v ∈ c.expression.vars, m.Declares v)
    (ho : ∀ v ∈ o.expression.vars, m.Declares v)
    (happends : AppendsDual (.new s!"{m.name}Dual" owner) { d with objectives := [] } e m.region
      fun _ u => o.sense.sign * o.expression.eval (bySlot u))
    (hω : m.Feasible ω) (hη : d.Feasible η) : e.eval η ≤ o.sense.sign * o.expression.eval ω := by
  have hbare : Feasible { d with objectives := [] } η := ⟨hη.bounds, hη.constraints⟩
  obtain ⟨k, hvalid, -, hvalue⟩ :=
    happends.addedFeasible_iff.1 (happends.extension.feasible_iff.1 hbare).2
  have hle := (certifies_iff.2 ⟨k, hvalid, hvalue⟩).le fun c hc => hω.holds_of_mem_region hown hc
  rwa [AffineExpr.eval_congr fun v hv => (ho v hv).bySlot_positional ω] at hle

/-- What assigns the values of a valid certificate to the variables of the dual satisfies it. -/
theorem feasible_of_values {d : ConicModel ℝ} {name : String} {owner : OwnerId}
    {e : AffineExpr ℝ ConicRef} {f : (ℕ → ℝ) → ℝ} {k : Certificate} {η : ConicRef → ℝ}
    (happends : AppendsDual (.new name owner) { d with objectives := [] } e m.region fun _ => f)
    (hk : k.Valid m.region f) (hη : d.values η = k.values) : d.Feasible η ∧ e.eval η = k.value := by
  have hvalues : (new name owner).addedValues { d with objectives := [] } η = k.values := hη
  have hvalue : k.value = e.eval η := by
    rw [(happends.of_values (admitsDuals_iff.1 hk.admits).1 hvalues).2, ← hk.constant 0]
  have hempty : (new name owner : ConicModel ℝ).Feasible η :=
    ⟨by simp [new, Store.new, Store.entries], by simp [new]⟩
  obtain ⟨hbounds, hconstraints⟩ := happends.extension.feasible_iff.2
    ⟨hempty, happends.addedFeasible_iff.2 ⟨k, hk, hvalues, hvalue⟩⟩
  exact ⟨⟨hbounds, hconstraints⟩, hvalue.symm⟩

/-- Every certified bound is the objective of something that satisfies the dual. -/
theorem exists_feasible_of_certificate {d : ConicModel ℝ} {name : String} {owner : OwnerId}
    {e : AffineExpr ℝ ConicRef} {f : (ℕ → ℝ) → ℝ} {k : Certificate}
    (happends : AppendsDual (.new name owner) { d with objectives := [] } e m.region fun _ => f)
    (hk : k.Valid m.region f) : ∃ η, d.Feasible η ∧ e.eval η = k.value := by
  obtain ⟨η, -, -, hvalues⟩ := (happends.writes fun _ _ _ => rfl).complete (fun _ => 0)
    (k.values, k.value) ⟨k, hk, rfl, rfl⟩
  exact ⟨η, feasible_of_values happends hk (congrArg Prod.fst hvalues)⟩

end ConicModel

namespace DualPair

/-- Computing the dual succeeds when the model can be dualized. -/
theorem computeDual_eq_ok_iff {owner : OwnerId} {p p' : DualPair ℝ} {u : Unit} :
    computeDual owner p = .ok u p' ↔
      ∃ d, p.primal.dualize owner = .ok d ∧ ⟨p.primal, some d⟩ = p' := by
  simp only [computeDual, Step.bind_eq_ok_iff, Step.modify_eq_ok_iff, Step.get_eq_ok_iff,
    Step.ofExcept_eq_ok_iff]
  constructor
  · rintro ⟨_, _, rfl, _, _, ⟨rfl, rfl⟩, d, _, ⟨hd, rfl⟩, rfl⟩
    exact ⟨d, hd, rfl⟩
  · rintro ⟨d, hd, rfl⟩
    exact ⟨⟨⟩, _, rfl, _, _, ⟨rfl, rfl⟩, d, _, ⟨hd, rfl⟩, rfl⟩

/-- Weak duality: when a dual is computed, what satisfies it is never worth more than what satisfies
the model if the model minimizes, and never less if it maximizes. -/
theorem weak_duality {owner : OwnerId} {p p' : DualPair ℝ} {u : Unit}
    (hrun : computeDual owner p = .ok u p') :
    p'.primal = p.primal ∧ ∃ d o o', p'.dual = .ok d ∧ p.primal.objective = .ok o ∧
      d.objective = .ok o' ∧ o'.sense = o.sense.opposite ∧
        ∀ ω η, p.primal.Feasible ω → d.Feasible η →
          ∃ x y, o.expression.value (.total ω) = .ok x ∧ o'.expression.value (.total η) = .ok y ∧
            (o.sense = .minimize → y ≤ x) ∧ (o.sense = .maximize → x ≤ y) := by
  obtain ⟨d, hd, rfl⟩ := computeDual_eq_ok_iff.1 hrun
  obtain ⟨o, e, ho, hown, hdeclares, happends, hobjectives⟩ := ConicModel.dualize_eq_ok hd
  have hobjective : ∀ o', d.objectives = [o'] → d.objective = .ok o' := fun o' h => by
    rw [ConicModel.objective, h]
  have hle := fun ω η => ConicModel.dual_le_of_feasible (ω := ω) (η := η) hown hdeclares happends
  refine ⟨rfl, d, o, _, rfl, ho, hobjective _ hobjectives, ?_⟩
  cases hsense : o.sense with
  | minimize =>
    refine ⟨rfl, fun ω η hω hη =>
      ⟨_, _, AffineExpr.value_total _ ω, AffineExpr.value_total _ η, fun _ => ?_, nofun⟩⟩
    simpa [hsense, ObjectiveSense.sign, Objective.new] using hle ω η hω hη
  | maximize =>
    refine ⟨rfl, fun ω η hω hη =>
      ⟨_, _, AffineExpr.value_total _ ω, AffineExpr.value_total _ η, nofun, fun _ => ?_⟩⟩
    have h := hle ω η hω hη
    simp only [hsense, ObjectiveSense.sign, neg_one_mul] at h
    simpa [Objective.new] using le_neg_of_le_neg h

/-- Minimizing `x + 1` for a variable that is not negative, and whose length is at most one. -/
noncomputable def segment : ConicModel ℝ :=
  ⟨"segment", ⟨⟨0⟩, 0, [⟨"x", .atLeast 0, .continuous, none, none⟩]⟩,
    [.named "length" ((ConicExpr.normOf .two [⟨⟨0⟩, 0, 0⟩]).relateValue .leq 1)], [],
    [.new .minimize ⟨1, .var ⟨⟨0⟩, 0, 0⟩⟩]⟩

private theorem valid_segment : (Certificate.mk [⟨0, [0]⟩, ⟨-1, []⟩] 1).Valid segment.region
    fun u => ObjectiveSense.minimize.sign *
      (⟨1, .var ⟨⟨0⟩, 0, 0⟩⟩ : AffineExpr ℝ ConicRef).eval (bySlot u) := by
  have hregion : segment.region = [(ConicExpr.normOf .two [⟨⟨0⟩, 0, 0⟩]).relateValue .leq 1,
      ⟨.geq, .ofAffine ⟨-0, .var ⟨⟨0⟩, 0, 0⟩⟩⟩] := rfl
  rw [hregion]
  refine ⟨.cons ⟨?_, rfl, fun n hn => ?_⟩ (.cons ⟨?_, rfl, nofun⟩ .nil), fun u => ?_⟩
  · exact ConstraintSense.admits_dualBounds_leq.2 le_rfl
  · obtain rfl := Option.some.inj hn
    simp [NormedVector.ofVariables, NormKind.dual, NormKind.apply_two]
  · exact ConstraintSense.admits_dualBounds_geq.2 (by norm_num)
  · simp [ObjectiveSense.sign, RawConstraint.weighted, RawConstraint.rows, ConicExpr.relateValue,
      ConicExpr.addConstant, ConicExpr.normOf, ConicExpr.ofAffine, AffineExpr.eval, bySlot,
      NormedVector.ofVariables]

/-- The dual of minimizing one plus a variable between zero and one stays at most one, its value at
zero. -/
theorem weak_duality_segment : ∃ p' d o', computeDual ⟨1⟩ (.ofModel segment) = .ok () p' ∧
    p'.dual = .ok d ∧ d.objective = .ok o' ∧ segment.Feasible (fun _ => 0) ∧
      ∃ η y, d.Feasible η ∧ o'.expression.value (.total η) = .ok y ∧ y ≤ 1 := by
  obtain ⟨d, hd⟩ : ∃ d, segment.dualize ⟨1⟩ = .ok d := ⟨_, rfl⟩
  have hrun : computeDual ⟨1⟩ (.ofModel segment) = .ok () ⟨segment, some d⟩ :=
    computeDual_eq_ok_iff.2 ⟨d, hd, rfl⟩
  have hsegment : segment.Feasible fun _ => 0 := by
    refine ⟨?_, ?_⟩
    · simp [segment, Store.entries, Bounds.admits_iff, Bounds.atLeast]
    · simp [segment, Constraint.feasible_total_iff, Constraint.named, RawConstraint.Holds,
        ConstraintSense.Holds, ConicExpr.eval, ConicExpr.relateValue, ConicExpr.addConstant,
        ConicExpr.normOf, NormKind.apply_two, AffineExpr.eval, AffineExpr.addConstant,
        AffineExpr.zero]
  obtain ⟨o, e, ho, -, -, happends, -⟩ := ConicModel.dualize_eq_ok hd
  obtain rfl : Objective.new .minimize ⟨1, .var ⟨⟨0⟩, 0, 0⟩⟩ = o := Except.ok.inj ho
  obtain ⟨η, hη, -⟩ := ConicModel.exists_feasible_of_certificate happends valid_segment
  obtain ⟨-, d', o, o', hd', ho, ho', -, hbounds⟩ := weak_duality hrun
  obtain rfl : d = d' := Except.ok.inj hd'
  obtain ⟨x, y, hx, hy, hle, -⟩ := hbounds _ η hsegment hη
  obtain rfl : Objective.new .minimize ⟨1, .var ⟨⟨0⟩, 0, 0⟩⟩ = o := Except.ok.inj ho
  have hone : x = 1 := by
    rw [AffineExpr.value_total] at hx
    rw [← Except.ok.inj hx]
    simp [Objective.new, AffineExpr.eval]
  exact ⟨_, d, o', hrun, rfl, ho', hsegment, η, y, hη, hy, hone ▸ hle rfl⟩

end DualPair

end AdjustableRobust
