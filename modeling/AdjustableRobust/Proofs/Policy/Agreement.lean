import AdjustableRobust.Proofs.Duality.Renaming
import AdjustableRobust.Proofs.Policy.Success
import AdjustableRobust.Proofs.Uncertainty.Conversion
import AdjustableRobust.Proofs.Uncertainty.Shape

/-!
# Agreement of dual programs

An affine expression in the uncertainties is dualized in two ways: by its counterpart, over the
alternatives of the uncertainty set, and by the dual of the conic model of a set with a single
alternative, when the model minimizes the expression. Both append the dual of the same minimization.
The programs therefore have the same duals within the same bounds, the same values satisfy their
constraints, and the objectives are equal.
-/

namespace AdjustableRobust

/-! ## Dual programs -/

/-- A program in dual variables. -/
structure DualProgram where
  vars : List (ConicRef × ConicVariable ℝ)
  constraints : List (ConicConstraint ℝ)
  objective : AffineExpr ℝ ConicRef

namespace DualProgram

/-- Values of the dual variables, in order. -/
def values (P : DualProgram) (ω : ConicRef → ℝ) : List ℝ := P.vars.map fun e => ω e.1

/-- The values satisfy all constraints. -/
def Satisfied (P : DualProgram) (ω : ConicRef → ℝ) : Prop :=
  ∀ c ∈ P.constraints, c.feasible (.total ω) 0 = .ok true

/-- Two programs agree: their variables have the same bounds in the same order, and the same values
of these variables, which can be any, satisfy the constraints and have the same objective. -/
structure Agrees (P Q : DualProgram) : Prop where
  bounds : P.vars.map (·.2.bounds) = Q.vars.map (·.2.bounds)
  /-- The variables of both programs can be given any values. -/
  taken : ∀ ys : List ℝ, ys.length = P.vars.length → ∃ ω η, P.values ω = ys ∧ Q.values η = ys
  satisfied : ∀ ω η, P.values ω = Q.values η → (P.Satisfied ω ↔ Q.Satisfied η)
  objective : ∀ ω η, P.values ω = Q.values η → ∃ x,
    P.objective.value (.total ω) = .ok x ∧ Q.objective.value (.total η) = .ok x

/-- What a model has beyond another one, as a dual program. -/
noncomputable def appended (m m' : ConicModel ℝ) (o : AffineExpr ℝ ConicRef) : DualProgram :=
  ⟨m'.vars.entries.drop m.numVariables, m'.constraints.drop m.constraints.length, o⟩

variable {m m' n n' : ConicModel ℝ} {o o' : AffineExpr ℝ ConicRef}

private theorem map_bounds_entries (s : Store .conic (ConicVariable ℝ)) :
    s.entries.map (·.2.bounds) = s.items.map (·.bounds) := by
  rw [← List.zipIdx_map_fst 0 s.items, Store.entries]
  simp only [List.map_map]
  exact List.map_congr_left fun _ _ => rfl

/-- Values of appended variables. -/
theorem values_appended (m m' : ConicModel ℝ) (o : AffineExpr ℝ ConicRef) (ω : ConicRef → ℝ) :
    (appended m m' o).values ω = m.addedValues m' ω := by
  refine List.ext_getElem ?_ fun i hi hi' => ?_
  · simp [values, appended, Store.entries, ConicModel.numVariables, Store.size]
  · rw [ConicModel.getElem_addedValues]
    simp [values, appended, Store.entries]

/-- Bounds of appended variables. -/
theorem bounds_appended {bs : List (Bounds ℝ)}
    (h : m'.vars.items.map (·.bounds) = m.vars.items.map (·.bounds) ++ bs) :
    (appended m m' o).vars.map (·.2.bounds) = bs := by
  have hsize : m.numVariables = (m.vars.items.map (·.bounds)).length := by
    simp [ConicModel.numVariables, Store.size]
  rw [appended, List.map_drop, map_bounds_entries, h, hsize, List.drop_left]

/-- Appended variables can be given any values. -/
theorem exists_values_appended (h : m.Extends m') {ys : List ℝ}
    (hys : ys.length = (appended m m' o).vars.length) : ∃ ω, (appended m m' o).values ω = ys := by
  have hsize : m'.numVariables = m.numVariables + ys.length := by
    rw [hys, appended, List.length_drop, Store.entries, List.length_map, List.length_zipIdx]
    exact (Nat.add_sub_cancel' h.numVariables_le).symm
  obtain ⟨ω, -, hω⟩ := ConicModel.exists_addedValues_eq (fun _ => 0) hsize
  exact ⟨ω, (values_appended m m' o ω).trans hω⟩

/-- Where the dual of minimizing the same function, up to the names of variables, has been appended,
the appended programs agree. -/
theorem agrees_appended {κ κ' : EntityKind} {g : Handle κ → Handle κ'}
    {cs : List (RawConstraint (ConicExpr ℝ (Handle κ)))}
    {f f' : (ConicRef → ℝ) → (ℕ → ℝ) → ℝ} (h : AppendsDual m m' o cs f)
    (h' : AppendsDual n n' o' (cs.map (·.mapVars g)) f') (hg : ∀ v, (g v).slot = v.slot)
    (hf : ∀ ω η, f ω = f' η) : (appended m m' o).Agrees (appended n n' o') := by
  have hbounds : (appended m m' o).vars.map (·.2.bounds) =
      (appended n n' o').vars.map (·.2.bounds) := by
    rw [bounds_appended h.bounds, bounds_appended h'.bounds, flatMap_dualBounds_mapVars]
  refine ⟨hbounds, fun ys hys => ?_, fun ω η hvalues => ?_, fun ω η hvalues => ?_⟩
  · have hys' : ys.length = (appended n n' o').vars.length := by
      simpa [hys] using congrArg List.length hbounds
    obtain ⟨ω, hω⟩ := exists_values_appended h.extension hys
    obtain ⟨η, hη⟩ := exists_values_appended h'.extension hys'
    exact ⟨ω, η, hω, hη⟩
  all_goals
    rw [values_appended, values_appended] at hvalues
    obtain ⟨hconstraints, hobjective⟩ := h.agree h' hg (hf ω η) hvalues
  · simpa only [Satisfied, appended, Constraint.feasible_total_iff] using hconstraints
  · exact ⟨_, o.value_total ω, hobjective ▸ o'.value_total η⟩

end DualProgram

/-! ## The region of the conic model -/

namespace UncertaintySet

variable {s : UncertaintySet ℝ} {set : ConstraintSet ℝ} {owner : OwnerId}

/-- The conic model of a set has its region, in other variables. -/
theorem region_conicModel (o : ConicObjective ℝ) :
    ((s.conicModel set owner).setObjective o).region =
      (s.region set).map (·.mapVars (conicRef owner)) := by
  have hbounds : ∀ (b : Bounds ℝ) (v : UncertaintyRef),
      b.rows (conicRef owner v) = (b.rows v).map (·.mapVars (conicRef owner)) := fun b v => by
    obtain ⟨lower?, upper?⟩ := b
    cases lower? <;> cases upper? <;> rfl
  have hentries : (s.conicVars owner).entries =
      s.vars.entries.map fun e => (conicRef owner e.1, e.2.toConic) := by
    simp [Store.entries, conicVars, List.zipIdx_map, Store.handleFor, conicRef, Function.comp_def]
  rw [region, List.map_append, List.map_flatMap, List.map_map, ConicModel.region]
  refine congrArg₂ _ ?_ ?_
  · rw [ConicModel.setObjective, conicModel, List.map_map]
    rfl
  · change (s.conicVars owner).entries.flatMap (fun e => e.2.bounds.rows e.1) = _
    rw [hentries, List.flatMap_map]
    exact List.flatMap_congr fun e _ => hbounds _ _

/-- The conic model of a set can be dualized for any affine expression in its uncertainties. -/
theorem dualize_conicModel_yields {e : AffineExpr ℝ UncertaintyRef}
    (hset : ∀ c ∈ set.constraints, ∀ v ∈ c.expression.vars, ∃ x, s.variableAt v = .ok x)
    (he : ∀ v ∈ e.vars, ∃ x, s.variableAt v = .ok x) (owner owner' : OwnerId) :
    Yields (((s.conicModel set owner).setObjective
      (.new .minimize (e.mapVars (conicRef owner)))).dualize owner') fun _ => True := by
  have hdeclares : ∀ {v : UncertaintyRef} {x : UncertaintyVariable ℝ} (o : ConicObjective ℝ),
      s.variableAt v = .ok x →
        ((s.conicModel set owner).setObjective o).Declares (conicRef owner v) := fun o hx => by
    have hsize : (s.conicVars owner).size = s.numVariables := List.length_map ..
    exact ConicModel.declares_iff.2 ⟨rfl, rfl, hsize ▸ slot_lt_of_variableAt hx⟩
  refine ConicModel.dualize_yields owner' ?_ rfl rfl ?_ ?_
  · simp [ConicModel.isContinuous, ConicModel.setObjective, conicModel, conicVars,
      UncertaintyVariable.toConic]
  · intro c hc v hv
    obtain ⟨k, hk, rfl⟩ := List.mem_map.1 hc
    obtain ⟨w, hw, rfl⟩ := List.mem_map.1 (ConicExpr.vars_mapVars _ ▸ hv)
    exact hdeclares _ (hset k hk w hw).choose_spec
  · intro v hv
    obtain ⟨w, hw, rfl⟩ := List.mem_map.1 (AffineExpr.vars_mapVars _ ▸ hv)
    exact hdeclares _ (he w hw).choose_spec

end UncertaintySet

/-! ## What a counterpart creates -/

/-- What a counterpart over a single alternative adds to a model: its epigraph variable, the
variables and constraints of a dual program, and the constraint that the epigraph variable does not
exceed the objective of the program. -/
structure CreatesDual (m m' : ConicModel ℝ) (epigraph : AffineExpr ℝ ConicRef) (P : DualProgram) :
    Prop where
  first : epigraph = .var (m.vars.handleFor m.numVariables)
  /-- It has no bounds, and the dual variables follow. -/
  vars : ∃ v : ConicVariable ℝ, v.bounds = .free ∧
    m'.vars.entries = m.vars.entries ++ (m.vars.handleFor m.numVariables, v) :: P.vars
  /-- The dual constraints are followed by the one on the epigraph variable. -/
  constraints : ∃ label, m'.constraints = m.constraints ++ P.constraints ++
    [.named label (epigraph.relate .leq P.objective).toConic]

namespace Counterpart

variable {model : RobustModel ℝ} {set : ConstraintSet ℝ} {p : PolicyVariables}
variable {m m' : ConicModel ℝ} {name : String}

/-- A counterpart in union mode over a single alternative creates the dual of minimizing the
expression over the alternative. -/
theorem robust_createsDual {e : UncertainExpr ℝ} {epigraph : AffineExpr ℝ ConicRef}
    (hsingle : model.uncertainty.single = .ok set) (hmode : e.mode = .union)
    (hrun : robust model p e name m = .ok epigraph m') :
    ∃ m₁ m₂ o, CreatesDual m m' epigraph (.appended m₁ m₂ o) ∧
      AppendsDual m₁ m₂ o (model.uncertainty.region set) (e.underPolicies model p) := by
  have hitems := UncertaintySet.single_eq_ok_iff.1 hsingle
  have hsets : model.uncertainty.alternatives.handles =
      [model.uncertainty.alternatives.handleFor 0] := by
    simp [Store.handles, Store.size, hitems]
  obtain ⟨v, m₁, hdeclare, hrun⟩ := Step.bind_eq_ok_iff.1 hrun
  simp only [hsets, hmode, List.mapM_cons, List.mapM_nil, ite_true, reduceCtorEq, ite_false,
    Step.bind_eq_ok_iff, Step.pure_eq_ok_iff] at hrun
  obtain ⟨_, _, ⟨_, _, ⟨o, m₂, hdual, _, _, hrequire, rfl, rfl⟩, _, _, ⟨rfl, rfl⟩, rfl, rfl⟩, rfl,
    rfl⟩ := hrun
  obtain ⟨alternative, halt, -, happends⟩ := dualObjective_appends hdual
  obtain rfl : set = alternative := by
    have hget := (UncertaintySet.alternativeAt_eq_ok_iff.1 halt).2.2
    simpa [hitems, Store.handleFor] using hget
  obtain ⟨rfl, rfl⟩ := declare_eq_push hdeclare
  obtain rfl := Step.modify_eq_ok_iff.1 hrequire
  obtain ⟨cs, hcs⟩ := happends.extension.constraints
  refine ⟨_, m₂, o,
    ⟨rfl, ⟨⟨s!"EpiVar{name}", .free, .continuous, none, none⟩, rfl, ?_⟩, ?_⟩, happends⟩
  · have hentries := happends.extension.entries_eq
    rwa [ConicModel.entries_push, List.append_assoc] at hentries
  · rw [DualProgram.appended, ← hcs, List.drop_left]
    exact ⟨_, congrArg (· ++ _) hcs.symm⟩

/-- The two dualizations agree: what the counterpart of an affine expression creates for a set with
a single alternative is the dual of the conic model of the set that minimizes the expression. -/
theorem robust_agrees_computeDual {e : AffineExpr ℝ UncertaintyRef}
    (hsingle : model.uncertainty.single = .ok set)
    (hset : ∀ c ∈ set.constraints, ∀ v ∈ c.expression.vars,
      ∃ x, model.uncertainty.variableAt v = .ok x)
    (he : ∀ v ∈ e.vars, ∃ x, model.uncertainty.variableAt v = .ok x) (p : PolicyVariables)
    (name : String) (m : ConicModel ℝ) (owner owner' : OwnerId) :
    ∃ epigraph m' P conic pair d o,
      robust model p (.ofUncertainties e) name m = .ok epigraph m' ∧ CreatesDual m m' epigraph P ∧
      model.uncertainty.toConicModel owner = .ok conic ∧
      DualPair.computeDual owner' (.ofModel (conic.setObjective
        (.new .minimize (e.mapVars fun u => conic.vars.handleFor u.slot)))) = .ok () pair ∧
      pair.dual = .ok d ∧ d.objective = .ok o ∧ o.sense = .maximize ∧
      P.Agrees ⟨d.vars.entries, d.constraints, o.expression⟩ := by
  have halternatives : ∀ alternative ∈ model.uncertainty.alternatives.items,
      ∀ c ∈ alternative.constraints, ∀ v ∈ c.expression.vars, v.slot < model.numUncertainties := by
    rw [UncertaintySet.single_eq_ok_iff.1 hsingle, List.forall_mem_singleton]
    exact fun c hc v hv => UncertaintySet.slot_lt_of_variableAt (hset c hc v hv).choose_spec
  have hadd : ∀ l : Lagrangian ℝ, l.HasSize model.numUncertainties →
      Yields (addExpression model p l (.ofUncertainties e))
        (Lagrangian.HasSize model.numUncertainties) :=
    fun _ hl => addExpression_yields_of_uncertain he rfl rfl hl
  obtain ⟨epigraph, m', hrobust, -⟩ : ∃ epigraph m',
      robust model p (.ofUncertainties e) name m = .ok epigraph m' ∧ True :=
    robust_yields_of_addExpression halternatives hadd m
  obtain ⟨m₁, m₂, o, hcreates, happends⟩ := robust_createsDual hsingle rfl hrobust
  obtain ⟨d, hd, -⟩ := UncertaintySet.dualize_conicModel_yields hset he owner owner'
  obtain ⟨_, o', hobjective, -, -, happends', hobjectives⟩ := ConicModel.dualize_eq_ok hd
  obtain rfl := Except.ok.inj hobjective
  have hmaximize : d.objective = .ok (.new .maximize o') := by
    rw [ConicModel.objective, hobjectives]
    rfl
  refine ⟨epigraph, m', _, _, _, d, _, hrobust, hcreates,
    UncertaintySet.toConicModel_eq_ok hsingle hset owner,
    DualPair.computeDual_eq_ok_iff.2 ⟨d, hd, rfl⟩, rfl, hmaximize, rfl, ?_⟩
  rw [UncertaintySet.region_conicModel] at happends'
  refine DualProgram.agrees_appended happends happends' (fun _ => rfl) fun ω η => funext fun u => ?_
  have heval : (UncertainExpr.ofUncertainties e).underPolicies model p ω u = e.eval (bySlot u) := by
    simp [UncertainExpr.underPolicies, UncertainExpr.eval, UncertainExpr.ofUncertainties,
      UncertainExpr.zero, AffineExpr.eval]
  have hrenamed : (e.mapVars (UncertaintySet.conicRef owner)).eval (bySlot u) = e.eval (bySlot u) :=
    AffineExpr.eval_mapVars e _
  simp [Objective.new, ObjectiveSense.sign, heval, hrenamed]

/-- The length of an uncertainty is at most one. -/
noncomputable def unitLength : ConstraintSet ℝ :=
  ⟨[.named "length" ((ConicExpr.normOf .two [⟨⟨0⟩, 0, 0⟩]).relateValue .leq 1)]⟩

/-- An uncertainty that is not negative, and whose length is at most one. -/
noncomputable def halfSegment : RobustModel ℝ where
  name := "halfSegment"
  decisions := .new ⟨0⟩
  uncertainty := ⟨"halfSegment", ⟨⟨0⟩, 0, [⟨"u", none, .atLeast 0⟩]⟩, ⟨⟨0⟩, 0, [unitLength]⟩⟩
  constraints := []
  objective? := none
  distribution? := none

/-- The counterpart over the half segment and the dual of its conic model are the same program, with
three dual variables. -/
theorem robust_agrees_computeDual_halfSegment : ∃ epigraph m' P pair d o,
    robust halfSegment ⟨[], []⟩ (.ofUncertainties ⟨1, .term 2 ⟨⟨0⟩, 0, 0⟩⟩) "E" (.new "C" ⟨1⟩) =
      .ok epigraph m' ∧ CreatesDual (.new "C" ⟨1⟩) m' epigraph P ∧
    DualPair.computeDual ⟨3⟩
      (.ofModel ((halfSegment.uncertainty.conicModel unitLength ⟨2⟩).setObjective
        (.new .minimize ⟨1, .term 2 ⟨⟨2⟩, 0, 0⟩⟩))) = .ok () pair ∧
    pair.dual = .ok d ∧ d.objective = .ok o ∧
    P.vars.map (·.2.bounds) = [.atLeast 0, .free, .atMost 0] ∧
    P.Agrees ⟨d.vars.entries, d.constraints, o.expression⟩ := by
  have hu : ∃ x, halfSegment.uncertainty.variableAt ⟨⟨0⟩, 0, 0⟩ = .ok x := ⟨_, rfl⟩
  have hset : ∀ c ∈ unitLength.constraints, ∀ v ∈ c.expression.vars,
      ∃ x, halfSegment.uncertainty.variableAt v = .ok x :=
    List.forall_mem_singleton.2 (List.forall_mem_singleton.2 hu)
  obtain ⟨epigraph, m', P, _, pair, d, o, hrobust, hcreates, hconic, hpair, hd, ho, -, hagrees⟩ :=
    robust_agrees_computeDual (e := ⟨1, .term 2 ⟨⟨0⟩, 0, 0⟩⟩) rfl hset
      (List.forall_mem_singleton.2 hu) ⟨[], []⟩ "E" (.new "C" ⟨1⟩) ⟨2⟩ ⟨3⟩
  obtain rfl := Except.ok.inj (hconic.symm.trans (UncertaintySet.toConicModel_eq_ok rfl hset ⟨2⟩))
  refine ⟨epigraph, m', P, pair, d, o, hrobust, hcreates, hpair, hd, ho, hagrees.bounds.trans ?_,
    hagrees⟩
  obtain ⟨d', hd', rfl⟩ := DualPair.computeDual_eq_ok_iff.1 hpair
  obtain rfl := Except.ok.inj (hd'.symm.trans rfl)
  obtain rfl := Except.ok.inj hd
  rfl

end Counterpart

end AdjustableRobust
