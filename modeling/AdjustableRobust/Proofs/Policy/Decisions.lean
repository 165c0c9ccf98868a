import AdjustableRobust.Proofs.Policy.Lagrangian
import AdjustableRobust.Robust.Solution

/-!
# Decisions under policies

Values of the policy variables determine the decisions at every realization. An expression under
these decisions is a function of the realization; adding the expression to a Lagrangian adds
exactly this function, and it is what evaluating the expression at the solution yields.
-/

namespace AdjustableRobust

/-- A handle has a decision when owner and epoch agree and the decision is at its position. -/
theorem RobustModel.decisionAt_eq_ok_iff {model : RobustModel ℝ} {h : DecisionRef}
    {d : DecisionVariable ℝ} :
    model.decisionAt h = .ok d ↔
      h.owner = model.decisions.owner ∧ h.epoch = model.decisions.epoch ∧
        model.decisions.items[h.slot]? = some d :=
  liftM_eq_ok_iff.trans (Store.get_eq_ok_iff _ _ _)

namespace PolicyVariables

/-- Value of the affine policy at a position: the constant plus each coefficient times the value
of its dependency. -/
noncomputable def valueAt (p : PolicyVariables) (slot : ℕ) (dependencies : List UncertaintyRef)
    (ω : ConicRef → ℝ) (u : ℕ → ℝ) : ℝ :=
  (p.constants[slot]?.map ω).getD 0
    + (List.zipWith (fun d a => ω a * bySlot u d) dependencies (p.factors.getD slot [])).sum

/-- Values of all decisions of a model at a realization. -/
noncomputable def decisions (p : PolicyVariables) (model : RobustModel ℝ) (ω : ConicRef → ℝ)
    (r : List ℝ) : List ℝ :=
  model.decisions.items.zipIdx.map fun d => p.valueAt d.2 d.1.dependencies ω (entryAt r)

/-- Value of the decision that a handle points to. -/
noncomputable def decisionValue (p : PolicyVariables) (model : RobustModel ℝ) (ω : ConicRef → ℝ)
    (u : ℕ → ℝ) (h : DecisionRef) : ℝ :=
  (model.decisions.items[h.slot]?.map fun d => p.valueAt h.slot d.dependencies ω u).getD 0

/-- A coefficient is found by the position of the decision and of the dependency. -/
theorem factor_eq_ok_iff {p : PolicyVariables} {d : DecisionRef} {i : ℕ} {h : ConicRef} :
    p.factor d i = .ok h ↔ ∃ fs, p.factors[d.slot]? = some fs ∧ fs[i]? = some h := by
  simp only [factor, bind_eq_ok_iff, Handle.lookup_eq_ok_iff]
  refine exists_congr fun fs => and_congr_right fun _ => ?_
  cases fs[i]? <;> simp [throw_ne_ok, pure_eq_ok_iff]

/-- A constant is found by the position of the decision. -/
theorem constant_eq_ok_iff {p : PolicyVariables} {d : DecisionRef} {h : ConicRef} :
    p.constant d = .ok h ↔ p.constants[d.slot]? = some h :=
  Handle.lookup_eq_ok_iff

/-- All policy variables are variables of the model. -/
structure DeclaredIn (p : PolicyVariables) (m : ConicModel ℝ) : Prop where
  factors : ∀ fs ∈ p.factors, ∀ h ∈ fs, m.Declares h
  constants : ∀ h ∈ p.constants, m.Declares h

variable {p : PolicyVariables} {model : RobustModel ℝ} {m m' : ConicModel ℝ} {ω ω' : ConicRef → ℝ}

/-- Policy variables stay variables where variables stay. -/
theorem DeclaredIn.mono (hp : p.DeclaredIn m) (h : ∀ v, m.Declares v → m'.Declares v) :
    p.DeclaredIn m' :=
  ⟨fun fs hfs a ha => h a (hp.factors fs hfs a ha), fun a ha => h a (hp.constants a ha)⟩

/-- Policy variables stay variables of the model. -/
theorem DeclaredIn.extend (hp : p.DeclaredIn m) (h : m.Extends m') : p.DeclaredIn m' :=
  hp.mono fun _ => h.declares

/-- Policies depend on variables of the model only. -/
theorem DeclaredIn.decisionValue_congr (hp : p.DeclaredIn m) (ha : m.Agree ω ω') :
    p.decisionValue model ω' = p.decisionValue model ω := by
  have hconstant : ∀ slot : ℕ, p.constants[slot]?.map ω' = p.constants[slot]?.map ω := by
    intro slot
    cases hc : p.constants[slot]? with
    | none => rfl
    | some h =>
      rw [Option.map_some, Option.map_some, ha h (hp.constants h (List.mem_of_getElem? hc))]
  have hfactors : ∀ (ds : List UncertaintyRef) (fs : List ConicRef), (∀ h ∈ fs, m.Declares h) →
      ∀ u, List.zipWith (fun d a => ω' a * bySlot u d) ds fs =
        List.zipWith (fun d a => ω a * bySlot u d) ds fs := by
    intro ds fs hfs u
    induction ds generalizing fs with
    | nil => rfl
    | cons d ds ih =>
      cases fs with
      | nil => rfl
      | cons a fs =>
        rw [List.forall_mem_cons] at hfs
        rw [List.zipWith_cons_cons, List.zipWith_cons_cons, ha a hfs.1, ih fs hfs.2]
  have hdeclared : ∀ slot : ℕ, ∀ h ∈ p.factors.getD slot [], m.Declares h := by
    intro slot h hh
    rw [List.getD_eq_getElem?_getD] at hh
    cases hf : p.factors[slot]? with
    | none => simp [hf] at hh
    | some fs => exact hp.factors fs (List.mem_of_getElem? hf) h (by simpa [hf] using hh)
  funext u h
  simp only [decisionValue, valueAt, hconstant, hfactors _ _ (hdeclared h.slot)]

/-- Policies whose variables are zero decide zero. -/
@[simp] theorem decisionValue_zero (p : PolicyVariables) (model : RobustModel ℝ) (u : ℕ → ℝ)
    (h : DecisionRef) : p.decisionValue model (fun _ => 0) u h = 0 := by
  have hsum : ∀ (ds : List UncertaintyRef) (fs : List ConicRef),
      (List.zipWith (fun d _ => 0 * bySlot u d) ds fs).sum = 0 := by
    intro ds fs
    induction ds generalizing fs with
    | nil => simp
    | cons d ds ih => cases fs <;> simp_all
  have hconstant : ∀ b? : Option ConicRef, (b?.map fun _ => (0 : ℝ)).getD 0 = 0 := by
    intro b?
    cases b? <;> rfl
  rw [decisionValue]
  cases model.decisions.items[h.slot]? with
  | none => rfl
  | some d => rw [Option.map_some, Option.getD_some, valueAt, hsum, hconstant, add_zero]

/-- The list of all decisions has the value of each decision at its position. -/
theorem bySlot_decisions (p : PolicyVariables) (model : RobustModel ℝ) (ω : ConicRef → ℝ)
    (r : List ℝ) :
    bySlot (entryAt (p.decisions model ω r)) = p.decisionValue model ω (entryAt r) := by
  funext h
  simp [bySlot, entryAt, decisions, decisionValue, List.getD_eq_getElem?_getD,
    List.getElem?_zipIdx, Function.comp_def]

/-- There is one value for each decision. -/
@[simp] theorem length_decisions (p : PolicyVariables) (model : RobustModel ℝ) (ω : ConicRef → ℝ)
    (r : List ℝ) : (p.decisions model ω r).length = model.numDecisions := by
  simp [decisions, RobustModel.numDecisions, Store.size]

end PolicyVariables

/-! ## Expressions -/

namespace UncertainExpr

/-- Every variable that occurs is one of the model. -/
structure RefersTo (e : UncertainExpr ℝ) (model : RobustModel ℝ) : Prop where
  uncertainties : ∀ v ∈ e.uncertainties.vars, ∃ x, model.uncertainty.variableAt v = .ok x
  decisions : ∀ v ∈ e.decisions.vars, ∃ x, model.decisionAt v = .ok x
  products : ∀ v ∈ e.products.vars,
    (∃ x, model.uncertainty.variableAt v.uncertainty = .ok x) ∧
      ∃ x, model.decisionAt v.decision = .ok x

/-- Opposite expressions are about the same variables. -/
theorem refersTo_negate_iff {e : UncertainExpr ℝ} {model : RobustModel ℝ} :
    e.negate.RefersTo model ↔ e.RefersTo model := by
  have hvars : e.negate.uncertainties.vars = e.uncertainties.vars ∧
      e.negate.decisions.vars = e.decisions.vars ∧ e.negate.products.vars = e.products.vars := by
    simp only [negate, scale, LinearExpr.vars_scale, and_self]
  obtain ⟨hus, hds, hps⟩ := hvars
  constructor
  · exact fun h => ⟨hus ▸ h.uncertainties, hds ▸ h.decisions, hps ▸ h.products⟩
  · exact fun h => ⟨hus.symm ▸ h.uncertainties, hds.symm ▸ h.decisions, hps.symm ▸ h.products⟩

/-- The expression as a function of the realization when decisions follow the policies. -/
noncomputable def underPolicies (e : UncertainExpr ℝ) (model : RobustModel ℝ)
    (p : PolicyVariables) (ω : ConicRef → ℝ) (u : ℕ → ℝ) : ℝ :=
  e.eval (bySlot u) (p.decisionValue model ω u)

/-- The function depends on variables of the model only. -/
theorem underPolicies_congr (e : UncertainExpr ℝ) {model : RobustModel ℝ} {p : PolicyVariables}
    {m : ConicModel ℝ} {ω ω' : ConicRef → ℝ} (hp : p.DeclaredIn m) (ha : m.Agree ω ω') :
    e.underPolicies model p ω' = e.underPolicies model p ω := by
  unfold underPolicies
  rw [hp.decisionValue_congr ha]

/-- Whatever the values of the policy variables are, the expression is an affine function of the
realization. -/
def AffineUnder (e : UncertainExpr ℝ) (model : RobustModel ℝ) (p : PolicyVariables) : Prop :=
  ∀ ω, ∃ (a : ℝ) (d : ℕ → ℝ), ∀ u,
    e.underPolicies model p ω u = a + ∑ i ∈ Finset.range model.numUncertainties, d i * u i

/-- An affine function only looks at the values of the uncertainties of the model. -/
theorem AffineUnder.underPolicies_entryAt {e : UncertainExpr ℝ} {model : RobustModel ℝ}
    {p : PolicyVariables} (h : e.AffineUnder model p) (ω : ConicRef → ℝ) (u : ℕ → ℝ) :
    e.underPolicies model p ω (entryAt ((List.range model.numUncertainties).map u)) =
      e.underPolicies model p ω u := by
  obtain ⟨a, d, hd⟩ := h ω
  rw [hd, hd]
  refine congrArg (a + ·) (Finset.sum_congr rfl fun i hi => ?_)
  rw [UncertaintySet.entryAt_map_range u (Finset.mem_range.1 hi)]

/-- The opposite expression is the opposite function. -/
theorem underPolicies_negate (e : UncertainExpr ℝ) (model : RobustModel ℝ) (p : PolicyVariables)
    (ω : ConicRef → ℝ) (u : ℕ → ℝ) :
    e.negate.underPolicies model p ω u = -e.underPolicies model p ω u :=
  e.eval_negate _ _

end UncertainExpr

namespace Solution

variable {model : RobustModel ℝ} {r xs : List ℝ}

private theorem uncertaintyAssignment_eq_ok {h : UncertaintyRef} {x : UncertaintyVariable ℝ}
    (hx : model.uncertainty.variableAt h = .ok x) (hr : r.length = model.numUncertainties) :
    (Solution.mk model r xs).uncertaintyAssignment h = .ok (bySlot (entryAt r) h) := by
  have hslot := (UncertaintySet.variableAt_eq_ok_iff.1 hx).2.2
  have hlt : h.slot < r.length := hr ▸ (List.getElem?_eq_some_iff.1 hslot).1
  simp only [uncertaintyAssignment, bind_eq_ok_iff, liftM_eq_ok_iff]
  exact ⟨x, hx, by simp [Handle.lookup_of_lt _ _ hlt, bySlot, entryAt, hlt]⟩

private theorem decisionAssignment_eq_ok {h : DecisionRef} {x : DecisionVariable ℝ}
    (hx : model.decisionAt h = .ok x) (hxs : xs.length = model.numDecisions) :
    (Solution.mk model r xs).decisionAssignment h = .ok (bySlot (entryAt xs) h) := by
  have hslot := (RobustModel.decisionAt_eq_ok_iff.1 hx).2.2
  have hlt : h.slot < xs.length := hxs ▸ (List.getElem?_eq_some_iff.1 hslot).1
  simp only [decisionAssignment, bind_eq_ok_iff, liftM_eq_ok_iff]
  exact ⟨x, hx, by simp [Handle.lookup_of_lt _ _ hlt, bySlot, entryAt, hlt]⟩

/-- Evaluating an expression that refers to the model succeeds at solutions of the right size. -/
theorem evaluate_eq_ok {e : UncertainExpr ℝ} (he : e.RefersTo model)
    (hr : r.length = model.numUncertainties) (hxs : xs.length = model.numDecisions) :
    (Solution.mk model r xs).evaluate e =
      .ok (e.eval (bySlot (entryAt r)) (bySlot (entryAt xs))) := by
  refine UncertainExpr.value_eq_ok ?_ ?_ ?_ ?_ ?_
  · intro h x hx
    simp only [uncertaintyAssignment, bind_eq_ok_iff, liftM_eq_ok_iff] at hx
    obtain ⟨v, hv, hlook⟩ := hx
    exact Assignment.ofList_within r h x (liftM_eq_ok_iff.2 hlook)
  · intro h x hx
    simp only [decisionAssignment, bind_eq_ok_iff, liftM_eq_ok_iff] at hx
    obtain ⟨v, hv, hlook⟩ := hx
    exact Assignment.ofList_within xs h x (liftM_eq_ok_iff.2 hlook)
  · intro v hv
    obtain ⟨x, hx⟩ := he.uncertainties v hv
    exact uncertaintyAssignment_eq_ok hx hr
  · intro v hv
    obtain ⟨x, hx⟩ := he.decisions v hv
    exact decisionAssignment_eq_ok hx hxs
  · intro v hv
    obtain ⟨⟨x, hx⟩, y, hy⟩ := he.products v hv
    exact ⟨uncertaintyAssignment_eq_ok hx hr, decisionAssignment_eq_ok hy hxs⟩

/-- Evaluating an expression at a realization and the decisions of the policies there succeeds
with the value of the expression under the policies. -/
theorem evaluate_decisions {e : UncertainExpr ℝ} (he : e.RefersTo model) (p : PolicyVariables)
    (ω : ConicRef → ℝ) (hr : r.length = model.numUncertainties) :
    (Solution.mk model r (p.decisions model ω r)).evaluate e =
      .ok (e.underPolicies model p ω (entryAt r)) := by
  rw [evaluate_eq_ok he hr (p.length_decisions model ω r), UncertainExpr.underPolicies,
    p.bySlot_decisions model ω r]

end Solution

/-! ## Adding expressions to a Lagrangian -/

namespace Counterpart

variable {model : RobustModel ℝ} {p : PolicyVariables} {l l' : Lagrangian ℝ}

private theorem addUncertaintyTerm_eq_ok {t : Term ℝ UncertaintyRef}
    (hrun : addUncertaintyTerm model l t = .ok l') :
    (∃ x, model.uncertainty.variableAt t.var = .ok x) ∧
      l.GrowsBy l' fun _ u => t.scale * bySlot u t.var := by
  simp only [addUncertaintyTerm, bind_eq_ok_iff, PolicyError.fromModel, PolicyError.fromStore,
    mapError_eq_ok_iff] at hrun
  obtain ⟨x, hx, hres⟩ := hrun
  obtain ⟨-, hlen, hval⟩ := Lagrangian.addResidualConstant_eq_ok hres
  exact ⟨⟨x, hx⟩, hlen, hval⟩

private theorem foldlM_factor_eq_ok {d : DecisionRef} {c : ℝ} {ds : List UncertaintyRef} {k : ℕ}
    (hrun : (ds.zipIdx k).foldlM (fun (l : Lagrangian ℝ) (u, position) => do
      let a ← PolicyError.fromStore (p.factor d position)
      PolicyError.fromStore (l.addResidual u c a)) l = (.ok l' : Except (PolicyError ℝ) _)) :
    l.GrowsBy l' fun ω u => c *
      (List.zipWith (fun d a => ω a * bySlot u d) ds ((p.factors.getD d.slot []).drop k)).sum := by
  induction ds generalizing k l with
  | nil =>
    rw [List.zipIdx_nil, List.foldlM_nil, pure_eq_ok_iff] at hrun
    subst hrun
    simp [Lagrangian.GrowsBy]
  | cons v ds ih =>
    simp only [List.zipIdx_cons, List.foldlM_cons, bind_eq_ok_iff, PolicyError.fromStore,
      mapError_eq_ok_iff] at hrun
    obtain ⟨l₁, ⟨a, ha, hres⟩, hrest⟩ := hrun
    have hfactor : (p.factors.getD d.slot [])[k]? = some a := by
      obtain ⟨fs, hfs, ha⟩ := PolicyVariables.factor_eq_ok_iff.1 ha
      rw [List.getD_eq_getElem?_getD, hfs, Option.getD_some, ha]
    obtain ⟨hk, hget⟩ := List.getElem?_eq_some_iff.1 hfactor
    obtain ⟨-, hlen, hval⟩ := Lagrangian.addResidual_eq_ok hres
    obtain ⟨hlen', hval'⟩ := ih hrest
    refine ⟨hlen'.trans hlen, fun ω u => ?_⟩
    simp only [hval', hval, List.drop_eq_getElem_cons hk, hget, List.zipWith_cons_cons,
      List.sum_cons, bySlot]
    ring

private theorem addDecisionTerm_eq_ok {t : Term ℝ DecisionRef}
    (hrun : addDecisionTerm model p l t = .ok l') :
    (∃ x, model.decisionAt t.var = .ok x) ∧
      l.GrowsBy l' fun ω u => t.scale * p.decisionValue model ω u t.var := by
  simp only [addDecisionTerm, bind_eq_ok_iff, pure_eq_ok_iff] at hrun
  obtain ⟨d, hd, l₁, hfactors, b, hb, rfl⟩ := hrun
  rw [PolicyError.fromModel, mapError_eq_ok_iff] at hd
  rw [PolicyError.fromStore, mapError_eq_ok_iff, PolicyVariables.constant_eq_ok_iff] at hb
  obtain ⟨hlen, hval⟩ := foldlM_factor_eq_ok hfactors
  have hitem := (RobustModel.decisionAt_eq_ok_iff.1 hd).2.2
  refine ⟨⟨d, hd⟩, ?_, fun ω u => ?_⟩
  · rw [residuals_addObjectiveTerm, hlen]
  · simp only [valueAt_addObjectiveTerm, hval, PolicyVariables.decisionValue, hitem,
      PolicyVariables.valueAt, hb, Option.map_some, Option.getD_some, List.drop_zero]
    ring

private theorem nonAdjustable_eq_ok {d : DecisionRef} {b : ConicRef}
    (hrun : nonAdjustable model p d = .ok b) :
    (∃ x, model.decisionAt d = .ok x) ∧ ∀ ω u, p.decisionValue model ω u d = ω b := by
  simp only [nonAdjustable, bind_eq_ok_iff, PolicyError.fromModel, mapError_eq_ok_iff] at hrun
  obtain ⟨v, hv, hrest⟩ := hrun
  split at hrest
  · next hempty =>
    rw [PolicyError.fromStore, mapError_eq_ok_iff, PolicyVariables.constant_eq_ok_iff] at hrest
    have hitem := (RobustModel.decisionAt_eq_ok_iff.1 hv).2.2
    refine ⟨⟨v, hv⟩, fun ω u => ?_⟩
    simp [PolicyVariables.decisionValue, hitem, PolicyVariables.valueAt, hrest,
      List.isEmpty_iff.1 hempty]
  · exact absurd hrest throw_ne_ok

private theorem addProductTerm_eq_ok {t : Term ℝ Product}
    (hrun : addProductTerm model p l t = .ok l') :
    ((∃ x, model.uncertainty.variableAt t.var.uncertainty = .ok x) ∧
        ∃ x, model.decisionAt t.var.decision = .ok x) ∧
      l.GrowsBy l' fun ω u =>
        t.scale * (bySlot u t.var.uncertainty * p.decisionValue model ω u t.var.decision) := by
  simp only [addProductTerm, bind_eq_ok_iff, PolicyError.fromModel, PolicyError.fromStore,
    mapError_eq_ok_iff] at hrun
  obtain ⟨b, hb, x, hx, hres⟩ := hrun
  obtain ⟨hd, hpolicy⟩ := nonAdjustable_eq_ok hb
  obtain ⟨-, hlen, hval⟩ := Lagrangian.addResidual_eq_ok hres
  refine ⟨⟨⟨x, hx⟩, hd⟩, hlen, fun ω u => ?_⟩
  simp only [hval, hpolicy, bySlot]
  ring

/-- Adding an expression succeeds only with variables of the model, and adds the value of the
expression under the policies. -/
theorem addExpression_eq_ok {e : UncertainExpr ℝ} (hrun : addExpression model p l e = .ok l') :
    e.RefersTo model ∧ l.GrowsBy l' (e.underPolicies model p) := by
  simp only [addExpression, bind_eq_ok_iff, pure_eq_ok_iff] at hrun
  obtain ⟨l₁, h₁, l₂, h₂, l₃, h₃, rfl⟩ := hrun
  obtain ⟨hus, hgrows₁⟩ := Lagrangian.growsBy_of_foldlM
    (fun v => ∃ x, model.uncertainty.variableAt v = .ok x) (fun v _ u => bySlot u v)
    (fun _ _ _ _ ht => addUncertaintyTerm_eq_ok ht) rfl h₁
  obtain ⟨hds, hgrows₂⟩ := Lagrangian.growsBy_of_foldlM
    (fun v => ∃ x, model.decisionAt v = .ok x) (fun v ω u => p.decisionValue model ω u v)
    (fun _ _ _ _ ht => addDecisionTerm_eq_ok ht) rfl h₂
  obtain ⟨hps, hgrows₃⟩ := Lagrangian.growsBy_of_foldlM
    (fun v => (∃ x, model.uncertainty.variableAt v.uncertainty = .ok x) ∧
      ∃ x, model.decisionAt v.decision = .ok x)
    (fun v ω u => bySlot u v.uncertainty * p.decisionValue model ω u v.decision)
    (fun _ _ _ _ ht => addProductTerm_eq_ok ht) rfl h₃
  refine ⟨⟨hus, hds, hps⟩, hgrows₃.1.trans (hgrows₂.1.trans hgrows₁.1), fun ω u => ?_⟩
  simp only [Lagrangian.valueAt_addConstant, hgrows₃.2, hgrows₂.2, hgrows₁.2,
    UncertainExpr.underPolicies, UncertainExpr.eval]
  ring

end Counterpart

end AdjustableRobust
