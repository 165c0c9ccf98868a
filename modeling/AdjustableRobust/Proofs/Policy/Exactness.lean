import AdjustableRobust.Proofs.Duality.Box
import AdjustableRobust.Proofs.Policy.Success
import Mathlib.Data.EReal.Inv

/-!
# Exact counterparts

The counterpart of an expression never exceeds its worst case. It reaches the worst case when the
penalties of every alternative do, and then the variable that the counterpart introduces takes
exactly the values up to the worst case over all alternatives. On boxes this is always so.
-/

namespace AdjustableRobust

/-- The worst cases of all alternatives in one: the smallest of them, or their mean. Expectations
do not have any. -/
noncomputable def UncertaintyMode.combine : UncertaintyMode → List EReal → EReal
  | .union, ws => ws.foldr Min.min ⊤
  | .average, ws => ws.sum / ws.length
  | .stochastic, _ => ⊤

/-- Penalties certify values up to the given one, which may be minus infinity, and no others. -/
structure CertifiedUpTo (cs : List (RawConstraint (ConicExpr ℝ UncertaintyRef)))
    (f : (ℕ → ℝ) → ℝ) (w : EReal) : Prop where
  /-- Nothing beyond the value is certified. -/
  le : ∀ c, Certifies cs f c → (c : EReal) ≤ w
  /-- Nothing up to the value is missed. -/
  exists_ge : ∀ v : ℝ, (v : EReal) ≤ w → ∃ c, v ≤ c ∧ Certifies cs f c
  ne_top : w ≠ ⊤

namespace CertifiedUpTo

variable {α : Type} {region : α → List (RawConstraint (ConicExpr ℝ UncertaintyRef))}
variable {f : (ℕ → ℝ) → ℝ} {w : α → EReal} {as : List α} {v : ℝ}

/-- Certified values that are not below a given one exist when it is below all worst cases. -/
theorem exists_forall_ge_iff (h : ∀ a ∈ as, CertifiedUpTo (region a) f (w a)) :
    (∃ cs, List.Forall₂ (fun a c => Certifies (region a) f c) as cs ∧ ∀ c ∈ cs, v ≤ c) ↔
      (v : EReal) ≤ (as.map w).foldr Min.min ⊤ := by
  induction as with
  | nil => simp
  | cons a as ih =>
    rw [List.forall_mem_cons] at h
    rw [List.map_cons, List.foldr_cons, le_min_iff, ← ih h.2]
    constructor
    · rintro ⟨_, _ | ⟨hc, hcs⟩, hle⟩
      rw [List.forall_mem_cons] at hle
      exact ⟨(EReal.coe_le_coe_iff.2 hle.1).trans (h.1.le _ hc), _, hcs, hle.2⟩
    · rintro ⟨hv, cs, hcs, hle⟩
      obtain ⟨c, hvc, hc⟩ := h.1.exists_ge v hv
      exact ⟨c :: cs, .cons hc hcs, List.forall_mem_cons.2 ⟨hvc, hle⟩⟩

/-- Sums of certified values that are not below a given one exist when it is below the sum of the
worst cases. -/
theorem exists_sum_ge_iff (h : ∀ a ∈ as, CertifiedUpTo (region a) f (w a)) :
    (∃ cs, List.Forall₂ (fun a c => Certifies (region a) f c) as cs ∧ v ≤ cs.sum) ↔
      (v : EReal) ≤ (as.map w).sum := by
  induction as generalizing v with
  | nil => simp
  | cons a as ih =>
    rw [List.forall_mem_cons] at h
    rw [List.map_cons, List.sum_cons]
    constructor
    · rintro ⟨_, _ | ⟨hc, hcs⟩, hle⟩
      rw [List.sum_cons] at hle
      refine (EReal.coe_le_coe_iff.2 hle).trans ?_
      rw [EReal.coe_add]
      exact add_le_add (h.1.le _ hc) ((ih h.2).1 ⟨_, hcs, le_rfl⟩)
    · intro hv
      -- The first worst case is a real number, so it can be subtracted.
      have hbot : w a ≠ ⊥ := by
        intro hbot
        rw [hbot, EReal.bot_add, le_bot_iff] at hv
        exact EReal.coe_ne_bot v hv
      have hreal : ((w a).toReal : EReal) = w a := EReal.coe_toReal h.1.ne_top hbot
      obtain ⟨c, hac, hc⟩ := h.1.exists_ge (w a).toReal hreal.le
      have hrest : ((v - (w a).toReal : ℝ) : EReal) ≤ (as.map w).sum := by
        rw [EReal.coe_sub, hreal]
        exact EReal.sub_le_of_le_add' hv
      obtain ⟨cs, hcs, hle⟩ := (ih h.2).2 hrest
      refine ⟨c :: cs, .cons hc hcs, ?_⟩
      rw [List.sum_cons]
      linarith

end CertifiedUpTo

/-- When penalties reach the worst case of every alternative, the values below certified ones are
those up to the combined worst cases. -/
theorem UncertainExpr.certifiedBelow_iff {e : UncertainExpr ℝ} {model : RobustModel ℝ}
    {p : PolicyVariables} {ω : ConicRef → ℝ} {v : ℝ} {w : ConstraintSet ℝ → EReal}
    (hmode : e.mode ≠ .stochastic)
    (h : ∀ alternative ∈ model.uncertainty.alternatives.items,
      CertifiedUpTo (model.uncertainty.region alternative) (e.underPolicies model p ω)
        (w alternative)) :
    e.CertifiedBelow model p ω v ↔
      (v : EReal) ≤ e.mode.combine (model.uncertainty.alternatives.items.map w) := by
  cases hunion : e.mode with
  | stochastic => exact absurd hunion hmode
  | union =>
    simp only [CertifiedBelow, hunion, UncertaintyMode.Below]
    exact CertifiedUpTo.exists_forall_ge_iff h
  | average =>
    simp only [CertifiedBelow, hunion, UncertaintyMode.Below, UncertaintyMode.combine,
      List.length_map]
    rcases hitems : model.uncertainty.alternatives.items with _ | ⟨a, as⟩
    · simp
    · have hpos : 0 < ((a :: as).length : ℝ) := by simp [Nat.cast_add_one_pos]
      have hcoe : ((a :: as).length : EReal) = (((a :: as).length : ℝ) : EReal) := by simp
      rw [hcoe, EReal.le_div_iff_mul_le (EReal.coe_pos.2 hpos) (EReal.coe_ne_top _),
        ← EReal.coe_mul, ← CertifiedUpTo.exists_sum_ge_iff (hitems ▸ h)]
      refine exists_congr fun cs => and_congr_right fun hcs => ?_
      have hmax : Nat.max cs.length 1 = (a :: as).length :=
        hcs.length_eq ▸ Nat.max_eq_left (by simp)
      rw [hmax, mul_one_div, le_div_iff₀ hpos]

namespace PolicyVariables

/-- What an expression is worth at the realizations of an alternative when the decisions follow
the policies. -/
def outcomes (p : PolicyVariables) (model : RobustModel ℝ) (ω : ConicRef → ℝ) (e : UncertainExpr ℝ)
    (alternative : ConstraintSet ℝ) : Set ℝ :=
  {y | ∃ r, model.uncertainty.Realizes alternative r ∧
    (Solution.mk model r (p.decisions model ω r)).evaluate e = .ok y}

/-- The infimum of what an expression is worth at the realizations of an alternative. -/
noncomputable def worstCase (p : PolicyVariables) (model : RobustModel ℝ) (ω : ConicRef → ℝ)
    (e : UncertainExpr ℝ) (alternative : ConstraintSet ℝ) : EReal :=
  ⨅ y ∈ p.outcomes model ω e alternative, (y : EReal)

end PolicyVariables

namespace Counterpart

variable {model : RobustModel ℝ} {p : PolicyVariables} {m m' : ConicModel ℝ}
variable {e : UncertainExpr ℝ} {name : String} {ω : ConicRef → ℝ} {alternative : ConstraintSet ℝ}

/-- Outcomes are the values of the expression under the policies. -/
theorem ResolvesIn.mem_outcomes_iff (h : ResolvesIn model p e alternative) {y : ℝ} :
    y ∈ p.outcomes model ω e alternative ↔
      ∃ r, model.uncertainty.Realizes alternative r ∧
        e.underPolicies model p ω (entryAt r) = y := by
  refine exists_congr fun r => and_congr_right fun hr => ?_
  rw [Solution.evaluate_decisions h.refers p ω hr.length, Except.ok.injEq]

/-- On a box that is not empty penalties certify values up to the worst case. -/
theorem ResolvesIn.certifiedUpTo_of_isBox (h : ResolvesIn model p e alternative)
    (hbox : alternative.isBox = true) (hne : ∃ r, model.uncertainty.Realizes alternative r) :
    CertifiedUpTo (model.uncertainty.region alternative) (e.underPolicies model p ω)
      (p.worstCase model ω e alternative) := by
  obtain ⟨r₀, hr₀⟩ := hne
  refine ⟨fun c hc => ?_, fun v hv => ?_, ?_⟩
  · refine le_iInf₂ fun y hy => EReal.coe_le_coe_iff.2 ?_
    obtain ⟨r, hr, rfl⟩ := h.mem_outcomes_iff.1 hy
    exact hc.le (UncertaintySet.realizes_iff.1 hr).2.2
  · obtain ⟨a, d, hd⟩ := h.affine ω
    refine Certifies.exists_of_cuts (UncertaintySet.isCut_of_mem_region hbox)
      (UncertaintySet.realizes_iff.1 hr₀).2.2 hd fun u hu => EReal.coe_le_coe_iff.1 ?_
    have houtcome : e.underPolicies model p ω u ∈ p.outcomes model ω e alternative :=
      h.mem_outcomes_iff.2 ⟨_, UncertaintySet.realizes_map_range h.slots hu,
        h.affine.underPolicies_entryAt ω u⟩
    exact hv.trans (iInf₂_le _ houtcome)
  · have houtcome : e.underPolicies model p ω (entryAt r₀) ∈ p.outcomes model ω e alternative :=
      h.mem_outcomes_iff.2 ⟨r₀, hr₀, rfl⟩
    exact ne_top_of_le_ne_top (EReal.coe_ne_top _) (iInf₂_le _ houtcome)

/-- Values of the added variables exist that satisfy everything added and give the expression the
value; the variables of the first model have the given values. -/
def Attains (m m' : ConicModel ℝ) (ω : ConicRef → ℝ) (f : AffineExpr ℝ ConicRef) (v : ℝ) : Prop :=
  ∃ ω', m.Agree ω ω' ∧ m.AddedFeasible m' ω' ∧ f.value (.total ω') = .ok v

/-- When penalties reach the worst case of every alternative, the variable that the counterpart
introduces takes exactly the values up to the combined worst cases. -/
theorem robust_attains_iff {epigraph : AffineExpr ℝ ConicRef} (hp : p.DeclaredIn m)
    (hrun : robust model p e name m = .ok epigraph m') (hmode : e.mode ≠ .stochastic)
    {w : ConstraintSet ℝ → EReal}
    (hw : ∀ alternative ∈ model.uncertainty.alternatives.items,
      CertifiedUpTo (model.uncertainty.region alternative) (e.underPolicies model p ω)
        (w alternative)) {v : ℝ} :
    Attains m m' ω epigraph v ↔
      (v : EReal) ≤ e.mode.combine (model.uncertainty.alternatives.items.map w) := by
  obtain ⟨-, henc⟩ := robust_encodes hp hrun
  rw [← UncertainExpr.certifiedBelow_iff hmode hw, ← henc.exists_iff
    (fun ω ω' v ha => by
      rw [UncertainExpr.CertifiedBelow, UncertainExpr.CertifiedBelow,
        e.underPolicies_congr hp ha]) ω v]
  refine exists_congr fun ω' => and_congr_right fun _ => and_congr_right fun _ => ?_
  rw [AffineExpr.value_total, Except.ok.injEq]

private theorem combine_eq_bot {ws : List EReal} (hbot : ⊥ ∈ ws) {mode : UncertaintyMode}
    (hmode : mode ≠ .stochastic) : mode.combine ws = ⊥ := by
  obtain ⟨before, after, rfl⟩ := List.append_of_mem hbot
  cases mode with
  | stochastic => exact absurd rfl hmode
  | union =>
    rw [UncertaintyMode.combine, List.foldr_append]
    clear hbot
    induction before with
    | nil => simp
    | cons w before ih => rw [List.foldr_cons, ih, min_eq_right bot_le]
  | average =>
    have hlength : ((before ++ ⊥ :: after).length : EReal) =
        (((before ++ ⊥ :: after).length : ℝ) : EReal) := by simp
    rw [UncertaintyMode.combine, List.sum_append, List.sum_cons, EReal.bot_add, EReal.add_bot,
      hlength]
    refine EReal.bot_div_of_pos_ne_top (EReal.coe_pos.2 ?_) (EReal.coe_ne_top _)
    simp only [List.length_append, List.length_cons]
    positivity

/-- The policy of a single decision with a single dependency. -/
def singlePolicy : PolicyVariables := ⟨[[⟨⟨0⟩, 0, 0⟩]], [⟨⟨0⟩, 0, 1⟩]⟩

/-- The conic model of the variables of the policy. -/
noncomputable def singleConic : ConicModel ℝ :=
  (((ConicModel.new "single" ⟨0⟩).addVariable "a" .free).2.addVariable "b" .free).2

/-- The sum of the first decision and the first uncertainty. -/
noncomputable def singleSum (mode : UncertaintyMode) : UncertainExpr ℝ :=
  ((UncertainExpr.decision ⟨⟨0⟩, 0, 0⟩).add (.uncertainty ⟨⟨0⟩, 0, 0⟩)).withMode mode

/-- The policy consists of the variables of its model. -/
theorem singlePolicy_declaredIn : singlePolicy.DeclaredIn singleConic := by
  constructor
  · intro fs hfs h hh
    obtain rfl := List.mem_singleton.1 hfs
    obtain rfl := List.mem_singleton.1 hh
    exact ConicModel.declares_iff.2 ⟨rfl, rfl, by decide⟩
  · intro h hh
    obtain rfl := List.mem_singleton.1 hh
    exact ConicModel.declares_iff.2 ⟨rfl, rfl, by decide⟩

/-- The counterpart of the sum exists in models with a single decision. -/
theorem robust_singleSum_yields (mode : UncertaintyMode) (hmode : mode ≠ .stochastic)
    {d : DecisionVariable ℝ} {v : UncertaintyVariable ℝ} (hdecisions : model.decisions.items = [d])
    (hd : model.decisionAt ⟨⟨0⟩, 0, 0⟩ = .ok d) (hlength : d.dependencies.length ≤ 1)
    (hv : model.uncertainty.variableAt ⟨⟨0⟩, 0, 0⟩ = .ok v) (hmodel : model.Grounded) :
    Step.Yields (robust model singlePolicy (singleSum mode) name) fun _ => True := by
  refine robust_yields hmodel ?_ ⟨⟨?_, ?_, ?_⟩, ?_, hmode⟩
  · intro i d' hd'
    rw [hdecisions] at hd'
    have hi : i = 0 := by simpa using (List.getElem?_eq_some_iff.1 hd').1
    subst hi
    obtain rfl := Option.some.inj hd'
    exact ⟨⟨_, rfl, hlength⟩, _, rfl⟩
  · simpa [singleSum, UncertainExpr.withMode, UncertainExpr.add, UncertainExpr.decision,
      UncertainExpr.uncertainty, UncertainExpr.zero] using ⟨_, hv⟩
  · simpa [singleSum, UncertainExpr.withMode, UncertainExpr.add, UncertainExpr.decision,
      UncertainExpr.uncertainty, UncertainExpr.zero] using ⟨_, hd⟩
  all_goals simp [singleSum, UncertainExpr.withMode, UncertainExpr.add, UncertainExpr.decision,
    UncertainExpr.uncertainty, UncertainExpr.zero]

/-- Two alternatives: the uncertainty is at least one, or its double is four. -/
noncomputable def regimes : List (ConstraintSet ℝ) :=
  [⟨[.named "floor" ⟨.geq, .ofAffine ⟨-1, .var ⟨⟨0⟩, 0, 0⟩⟩⟩]⟩,
    ⟨[.named "double" ⟨.eq, .ofAffine ⟨-4, (LinearExpr.var ⟨⟨0⟩, 0, 0⟩).add
      (.var ⟨⟨0⟩, 0, 0⟩)⟩⟩]⟩]

/-- An uncertainty without bounds, two alternatives for it, and a decision that may depend on
it. -/
noncomputable def regimeModel : RobustModel ℝ where
  name := "regimes"
  decisions := ⟨⟨0⟩, 0, [⟨"x", none, .free, [⟨⟨0⟩, 0, 0⟩], none⟩]⟩
  uncertainty := ⟨"regimes", ⟨⟨0⟩, 0, [⟨"u", none, .free⟩]⟩, ⟨⟨0⟩, 0, regimes⟩⟩
  constraints := []
  objective? := none
  distribution? := none

private theorem regimes_isBox (alternative : ConstraintSet ℝ) (h : alternative ∈ regimes) :
    alternative.isBox = true ∧ ∃ r, regimeModel.uncertainty.Realizes alternative r := by
  have hregion : ∀ alternative : ConstraintSet ℝ,
      regimeModel.uncertainty.region alternative =
        alternative.constraints.map (·.toRawConstraint) := fun alternative => by
    simp [UncertaintySet.region, regimeModel, Store.entries, Bounds.rows, Bounds.free]
  rcases List.mem_cons.1 h with rfl | h
  · refine ⟨?_, [1], UncertaintySet.realizes_iff.2 ⟨rfl, ?_, ?_⟩⟩
    · simp [ConstraintSet.isBox, Constraint.isVariableBound, Constraint.named,
        ConicExpr.isAffine, ConicExpr.ofAffine, LinearExpr.simplify, LinearExpr.merged,
        LinearExpr.mergeTerm, LinearExpr.var, LinearExpr.term, LinearExpr.size]
    · simp [Constraint.named, ConicExpr.ofAffine, ConicExpr.vars, AffineExpr.vars, regimeModel,
        UncertaintySet.numVariables, Store.size]
    · simp [hregion, Constraint.named, RawConstraint.Holds, ConstraintSense.Holds, ConicExpr.eval,
        ConicExpr.ofAffine, AffineExpr.eval, bySlot, entryAt]
  · obtain rfl := List.mem_singleton.1 h
    refine ⟨?_, [2], UncertaintySet.realizes_iff.2 ⟨rfl, ?_, ?_⟩⟩
    · simp [ConstraintSet.isBox, Constraint.isVariableBound, Constraint.named,
        ConicExpr.isAffine, ConicExpr.ofAffine, LinearExpr.simplify, LinearExpr.merged,
        LinearExpr.mergeTerm, LinearExpr.var, LinearExpr.term, LinearExpr.add, LinearExpr.size]
    · simp [Constraint.named, ConicExpr.ofAffine, ConicExpr.vars, AffineExpr.vars, regimeModel,
        UncertaintySet.numVariables, Store.size]
    · simp [hregion, Constraint.named, RawConstraint.Holds, ConstraintSense.Holds, ConicExpr.eval,
        ConicExpr.ofAffine, AffineExpr.eval, bySlot, entryAt]
      norm_num

/-- On a union of boxes that are not empty the counterpart is exact: the expression can be
evaluated at every realization, and the variable that the counterpart introduces takes exactly the
values up to the smallest worst case, or up to their mean. It takes none when one of the worst
cases is minus infinity. -/
theorem robust_exact_of_boxes {epigraph : AffineExpr ℝ ConicRef} (hp : p.DeclaredIn m)
    (hrun : robust model p e name m = .ok epigraph m') (hmode : e.mode ≠ .stochastic)
    (hbox : ∀ alternative ∈ model.uncertainty.alternatives.items, alternative.isBox = true ∧
      ∃ r, model.uncertainty.Realizes alternative r) (ω : ConicRef → ℝ) :
    (∀ alternative ∈ model.uncertainty.alternatives.items, ∀ r,
        model.uncertainty.Realizes alternative r →
          ∃ y, (Solution.mk model r (p.decisions model ω r)).evaluate e = .ok y) ∧
      (∀ v : ℝ, Attains m m' ω epigraph v ↔ (v : EReal) ≤ e.mode.combine
        (model.uncertainty.alternatives.items.map (p.worstCase model ω e))) ∧
      ((∃ alternative ∈ model.uncertainty.alternatives.items,
          p.worstCase model ω e alternative = ⊥) → ∀ v, ¬Attains m m' ω epigraph v) := by
  obtain ⟨hresolves, -⟩ := robust_encodes hp hrun
  have hiff : ∀ v : ℝ, Attains m m' ω epigraph v ↔ (v : EReal) ≤ e.mode.combine
      (model.uncertainty.alternatives.items.map (p.worstCase model ω e)) := fun v =>
    robust_attains_iff hp hrun hmode fun alternative halt =>
      (hresolves alternative halt).certifiedUpTo_of_isBox (hbox alternative halt).1
        (hbox alternative halt).2
  refine ⟨fun alternative halt r hr => ?_, hiff, fun ⟨alternative, halt, hbot⟩ v hv => ?_⟩
  · exact ⟨_, Solution.evaluate_decisions (hresolves alternative halt).refers p ω hr.length⟩
  · have hmem : ⊥ ∈ model.uncertainty.alternatives.items.map (p.worstCase model ω e) :=
      List.mem_map.2 ⟨alternative, halt, hbot⟩
    rw [hiff, combine_eq_bot hmem hmode, le_bot_iff] at hv
    exact EReal.coe_ne_bot v hv

/-- The mean over a bounded and an unbounded regime is attained up to the combined worst case. -/
theorem robust_exact_of_boxes_regimes :
    ∃ epigraph m', robust regimeModel singlePolicy (singleSum .average) "sum" singleConic =
        .ok epigraph m' ∧
      ∀ (ω : ConicRef → ℝ) (v : ℝ), Attains singleConic m' ω epigraph v ↔
        (v : EReal) ≤ UncertaintyMode.average.combine
          (regimes.map (singlePolicy.worstCase regimeModel ω (singleSum .average))) := by
  have hu : regimeModel.uncertainty.variableAt ⟨⟨0⟩, 0, 0⟩ = .ok ⟨"u", none, .free⟩ := rfl
  have hgrounded : regimeModel.Grounded := by
    refine ⟨?_, fun alternative h => ?_⟩
    · simpa [regimeModel] using ⟨_, hu⟩
    · obtain ⟨-, r, hr⟩ := regimes_isBox alternative h
      exact (UncertaintySet.realizes_iff.1 hr).2.1
  obtain ⟨epigraph, m', hrun, -⟩ := robust_singleSum_yields .average (by decide) rfl rfl le_rfl hu
    hgrounded singleConic
  exact ⟨epigraph, m', hrun, fun ω =>
    (robust_exact_of_boxes singlePolicy_declaredIn hrun (by decide) regimes_isBox ω).2.1⟩

end Counterpart

end AdjustableRobust
