import AdjustableRobust.Proofs.Policy.Exactness
import AdjustableRobust.Proofs.Uncertainty.Constraints

/-!
# Exact counterparts on balls and budgets

On a ball or a budget set whose variables have no bounds, the worst case of an affine function is
its constant less the radius times the dual norm of its coefficients. The penalties reach it: the
multiplier of the norm is the dual norm, and the rows take the opposite coefficients.
-/

namespace AdjustableRobust

/-- How far a linear function with the given coefficients falls below zero on a ball or a budget
set of radius one. -/
noncomputable def SpecialSetType.fall : SpecialSetType → List ℝ → ℝ
  | .ball, c => NormKind.two.apply c
  | .budget, c => NormKind.infinity.apply c
  | .box, _ | .other, _ => 0

/-- The fall is the dual norm of the norm that the set bounds. -/
theorem SpecialSetType.fall_eq_dual {type : SpecialSetType} {norm : NormKind}
    (h : type.norm? = some norm) (c : List ℝ) : type.fall c = norm.dual.apply c := by
  cases type <;> cases h <;> rfl

private theorem pairing_map_neg (xs ys : List ℝ) :
    pairing (xs.map fun x => -x) ys = -pairing xs ys := by
  induction xs generalizing ys with
  | nil => simp
  | cons x xs ih =>
    cases ys with
    | nil => simp
    | cons y ys =>
      rw [List.map_cons, pairing_cons_cons, pairing_cons_cons, ih]
      ring

private theorem pairing_map_range (n : ℕ) (d u : ℕ → ℝ) :
    pairing ((List.range n).map d) ((List.range n).map u) = ∑ i ∈ Finset.range n, d i * u i := by
  have hzip : List.zipWith (· * ·) ((List.range n).map d) ((List.range n).map u) =
      (List.range n).map fun i => d i * u i := by
    rw [List.zipWith_map, List.zipWith_self]
  rw [pairing, hzip]
  clear hzip
  induction n with
  | zero => rfl
  | succ n ih => rw [List.sum_range_succ, Finset.sum_range_succ, ih]

namespace UncertaintySet

variable {s : UncertaintySet ℝ} (name : String) (norm : NormKind) {b : ℝ}

/-- Duals of the norm and of its rows form a penalty when the former bounds the latter. -/
theorem isPenalty_normBall {norm : NormKind} {y : ℝ} {zs : List ℝ}
    (hlen : zs.length = s.numVariables) (hle : norm.dual.apply zs ≤ y) :
    (s.normBall norm b).IsPenalty fun u =>
      pairing zs ((List.range s.numVariables).map u) - y * b := by
  have hy : 0 ≤ y := (NormKind.apply_nonneg _ _).trans hle
  refine ⟨y, zs, ?_, ?_, fun n hn => ?_, funext fun u => ?_⟩
  · exact ConstraintSense.admits_dualBounds_leq.2 hy
  · simpa [normBall, ConicExpr.relateValue, ConicExpr.addConstant, ConicExpr.normOf,
      RawConstraint.rows, NormedVector.ofVariables, Store.handles, numVariables] using hlen
  · obtain rfl := Option.some.inj hn
    exact hle
  · have hrows : (s.normBall norm b).rows.map (·.eval (bySlot u)) =
        (List.range s.numVariables).map u := by
      rw [numVariables, ← Store.map_bySlot_handles]
      simp [normBall, ConicExpr.relateValue, ConicExpr.addConstant, ConicExpr.normOf,
        RawConstraint.rows, NormedVector.ofVariables, Function.comp_def]
    rw [RawConstraint.weighted, hrows]
    simp [normBall, ConicExpr.relateValue, ConicExpr.addConstant, ConicExpr.normOf]
    ring

/-- The worst case on a ball is reached by one of its vectors. -/
theorem exists_realizes_normBall
    (hfree : ∀ v ∈ s.vars.items, v.bounds.lower? = none ∧ v.bounds.upper? = none) (hb : 0 ≤ b)
    {c : List ℝ} (hc : c.length = s.numVariables) :
    ∃ r, s.Realizes ⟨[.named name (s.normBall norm b)]⟩ r ∧
      pairing c r = -(b * norm.dual.apply c) := by
  obtain ⟨r, hr, hnorm, hpair⟩ := exists_pairing_eq_neg_mul_dual norm c hb
  exact ⟨r, (realizes_normBall_iff hfree).2 ⟨hr.trans hc, hnorm⟩, hpair⟩

/-- On a ball penalties certify values up to the worst case of an affine function. -/
theorem certifiedUpTo_normBall
    (hfree : ∀ v ∈ s.vars.items, v.bounds.lower? = none ∧ v.bounds.upper? = none) (hb : 0 ≤ b)
    {c : List ℝ} (hc : c.length = s.numVariables) {k : ℝ} {f : (ℕ → ℝ) → ℝ}
    (hf : ∀ u, f u = k + pairing c ((List.range s.numVariables).map u)) :
    CertifiedUpTo (s.region ⟨[.named name (s.normBall norm b)]⟩) f
      ((k - b * norm.dual.apply c : ℝ) : EReal) := by
  refine ⟨fun v hv => EReal.coe_le_coe_iff.2 ?_, fun v hv => ?_, EReal.coe_ne_top _⟩
  · obtain ⟨r, hr, hpair⟩ := exists_realizes_normBall name norm hfree hb hc
    obtain ⟨hlen, -, hholds⟩ := realizes_iff.1 hr
    have hle := hv.le hholds
    rwa [hf, map_entryAt_range hlen, hpair, ← sub_eq_add_neg] at hle
  · have hpenalty : Penalty (s.region ⟨[.named name (s.normBall norm b)]⟩) fun u =>
        pairing (c.map fun x => -x) ((List.range s.numVariables).map u)
          - norm.dual.apply c * b := by
      rw [region_eq_of_free hfree]
      exact .of_mem List.mem_cons_self (isPenalty_normBall (by simpa using hc) (by simp))
    refine ⟨_, EReal.coe_le_coe_iff.1 hv, _, hpenalty, fun u => ?_⟩
    rw [hf, pairing_map_neg]
    ring

end UncertaintySet

namespace Counterpart

variable {model : RobustModel ℝ} {p : PolicyVariables} {m m' : ConicModel ℝ}
variable {e : UncertainExpr ℝ} {name : String} {ω : ConicRef → ℝ} {alternative : ConstraintSet ℝ}

/-- Policies make the expression a constant plus a linear function of the realization. -/
theorem ResolvesIn.exists_coefficients (h : ResolvesIn model p e alternative)
    (ω : ConicRef → ℝ) : ∃ (k : ℝ) (c : List ℝ), c.length = model.numUncertainties ∧
      ∀ u, e.underPolicies model p ω u =
        k + pairing c ((List.range model.numUncertainties).map u) := by
  obtain ⟨k, d, hd⟩ := h.affine ω
  refine ⟨k, (List.range model.numUncertainties).map d, by simp, fun u => ?_⟩
  rw [hd, pairing_map_range]

/-- Two uncertainties without bounds, and nothing else to say about them. -/
noncomputable def plane : UncertaintySet ℝ :=
  ⟨"disk", ⟨⟨0⟩, 0, [⟨"u", none, .free⟩, ⟨"v", none, .free⟩]⟩, ⟨⟨0⟩, 0, [.empty]⟩⟩

/-- The uncertainties are on a disk of radius two, and a decision may depend on the first one. -/
noncomputable def diskModel : RobustModel ℝ where
  name := "disk"
  decisions := ⟨⟨0⟩, 0, [⟨"x", none, .free, [⟨⟨0⟩, 0, 0⟩], none⟩]⟩
  uncertainty := { plane with
    alternatives := ⟨⟨0⟩, 0, [⟨[.named "BallConstraint" (plane.normBall .two 2)]⟩]⟩ }
  constraints := []
  objective? := none
  distribution? := none

/-- On a ball or a budget set without further bounds the counterpart in union mode is exact: the
variable that it introduces takes exactly the values up to the constant less the radius times the
dual norm of the coefficients, and this is the smallest value of the expression on the set. -/
theorem robust_exact_of_normBall {set : UncertaintySet ℝ} {type : SpecialSetType} {b : ℝ}
    (hfree : ∀ v ∈ set.vars.items, v.bounds.lower? = none ∧ v.bounds.upper? = none)
    (hempty : set.alternatives.items = [.empty]) (hb : 0 ≤ b)
    (hset : set.addSpecialConstraint type b = .ok model.uncertainty)
    {epigraph : AffineExpr ℝ ConicRef} (hp : p.DeclaredIn m) (hmode : e.mode = .union)
    (hrun : robust model p e name m = .ok epigraph m') (ω : ConicRef → ℝ) :
    ∃ alternative k c, model.uncertainty.alternatives.items = [alternative] ∧
      c.length = model.numUncertainties ∧
      (∀ r, r.length = model.numUncertainties →
        (Solution.mk model r (p.decisions model ω r)).evaluate e = .ok (k + pairing c r)) ∧
      (∀ v, Attains m m' ω epigraph v ↔ v ≤ k - b * type.fall c) ∧
      IsLeast (p.outcomes model ω e alternative) (k - b * type.fall c) := by
  obtain ⟨norm, label, hnorm, hvars, hitems⟩ :=
    UncertaintySet.addSpecialConstraint_eq_ok hempty hset
  have hball : set.normBall norm b = model.uncertainty.normBall norm b := by
    rw [UncertaintySet.normBall, UncertaintySet.normBall, hvars]
  rw [hball] at hitems
  rw [← hvars] at hfree
  have hresolves := (robust_encodes hp hrun).1 _ (hitems ▸ List.mem_singleton_self _)
  obtain ⟨k, c, hc, hfun⟩ := hresolves.exists_coefficients ω
  have hvalue : ∀ r : List ℝ, r.length = model.numUncertainties →
      e.underPolicies model p ω (entryAt r) = k + pairing c r := fun r hr => by
    rw [hfun, map_entryAt_range hr]
  have hup := UncertaintySet.certifiedUpTo_normBall label norm hfree hb hc hfun
  refine ⟨_, k, c, hitems, hc, fun r hr => ?_, fun v => ?_, ?_, fun y hy => ?_⟩
  · rw [Solution.evaluate_decisions hresolves.refers p ω hr, hvalue r hr]
  · have hiff := robust_attains_iff (v := v) hp hrun (by simp [hmode])
      (w := fun _ => ((k - b * type.fall c : ℝ) : EReal)) (ω := ω) fun alternative halt => by
        rw [hitems, List.mem_singleton] at halt
        rw [halt, SpecialSetType.fall_eq_dual hnorm]
        exact hup
    rw [hiff, hmode, hitems, UncertaintyMode.combine, List.map_cons, List.map_nil,
      List.foldr_cons, List.foldr_nil, min_top_right, EReal.coe_le_coe_iff]
  · obtain ⟨r, hr, hpair⟩ := UncertaintySet.exists_realizes_normBall label norm hfree hb hc
    refine hresolves.mem_outcomes_iff.2 ⟨r, hr, ?_⟩
    rw [hvalue r hr.length, hpair, SpecialSetType.fall_eq_dual hnorm]
    ring
  · obtain ⟨r, hr, rfl⟩ := hresolves.mem_outcomes_iff.1 hy
    obtain ⟨v, hv, hcert⟩ := hup.exists_ge _ le_rfl
    rw [SpecialSetType.fall_eq_dual hnorm]
    exact hv.trans (hcert.le (UncertaintySet.realizes_iff.1 hr).2.2)

/-- Over the disk the worst case of a sum is the constant less twice the length of the coefficients.
-/
theorem robust_exact_of_normBall_disk :
    ∃ epigraph m', robust diskModel singlePolicy (singleSum .union) "sum" singleConic =
        .ok epigraph m' ∧
      ∀ ω, ∃ k c, c.length = 2 ∧ ∀ v, Attains singleConic m' ω epigraph v ↔
        v ≤ k - 2 * SpecialSetType.ball.fall c := by
  have hset : plane.addSpecialConstraint .ball 2 = .ok diskModel.uncertainty := rfl
  have hu : diskModel.uncertainty.variableAt ⟨⟨0⟩, 0, 0⟩ = .ok ⟨"u", none, .free⟩ := rfl
  have hgrounded : diskModel.Grounded := by
    refine ⟨by simpa [diskModel, plane] using ⟨_, hu⟩, fun alternative h c hc v hv => ?_⟩
    obtain rfl := List.mem_singleton.1 h
    obtain rfl := List.mem_singleton.1 hc
    exact UncertaintySet.slot_lt_of_mem_vars_normBall hv
  obtain ⟨epigraph, m', hrun, -⟩ := robust_singleSum_yields .union (by decide) rfl rfl le_rfl hu
    hgrounded singleConic
  refine ⟨epigraph, m', hrun, fun ω => ?_⟩
  obtain ⟨_, k, c, -, hc, -, hattains, -⟩ := robust_exact_of_normBall
    (by simp [plane, Bounds.free]) rfl zero_le_two hset singlePolicy_declaredIn rfl hrun ω
  exact ⟨k, c, hc, hattains⟩

end Counterpart

end AdjustableRobust
