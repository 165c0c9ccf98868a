import AdjustableRobust.Proofs.Keeping
import AdjustableRobust.Proofs.Policy.Success

/-!
# Equalities are exact

An equality is compiled coefficient by coefficient. The constraints that are appended for it hold
exactly when the expression vanishes at every realization under the policies; nothing else is
changed.
-/

namespace AdjustableRobust

namespace ConicModel

/-- The second model has further constraints and is the first one otherwise. -/
def OnlyConstrains (m m' : ConicModel ℝ) : Prop :=
  ∃ cs, m' = { m with constraints := m.constraints ++ cs }

/-- No constraint. -/
theorem OnlyConstrains.refl (m : ConicModel ℝ) : m.OnlyConstrains m :=
  ⟨[], by rw [List.append_nil]⟩

/-- One more constraint. -/
theorem OnlyConstrains.addConstraint {m m' : ConicModel ℝ} (h : m.OnlyConstrains m') (name : String)
    (c : RawConstraint (ConicExpr ℝ ConicRef)) : m.OnlyConstrains (m'.addConstraint name c) := by
  obtain ⟨cs, rfl⟩ := h
  exact ⟨cs ++ [.named name c], by rw [ConicModel.addConstraint, List.append_assoc]⟩

end ConicModel

namespace Counterpart

variable {model : RobustModel ℝ} {p : PolicyVariables} {m m' : ConicModel ℝ}
variable {e : UncertainExpr ℝ} {name : String}

private theorem keeps_requireAffine (name : String) (s : ConstraintSense)
    (f : AffineExpr ℝ ConicRef) : Step.Keeps m.OnlyConstrains (requireAffine name s f) :=
  .modify fun _ h => h.addConstraint _ _

/-- An equality changes nothing but the constraints, also if it fails. -/
theorem keeps_compileEquality : Step.Keeps m.OnlyConstrains (compileEquality model p e name) := by
  rw [compileEquality]
  refine .check ?_
  dsimp only
  split
  · exact .pure
  · exact .bind .ofExcept fun _ => .bind (.forM fun _ _ => keeps_requireAffine _ _ _) fun _ =>
      keeps_requireAffine _ _ _

/-- An expression whose equality is compiled is an affine function of the uncertainties. -/
theorem affineUnder_of_compileEquality {u : Unit}
    (hrun : compileEquality model p e name m = .ok u m') : e.AffineUnder model p := by
  have hsimplify : ∀ ω u, e.simplify.underPolicies model p ω u = e.underPolicies model p ω u :=
    fun ω u => e.eval_simplify _ _
  intro ω
  obtain ⟨hzero, -⟩ | ⟨-, l, m₁, hadd, -, -⟩ := compileEquality_eq_ok hrun
  · refine ⟨0, 0, fun u => ?_⟩
    simp only [Pi.zero_apply, zero_mul, Finset.sum_const_zero, add_zero, ← hsimplify]
    exact UncertainExpr.eval_of_isZero hzero _ _
  · obtain ⟨a, d, hd⟩ := (addExpression_eq_ok hadd).2.affine ω
    rw [Lagrangian.zero, List.length_replicate] at hd
    exact ⟨a, d, fun u => (hsimplify ω u).symm.trans (hd u)⟩

/-- An equality that is compiled appends constraints to the conic model, none if the expression
simplifies to zero, and leaves it alone otherwise. Whatever the values of the policy variables are,
the constraints hold exactly when the expression is zero at every realization under the policies,
which is what it evaluates to there if it is about the model. -/
theorem compileEquality_exact {u : Unit} (hrun : compileEquality model p e name m = .ok u m') :
    ∃ cs, m' = { m with constraints := m.constraints ++ cs } ∧
      (e.simplify.isZero = true → cs = []) ∧
      ∀ ω, ((∀ c ∈ cs, c.toRawConstraint.Holds ω) ↔
          ∀ r : List ℝ, r.length = model.numUncertainties →
            e.underPolicies model p ω (entryAt r) = 0) ∧
        (e.RefersTo model → ((∀ c ∈ cs, c.toRawConstraint.Holds ω) ↔
          ∀ r : List ℝ, r.length = model.numUncertainties →
            (Solution.mk model r (p.decisions model ω r)).evaluate e = .ok 0)) := by
  have hkeeps : m.OnlyConstrains ((compileEquality model p e name).perform m).2 :=
    keeps_compileEquality m (.refl m)
  rw [Step.perform, hrun] at hkeeps
  obtain ⟨cs, hcs⟩ := hkeeps
  have hconstraints : m'.constraints = m.constraints ++ cs := congrArg ConicModel.constraints hcs
  have hiff : ∀ ω, (∀ c ∈ cs, c.toRawConstraint.Holds ω) ↔
      ∀ r : List ℝ, r.length = model.numUncertainties →
        e.underPolicies model p ω (entryAt r) = 0 := by
    intro ω
    have hholds := (compileEquality_adds hrun).holds ω
    rw [hconstraints, List.drop_left] at hholds
    rw [hholds]
    constructor
    · exact fun h r _ => h (entryAt r)
    · intro h u
      rw [← (affineUnder_of_compileEquality hrun).underPolicies_entryAt]
      exact h _ (by rw [List.length_map, List.length_range])
  refine ⟨cs, hcs, fun hzero => ?_, fun ω => ⟨hiff ω, fun he => (hiff ω).trans ?_⟩⟩
  · obtain ⟨-, rfl⟩ | ⟨hnonzero, -⟩ := compileEquality_eq_ok hrun
    · exact List.append_right_eq_self.1 hconstraints.symm
    · exact absurd hzero (Bool.eq_false_iff.1 hnonzero)
  · refine forall₂_congr fun r hr => ?_
    rw [Solution.evaluate_decisions he p ω hr, Except.ok.injEq]

/-- Two uncertainties, a decision that depends on both and one that depends on none. -/
noncomputable def pair : RobustModel ℝ where
  name := "pair"
  decisions := ⟨⟨0⟩, 0, [⟨"x", none, .free, [⟨⟨0⟩, 0, 0⟩, ⟨⟨0⟩, 0, 1⟩], none⟩,
    ⟨"y", none, .free, [], none⟩]⟩
  uncertainty := ⟨"pair", ⟨⟨0⟩, 0, [⟨"u", none, .free⟩, ⟨"v", none, .free⟩]⟩, ⟨⟨0⟩, 0, [.empty]⟩⟩
  constraints := []
  objective? := none
  distribution? := none

/-- The policy variables of its decisions. -/
def pairPolicies : PolicyVariables where
  factors := [[⟨⟨1⟩, 0, 0⟩, ⟨⟨1⟩, 0, 1⟩], []]
  constants := [⟨⟨1⟩, 0, 2⟩, ⟨⟨1⟩, 0, 3⟩]

/-- An expression with a repeated decision, uncertainties that cancel, and a product. -/
noncomputable def pairBalance : UncertainExpr ℝ where
  constant := -1
  decisions := ⟨[⟨1, ⟨⟨0⟩, 0, 0⟩⟩, ⟨1, ⟨⟨0⟩, 0, 0⟩⟩]⟩
  uncertainties := ⟨[⟨1, ⟨⟨0⟩, 0, 1⟩⟩, ⟨-1, ⟨⟨0⟩, 0, 1⟩⟩]⟩
  products := ⟨[⟨1, ⟨⟨⟨0⟩, 0, 0⟩, ⟨⟨0⟩, 0, 1⟩⟩⟩]⟩
  mode := .average

/-- The rows of the balance of a pair say that it holds for all values of both uncertainties. -/
theorem compileEquality_exact_pair : ∃ m' cs,
    compileEquality pair pairPolicies pairBalance "balance" (.new "policies" ⟨1⟩) = .ok () m' ∧
      m'.constraints = cs ∧ ∀ ω, (∀ c ∈ cs, c.toRawConstraint.Holds ω) ↔
        ∀ r : List ℝ, r.length = 2 →
          (Solution.mk pair r (pairPolicies.decisions pair ω r)).evaluate pairBalance = .ok 0 := by
  have hu : ∀ h : UncertaintyRef, h.owner = ⟨0⟩ → h.epoch = 0 → h.slot < 2 →
      ∃ x, pair.uncertainty.variableAt h = .ok x := fun h ho he hlt =>
    ⟨_, UncertaintySet.variableAt_eq_ok_iff.2 ⟨ho, he, List.getElem?_eq_getElem hlt⟩⟩
  have hrefers : pairBalance.RefersTo pair := by
    refine ⟨?_, ?_, ?_⟩
    · simp [pairBalance, LinearExpr.vars, hu]
    · simpa [pairBalance, LinearExpr.vars] using ⟨_, rfl⟩
    · simpa [pairBalance, LinearExpr.vars, hu] using ⟨_, rfl⟩
  have hgrounded : pair.Grounded := by
    refine ⟨?_, by simp [pair, ConstraintSet.empty]⟩
    refine List.forall_mem_cons.2 ⟨?_, List.forall_mem_singleton.2 (by simp)⟩
    exact List.forall_mem_cons.2 ⟨hu _ rfl rfl (by decide),
      List.forall_mem_singleton.2 (hu _ rfl rfl (by decide))⟩
  have hcovers : pairPolicies.Covers pair := by
    rintro (_ | _ | i) d hd
    · obtain rfl := Option.some.inj hd
      exact ⟨⟨_, rfl, le_rfl⟩, _, rfl⟩
    · obtain rfl := Option.some.inj hd
      exact ⟨⟨_, rfl, le_rfl⟩, _, rfl⟩
    · simp [pair] at hd
  have hcompilable : pairBalance.Compilable pair := by
    refine ⟨hrefers, List.forall_mem_singleton.2 fun d hd => ?_, by simp [pairBalance]⟩
    obtain rfl := Except.ok.inj hd
    rfl
  have hyields : Step.Yields (compileEquality pair pairPolicies pairBalance "balance")
      fun _ => True := compileEquality_yields hgrounded hcovers hcompilable
  obtain ⟨_, m', hrun, -⟩ := hyields (.new "policies" ⟨1⟩)
  obtain ⟨cs, rfl, -, hcs⟩ := compileEquality_exact hrun
  exact ⟨_, cs, hrun, rfl, fun ω => (hcs ω).2 hrefers⟩

end Counterpart

end AdjustableRobust
