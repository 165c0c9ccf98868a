import AdjustableRobust.Policy.Affine
import AdjustableRobust.Proofs.Failure

/-!
# Why compilations fail

A compilation fails for what it is given: a model that refers to what it does not have, or that the
policies do not cover. It never fails for being asked at the wrong time, apart from the check with
which it begins.
-/

namespace AdjustableRobust

namespace PolicyError

variable {α β : Type}

/-- The cause lies in what is compiled, not in when a compiler or a solver is asked. -/
def OfInput : PolicyError α → Prop
  | .notBuilt | .solver _ => False
  | .equalityUnderStochastic _ | .scaledDecisionOnAdjustable _ | .notAxisAligned
  | .duplicateBreakpointDirection _ | .unorderedBreakpoints | .unboundedDirection
  | .kappaRequirements _ | .model _ | .store _ => True

/-- Model operations fail for what they are given. -/
theorem blames_fromModel {x : Except (ModelError α) β} : Blames OfInput (fromModel x) :=
  .mapError fun _ => trivial

/-- Store operations fail for what they are given. -/
theorem blames_fromStore {x : Except StoreError β} :
    Blames (OfInput (α := α)) (fromStore x) :=
  .mapError fun _ => trivial

end PolicyError

open PolicyError

variable {α β : Type} [Scalar α]

namespace Counterpart

variable {model : RobustModel α} {p : PolicyVariables}

/-! ## Dual blocks -/

private theorem dualizeNorm_blames (l : Lagrangian α) (n : NormedVector α UncertaintyRef)
    (dv : ConicRef) (name : String) : Step.Blames OfInput (dualizeNorm l n dv name) :=
  .bind .ofChange fun _ => .bind (.ofExcept fun _ _ => trivial) fun _ =>
    .bind .modify fun _ => .pure

private theorem dualizeConstraint_blames (name : String) (slot : Nat) (l : Lagrangian α)
    (c : UncertaintyConstraint α) : Step.Blames OfInput (dualizeConstraint name slot l c) := by
  refine .bind .ofChange fun dv => .bind (.ofExcept fun _ _ => trivial) fun l => ?_
  split
  · exact dualizeNorm_blames _ _ _ _
  · exact .pure

private theorem dualizeBounds_blames (name : String) (slot : Nat) (l : Lagrangian α)
    (h : UncertaintyRef) (u : UncertaintyVariable α) :
    Step.Blames OfInput (dualizeBounds name slot l h u) := by
  have hrow : ∀ (name : String) (b : Bounds α) (f : ConicRef → Except StoreError (Lagrangian α)),
      Step.Blames OfInput (do let dv ← declare name b; Step.ofExcept .store (f dv)) :=
    fun _ _ _ => .bind .ofChange fun _ => .ofExcept fun _ _ => trivial
  unfold dualizeBounds
  cases u.bounds.lower? with
  | none =>
    refine .bind .pure fun l => ?_
    cases u.bounds.upper? with
    | none => exact .pure
    | some b => exact hrow _ _ _
  | some a =>
    refine .bind .ofChange fun _ => .bind (.ofExcept fun _ _ => trivial) fun l => ?_
    cases u.bounds.upper? with
    | none => exact .pure
    | some b => exact hrow _ _ _

private theorem dualizeAlternative_blames (name : String) (set : ConstraintSetRef) :
    Step.Blames OfInput (dualizeAlternative model name set) :=
  .bind (.ofExcept fun _ _ => trivial) fun _ =>
    .bind (.foldlM fun _ _ _ => dualizeConstraint_blames _ _ _ _) fun _ =>
      .foldlM fun _ _ _ => dualizeBounds_blames _ _ _ _ _

/-! ## Expressions under policies -/

private theorem nonAdjustable_blames (d : DecisionRef) :
    Blames OfInput (nonAdjustable model p d) := by
  refine .bind blames_fromModel fun v => ?_
  split
  · exact blames_fromStore
  · exact .throw trivial

private theorem addExpression_blames (l : Lagrangian α) (e : UncertainExpr α) :
    Blames OfInput (addExpression model p l e) := by
  have huncertainty : ∀ (l : Lagrangian α) t, Blames OfInput (addUncertaintyTerm model l t) :=
    fun _ _ => .bind blames_fromModel fun _ => blames_fromStore
  have hdecision : ∀ (l : Lagrangian α) t, Blames OfInput (addDecisionTerm model p l t) :=
    fun _ _ => .bind blames_fromModel fun _ =>
      .bind (.foldlM fun _ _ _ => .bind blames_fromStore fun _ => blames_fromStore) fun _ =>
        .bind blames_fromStore fun _ => .pure
  have hproduct : ∀ (l : Lagrangian α) t, Blames OfInput (addProductTerm model p l t) :=
    fun _ _ => .bind (nonAdjustable_blames _) fun _ =>
      .bind blames_fromModel fun _ => blames_fromStore
  exact .bind (.foldlM fun _ _ _ => huncertainty _ _) fun _ =>
    .bind (.foldlM fun _ _ _ => hdecision _ _) fun _ =>
      .bind (.foldlM fun _ _ _ => hproduct _ _) fun _ => .pure

private theorem requireResiduals_blames (l : Lagrangian α) (name : String → String) :
    Step.Blames OfInput (requireResiduals model l name) :=
  .forM fun _ _ => .modify

/-! ## Counterparts -/

private theorem dualObjective_blames (e : UncertainExpr α) (name : String)
    (set : ConstraintSetRef) :
    Step.Blames OfInput (dualObjective model p e name set) :=
  .bind (dualizeAlternative_blames _ _) fun _ =>
    .bind (.ofExcept (addExpression_blames _ _)) fun _ =>
      .bind (requireResiduals_blames _ _) fun _ => .pure

private theorem robust_blames (e : UncertainExpr α) (name : String) :
    Step.Blames OfInput (robust model p e name) := by
  refine .bind .ofChange fun v => .bind (.mapM fun set _ => ?_) fun os => ?_
  · refine .bind (dualObjective_blames _ _ _) fun o => ?_
    dsimp only
    split
    · exact .bind .modify fun _ => .pure
    · exact .pure
  · dsimp only
    split
    · exact .bind .modify fun _ => .pure
    · exact .pure

private theorem expectedTerms_blames (d : DecisionRef) (factors : List α) (constant : α)
    (a : AffineExpr α ConicRef) : Blames OfInput (expectedTerms p d factors constant a) := by
  refine .bind (.foldlM fun a x _ => ?_) fun a => ?_
  · dsimp only
    split
    · exact .pure
    · exact .bind blames_fromStore fun _ => .pure
  · split
    · exact .pure
    · exact .bind blames_fromStore fun _ => .pure

private theorem stochastic_blames (e : UncertainExpr α) :
    Blames OfInput (stochastic model p e) :=
  .bind blames_fromModel fun _ => .bind blames_fromModel fun _ => .bind blames_fromModel fun _ =>
    .bind blames_fromModel fun _ => .foldlM fun _ _ _ => expectedTerms_blames _ _ _ _

private theorem counterpart_blames (e : UncertainExpr α) (name : String) :
    Step.Blames OfInput (counterpart model p e name) := by
  unfold counterpart
  split
  · exact robust_blames _ _
  · exact robust_blames _ _
  · exact .ofExcept (stochastic_blames _)

private theorem compileEquality_blames (e : UncertainExpr α) (name : String) :
    Step.Blames OfInput (compileEquality model p e name) := by
  have hmode : OfInput (.equalityUnderStochastic name : PolicyError α) := trivial
  rw [compileEquality]
  refine .check hmode ?_
  dsimp only
  split
  · exact .pure
  · exact .bind (.ofExcept (addExpression_blames _ _)) fun _ =>
      .bind (requireResiduals_blames _ _) fun _ => .modify

private theorem compileConstraint_blames (name : String) (c : RawConstraint (UncertainExpr α)) :
    Step.Blames OfInput (compileConstraint model p name c) := by
  unfold compileConstraint
  split
  · exact .bind (counterpart_blames _ _) fun _ => .modify
  · exact .bind (counterpart_blames _ _) fun _ => .modify
  · exact compileEquality_blames _ _

private theorem compileObjective_blames : Step.Blames OfInput (compileObjective model p) := by
  refine .bind (.ofExcept fun _ _ => trivial) fun objective => ?_
  dsimp only
  split
  · exact .bind (counterpart_blames _ _) fun _ => .modify
  · exact .bind (counterpart_blames _ _) fun _ => .modify

private theorem compileBounds_blames (h : DecisionRef) (d : DecisionVariable α) :
    Step.Blames OfInput (compileBounds model p h d) := by
  have hbound : ∀ (o : Option α) (f : α → Step (ConicModel α) (PolicyError α) PUnit),
      (∀ b, Step.Blames OfInput (f b)) → Step.Blames OfInput (o.forM f) := by
    intro o f hf
    cases o with
    | none => exact .pure
    | some b => exact hf b
  exact .bind (hbound _ _ fun _ => compileConstraint_blames _ _) fun _ =>
    hbound _ _ fun _ => compileConstraint_blames _ _

/-- A model is compiled unless it cannot be. -/
theorem compile_blames : Step.Blames OfInput (compile model p) :=
  .bind compileObjective_blames fun _ =>
    .bind (.forM fun _ _ => compileConstraint_blames _ _) fun _ =>
      .forM fun _ _ => compileBounds_blames _ _

end Counterpart

namespace AffineCompiler

/-- Policies are declared unless the model refers to what it does not have. -/
theorem declarePolicies_blames (model : RobustModel α) :
    Step.Blames OfInput (declarePolicies model) := by
  have hdeclare : ∀ name, Step.Blames OfInput (declare (α := α) name) :=
    fun _ => .focus .ofChange
  refine .bind (.forM fun d _ => ?_) fun _ => .forM fun d _ => ?_
  · exact .bind (.mapM fun _ _ => .bind (.ofExcept fun _ _ => trivial) fun _ => hdeclare _)
      fun _ => .modify
  · exact .bind (hdeclare _) fun _ => .modify

/-- A compilation that did not succeed before fails for what it is given, if it fails. -/
theorem build_blames {c : AffineCompiler α β} (hc : c.isBuilt = false) :
    Blames OfInput (build.perform c).1 := by
  rw [build, Step.perform_bind, Step.perform_get]
  dsimp only
  rw [if_neg (hc ▸ Bool.false_ne_true)]
  refine Step.Blames.bind (.focus (declarePolicies_blames _)) (fun _ => ?_) c
  exact .bind .get fun _ => .bind (.focus Counterpart.compile_blames) fun _ => .modify

/-- A compilation that succeeds is on record, one that fails is not. -/
theorem isBuilt_build {c : AffineCompiler α β} (hc : c.isBuilt = false) :
    (build.perform c).2.isBuilt = true ↔ (build.perform c).1 = .ok () := by
  have hparts : ∀ {τ : Type} (part : AffineCompiler α β → τ)
      (replace : AffineCompiler α β → τ → AffineCompiler α β) (x : Step τ (PolicyError α) Unit),
      (∀ c t, (replace c t).isBuilt = c.isBuilt) →
        Step.Keeps (·.isBuilt = false) (Step.focus part replace id x) :=
    fun _ _ _ h => .focus fun c t hc => (h c t).trans hc
  rw [build, Step.perform_bind, Step.perform_get]
  dsimp only
  rw [if_neg (hc ▸ Bool.false_ne_true), Step.perform_bind]
  have hdeclare := hparts (fun c => Draft.mk c.conic c.policy)
    (fun c d => { c with conic := d.conic, policy := d.policy })
    (declarePolicies c.model) (fun _ _ => rfl) c hc
  split
  · next t hrun =>
    rw [hrun] at hdeclare
    rw [Step.perform_bind, Step.perform_get]
    dsimp only
    rw [Step.perform_bind]
    have hcompile := hparts AffineCompiler.conic (fun c conic => { c with conic := conic })
      (Counterpart.compile c.model t.policy) (fun _ _ => rfl) t hdeclare
    split
    · exact iff_of_true rfl rfl
    · next hrun =>
      rw [hrun] at hcompile
      exact iff_of_false (Bool.eq_false_iff.1 hcompile) nofun
  · next hrun =>
    rw [hrun] at hdeclare
    exact iff_of_false (Bool.eq_false_iff.1 hdeclare) nofun

/-- A solve compiles what was not compiled, and nothing else. -/
theorem isBuilt_solve [ConicBackend α β] {c : AffineCompiler α β} :
    (solve.perform c).2.isBuilt = true ↔ c.isBuilt = true ∨ (build.perform c).1 = .ok () := by
  have hrest : Step.Keeps (fun c : AffineCompiler α β => c.isBuilt = true) (do
      let status ← Step.focus (fun c => SolverRun.mk c.solver c.conic)
        (fun c r => { c with solver := r.solver, conic := r.model }) .solver SolverRun.solve
      if status ≠ .optimal then
        modify fun c =>
          let message := s!"{c.conic.name} finished with status {status.text}"
          { c with diagnostics := c.diagnostics.warn message }
      return status : Step (AffineCompiler α β) (PolicyError α) OptimizationStatus) :=
    .bind (.focus fun _ _ h => h) fun _ => .before (.modify fun _ h => h) .pure
  rw [solve, Step.perform_bind, Step.perform_get]
  dsimp only
  cases hc : c.isBuilt with
  | true => exact iff_of_true (hrest c hc) (.inl rfl)
  | false =>
    have hbuilt := isBuilt_build hc
    rw [Bool.not_false, if_pos rfl, Step.perform_bind]
    cases hrun : build.perform c with
    | mk result t =>
      rw [hrun] at hbuilt
      cases result with
      | ok u => exact iff_of_true (hrest t (hbuilt.2 rfl)) (.inr rfl)
      | error e => exact iff_of_false (fun h => nomatch hbuilt.1 h) (by simp)

end AffineCompiler

end AdjustableRobust
