import AdjustableRobust.Proofs.Lifting.Soundness
import AdjustableRobust.Proofs.Policy.ReadBack
import AdjustableRobust.Proofs.Solver.Assembly

/-!
# Compiled models are taken by the backend

A compilation refers to variables that it has declared before, declares continuous ones only, and
bounds norms from above. So the cone backend takes what has been compiled, after every sequence of
calls, whether they succeed or fail.
-/

namespace AdjustableRobust

variable {model : RobustModel ℝ} {p : PolicyVariables} {m : ConicModel ℝ} {l l' : Lagrangian ℝ}

/-! ## Policy variables -/

namespace PolicyVariables.DeclaredIn

variable {d : DecisionRef} {h : ConicRef}

/-- A coefficient is a variable of the model. -/
theorem declares_factor (hp : p.DeclaredIn m) {position : ℕ} (hh : p.factor d position = .ok h) :
    m.Declares h := by
  obtain ⟨fs, hfs, hh⟩ := factor_eq_ok_iff.1 hh
  exact hp.factors fs (List.mem_of_getElem? hfs) h (List.mem_of_getElem? hh)

/-- A constant is a variable of the model. -/
theorem declares_constant (hp : p.DeclaredIn m) (hh : p.constant d = .ok h) : m.Declares h :=
  hp.constants h (List.mem_of_getElem? (constant_eq_ok_iff.1 hh))

end PolicyVariables.DeclaredIn

namespace Counterpart

open Step

/-! ## Writing -/

private theorem declare_leads (name : String) (b : Bounds ℝ) :
    Leads ConicModel.Develops (declare name b) m fun h t => t.Declares h :=
  .ofChange (ConicModel.develops_push (v := ⟨name, b, .continuous, none, none⟩) rfl)
    (m.declares_push _)

private theorem declareMany_leads (n : ℕ) (name : String) (b : Bounds ℝ) :
    Leads ConicModel.Develops (declareMany n name b) m fun hs t => ∀ h ∈ hs, t.Declares h := by
  have hall := m.develops_addVariables n name b
  exact .ofChange hall.1 hall.2

private theorem require_leads {c : RawConstraint (ConicExpr ℝ ConicRef)} (name : String)
    (hc : c.Fits m) : Leads ConicModel.Develops (require name c) m fun _ _ => True :=
  .modify (ConicModel.develops_addConstraint name hc) trivial

private theorem requireAffine_leads {e : AffineExpr ℝ ConicRef} (name : String)
    (s : ConstraintSense) (he : e.Over m) :
    Leads ConicModel.Develops (requireAffine name s e) m fun _ _ => True :=
  require_leads name (RawConstraint.fits_toConic (he.relateValue s 0))

/-! ## Dual blocks -/

private theorem over_addObjectiveTerm (hl : l.Over m) {v : ConicRef} (hv : m.Declares v) (c : ℝ) :
    (addObjectiveTerm l c v).Over m := by
  unfold addObjectiveTerm
  split
  · exact hl
  · exact hl.addObjective hv c

private theorem over_addRow (hl : l.Over m) {row : AffineExpr ℝ UncertaintyRef} {dv : ConicRef}
    (hdv : m.Declares dv) (hrun : addRow l row dv = .ok l') : l'.Over m :=
  foldlM_invariant (I := fun l => l.Over m) (fun _ _ _ _ hl hstep => hl.addResidual hdv hstep)
    (over_addObjectiveTerm hl hdv _) hrun

private theorem dualizeNorm_leads (hl : l.Over m) (n : NormedVector ℝ UncertaintyRef)
    {dv : ConicRef} (hdv : m.Declares dv) (name : String) :
    Leads ConicModel.Develops (dualizeNorm l n dv name) m Lagrangian.Over := by
  refine (declareMany_leads _ _ _).bind fun duals m₁ hm hduals => ?_
  refine Leads.bind (P := Lagrangian.Over) (.ofExcept fun l' hrows => ?_) fun l' m₂ hm₂ hl' => ?_
  · refine foldlM_invariant (I := fun l => l.Over m₁) (fun l x hx l' hl hstep => ?_)
      (hl.mono hm.declares) hrows
    exact over_addRow hl (hduals _ (List.of_mem_zip hx).2) hstep
  · have hcone := RawConstraint.fits_normOf n.norm.dual
      (fun h hh => hm₂.declares h (hduals h hh)) (hm₂.declares dv (hm.declares dv hdv))
    exact (require_leads _ hcone).bind fun _ _ hm₃ _ => .pure (hl'.mono hm₃.declares)

private theorem dualizeConstraint_leads (hl : l.Over m) (name : String) (slot : ℕ)
    (c : UncertaintyConstraint ℝ) :
    Leads ConicModel.Develops (dualizeConstraint name slot l c) m Lagrangian.Over := by
  refine (declare_leads _ _).bind fun dv m₁ hm hdv => ?_
  refine Leads.bind (P := fun l t => t.Declares dv ∧ l.Over t) (.ofExcept fun l' hrow =>
    ⟨hdv, over_addRow (hl.mono hm.declares) hdv hrow⟩) fun l' m₂ _ ⟨hdv, hl'⟩ => ?_
  split
  · exact dualizeNorm_leads hl' _ hdv _
  · exact .pure hl'

private theorem dualizeBounds_leads (hl : l.Over m) (name : String) (slot : ℕ) (h : UncertaintyRef)
    (u : UncertaintyVariable ℝ) :
    Leads ConicModel.Develops (dualizeBounds name slot l h u) m Lagrangian.Over := by
  have hrow : ∀ {l : Lagrangian ℝ} {t : ConicModel ℝ} {c : ℝ} {dv : ConicRef}, l.Over t →
      t.Declares dv → Leads ConicModel.Develops
        (Step.ofExcept .store ((addObjectiveTerm l c dv).addResidual h 1 dv) :
          Step (ConicModel ℝ) (PolicyError ℝ) _) t Lagrangian.Over := fun hl hdv =>
    .ofExcept fun _ hrun => (over_addObjectiveTerm hl hdv _).addResidual hdv hrun
  unfold dualizeBounds
  cases u.bounds.lower? with
  | none =>
    refine Leads.bind (P := Lagrangian.Over) (.pure hl) fun l m₁ _ hl => ?_
    cases u.bounds.upper? with
    | none => exact .pure hl
    | some b => exact (declare_leads _ _).bind fun _ _ hm hdv => hrow (hl.mono hm.declares) hdv
  | some a =>
    refine (declare_leads _ _).bind fun _ _ hm hdv =>
      (hrow (hl.mono hm.declares) hdv).bind fun l m₁ _ hl => ?_
    cases u.bounds.upper? with
    | none => exact .pure hl
    | some b => exact (declare_leads _ _).bind fun _ _ hm hdv => hrow (hl.mono hm.declares) hdv

private theorem dualizeAlternative_leads (name : String) (set : ConstraintSetRef) :
    Leads ConicModel.Develops (dualizeAlternative model name set) m Lagrangian.Over := by
  refine Leads.bind (P := fun _ _ => True) (.ofExcept fun _ _ => trivial)
    fun alternative m₁ _ _ => ?_
  refine (Leads.foldlM (Q := Lagrangian.Over) (fun l t _ hl c _ =>
    dualizeConstraint_leads hl _ _ _) (Lagrangian.over_zero _)).bind fun l m₂ _ hl => ?_
  exact .foldlM (fun l t _ hl x _ => dualizeBounds_leads hl _ _ _ _) hl

/-! ## Expressions under policies -/

variable {e : UncertainExpr ℝ}

private theorem over_addDecisionTerm (hp : p.DeclaredIn m) (hl : l.Over m) {t : Term ℝ DecisionRef}
    (hrun : addDecisionTerm model p l t = .ok l') : l'.Over m := by
  obtain ⟨v, -, hrun⟩ := bind_eq_ok_iff.1 hrun
  obtain ⟨l₁, hfactors, hrun⟩ := bind_eq_ok_iff.1 hrun
  obtain ⟨b, hb, hrun⟩ := bind_eq_ok_iff.1 hrun
  have hl₁ : l₁.Over m := by
    refine foldlM_invariant (I := fun l => l.Over m) (fun l x _ l' hl hstep => ?_) hl hfactors
    obtain ⟨a, ha, hstep⟩ := bind_eq_ok_iff.1 hstep
    exact hl.addResidual (hp.declares_factor (mapError_eq_ok_iff.1 ha))
      (mapError_eq_ok_iff.1 hstep)
  rw [← pure_eq_ok_iff.1 hrun]
  exact over_addObjectiveTerm hl₁ (hp.declares_constant (mapError_eq_ok_iff.1 hb)) _

private theorem over_addProductTerm (hp : p.DeclaredIn m) (hl : l.Over m) {t : Term ℝ Product}
    (hrun : addProductTerm model p l t = .ok l') : l'.Over m := by
  obtain ⟨b, hb, hrun⟩ := bind_eq_ok_iff.1 hrun
  obtain ⟨_, -, hrun⟩ := bind_eq_ok_iff.1 hrun
  obtain ⟨v, -, hb⟩ := bind_eq_ok_iff.1 hb
  split at hb
  · exact hl.addResidual (hp.declares_constant (mapError_eq_ok_iff.1 hb))
      (mapError_eq_ok_iff.1 hrun)
  · exact absurd hb throw_ne_ok

private theorem over_addExpression (hp : p.DeclaredIn m) (hl : l.Over m)
    (hrun : addExpression model p l e = .ok l') : l'.Over m := by
  obtain ⟨l₁, huncertainties, hrun⟩ := bind_eq_ok_iff.1 hrun
  obtain ⟨l₂, hdecisions, hrun⟩ := bind_eq_ok_iff.1 hrun
  obtain ⟨l₃, hproducts, hrun⟩ := bind_eq_ok_iff.1 hrun
  have hl₁ : l₁.Over m := by
    refine foldlM_invariant (I := fun l => l.Over m) (fun l t _ l' hl hstep => ?_) hl huncertainties
    obtain ⟨_, -, hstep⟩ := bind_eq_ok_iff.1 hstep
    exact hl.addResidualConstant (mapError_eq_ok_iff.1 hstep)
  have hl₂ : l₂.Over m :=
    foldlM_invariant (fun _ _ _ _ hl hstep => over_addDecisionTerm hp hl hstep) hl₁ hdecisions
  have hl₃ : l₃.Over m :=
    foldlM_invariant (fun _ _ _ _ hl hstep => over_addProductTerm hp hl hstep) hl₂ hproducts
  rw [← pure_eq_ok_iff.1 hrun]
  exact hl₃.addConstant _

private theorem requireResiduals_leads (hl : l.Over m) (name : String → String) :
    Leads ConicModel.Develops (requireResiduals model l name) m fun _ _ => True :=
  .forM fun _ ht x hx => requireAffine_leads _ _
    ((hl.residuals x.2 (List.of_mem_zip hx).2).mono ht.declares)

/-! ## Counterparts -/

private theorem dualObjective_leads (hp : p.DeclaredIn m) (name : String) (set : ConstraintSetRef) :
    Leads ConicModel.Develops (dualObjective model p e name set) m AffineExpr.Over := by
  refine (dualizeAlternative_leads name set).bind fun l m₁ hm hl => ?_
  refine Leads.bind (P := Lagrangian.Over) (.ofExcept fun l' hadd =>
    over_addExpression (hp.mono hm.declares) hl hadd) fun l' m₂ _ hl' => ?_
  exact (requireResiduals_leads hl' _).bind fun _ _ hm₃ _ =>
    .pure ((hl'.mono hm₃.declares).objective)

private theorem robust_leads (hp : p.DeclaredIn m) (name : String) :
    Leads ConicModel.Develops (robust model p e name) m AffineExpr.Over := by
  refine (declare_leads _ _).bind fun v m₁ hm₁ hv => ?_
  have hepigraph : (AffineExpr.var v : AffineExpr ℝ ConicRef).Over m₁ :=
    List.forall_mem_singleton.2 hv
  refine Leads.bind (P := fun (os : List (AffineExpr ℝ ConicRef)) t => ∀ o ∈ os, o.Over t)
    (Leads.mapM (Q := AffineExpr.Over)
      (fun _ _ _ h ho => ho.mono h.declares) fun m₂ hm₂ set _ => ?_) fun os m₂ hm₂ hos => ?_
  · refine (dualObjective_leads ((hp.mono hm₁.declares).mono hm₂.declares) name set).bind
      fun o m₃ hm₃ ho => ?_
    dsimp only
    split
    · refine (require_leads _ (RawConstraint.fits_toConic (AffineExpr.Over.relate
        ((hepigraph.mono hm₂.declares).mono hm₃.declares) ho .leq))).bind fun _ _ hm₄ _ => ?_
      exact .pure (ho.mono hm₄.declares)
    · exact .pure ho
  · have hepigraph₂ := hepigraph.mono hm₂.declares
    dsimp only
    split
    · have hmean : (os.foldl AffineExpr.add .zero).Over m₂ :=
        List.foldlRecOn (motive := fun e : AffineExpr ℝ ConicRef => e.Over m₂) os AffineExpr.add
          (by simp [AffineExpr.Over]) fun e he o ho => he.add (hos o ho)
      refine (require_leads _ (RawConstraint.fits_toConic (AffineExpr.Over.relate hepigraph₂
        (hmean.scale _) .leq))).bind fun _ _ hm₃ _ => ?_
      exact .pure (hepigraph₂.mono hm₃.declares)
    · exact .pure hepigraph₂

private theorem over_expectedTerms (hp : p.DeclaredIn m) {d : DecisionRef} {factors : List ℝ}
    {constant : ℝ} {a a' : AffineExpr ℝ ConicRef} (ha : a.Over m)
    (hrun : expectedTerms p d factors constant a = .ok a') : a'.Over m := by
  obtain ⟨a₁, hfactors, hrun⟩ := bind_eq_ok_iff.1 hrun
  have ha₁ : a₁.Over m := by
    refine foldlM_invariant (I := fun a : AffineExpr ℝ ConicRef => a.Over m)
      (fun a x _ a' ha hstep => ?_) ha hfactors
    dsimp only at hstep
    split at hstep
    · exact pure_eq_ok_iff.1 hstep ▸ ha
    · obtain ⟨h, hh, hstep⟩ := bind_eq_ok_iff.1 hstep
      exact pure_eq_ok_iff.1 hstep ▸ ha.addTerm (hp.declares_factor (mapError_eq_ok_iff.1 hh)) _
  split at hrun
  · exact pure_eq_ok_iff.1 hrun ▸ ha₁
  · obtain ⟨h, hh, hrun⟩ := bind_eq_ok_iff.1 hrun
    exact pure_eq_ok_iff.1 hrun ▸ ha₁.addTerm (hp.declares_constant (mapError_eq_ok_iff.1 hh)) _

private theorem over_stochastic (hp : p.DeclaredIn m) {a : AffineExpr ℝ ConicRef}
    (hrun : stochastic model p e = .ok a) : a.Over m := by
  obtain ⟨_, -, hrun⟩ := bind_eq_ok_iff.1 hrun
  obtain ⟨_, -, hrun⟩ := bind_eq_ok_iff.1 hrun
  obtain ⟨_, -, hrun⟩ := bind_eq_ok_iff.1 hrun
  obtain ⟨_, -, hrun⟩ := bind_eq_ok_iff.1 hrun
  exact foldlM_invariant (I := fun a : AffineExpr ℝ ConicRef => a.Over m)
    (fun _ _ _ _ ha hstep => over_expectedTerms hp ha hstep) (by simp [AffineExpr.Over]) hrun

private theorem counterpart_leads (hp : p.DeclaredIn m) (e : UncertainExpr ℝ) (name : String) :
    Leads ConicModel.Develops (counterpart model p e name) m AffineExpr.Over := by
  unfold counterpart
  split
  · exact robust_leads hp name
  · exact robust_leads hp name
  · exact .ofExcept fun _ hrun => over_stochastic hp hrun

private theorem compileEquality_leads (hp : p.DeclaredIn m) (e : UncertainExpr ℝ) (name : String) :
    Leads ConicModel.Develops (compileEquality model p e name) m fun _ _ => True := by
  unfold compileEquality
  refine .before .throw fun m₁ hm₁ => ?_
  dsimp only
  split
  · exact .pure trivial
  · refine Leads.bind (P := Lagrangian.Over) (.ofExcept fun l hadd =>
      over_addExpression (hp.mono hm₁.declares) (Lagrangian.over_zero _) hadd) fun l m₂ _ hl => ?_
    exact (requireResiduals_leads hl _).bind fun _ _ hm₃ _ =>
      requireAffine_leads _ _ (hl.objective.mono hm₃.declares)

private theorem compileConstraint_leads (hp : p.DeclaredIn m) (name : String)
    (c : RawConstraint (UncertainExpr ℝ)) :
    Leads ConicModel.Develops (compileConstraint model p name c) m fun _ _ => True := by
  obtain ⟨sense, e⟩ := c
  cases sense with
  | geq => exact (counterpart_leads hp e name).bind fun _ _ _ ho => requireAffine_leads _ _ ho
  | leq =>
    exact (counterpart_leads hp e.negate name).bind fun _ _ _ ho => requireAffine_leads _ _ ho
  | eq => exact compileEquality_leads hp e name

private theorem compileObjective_leads (hp : p.DeclaredIn m) :
    Leads ConicModel.Develops (compileObjective model p) m fun _ _ => True := by
  refine Leads.bind (P := fun _ _ => True) (.ofExcept fun _ _ => trivial) fun o m₁ hm₁ _ => ?_
  dsimp only
  split
  · exact (counterpart_leads (hp.mono hm₁.declares) _ _).bind fun e _ _ he =>
      .modify (ConicModel.develops_addObjective he) trivial
  · exact (counterpart_leads (hp.mono hm₁.declares) _ _).bind fun e _ _ he =>
      .modify (ConicModel.develops_addObjective he.negate) trivial

private theorem compileBounds_leads (hp : p.DeclaredIn m) (h : DecisionRef)
    (d : DecisionVariable ℝ) :
    Leads ConicModel.Develops (compileBounds model p h d) m fun _ _ => True := by
  unfold compileBounds
  refine Leads.bind (P := fun _ _ => True) ?_ fun _ m₁ hm₁ _ => ?_
  · cases d.bounds.lower? with
    | none => exact .pure trivial
    | some b =>
      exact compileConstraint_leads hp s!"LB_{d.name}"
        ((UncertainExpr.decision h).relateValue .geq b)
  · cases d.bounds.upper? with
    | none => exact .pure trivial
    | some b =>
      exact compileConstraint_leads (hp.mono hm₁.declares) s!"UB_{d.name}"
        ((UncertainExpr.decision h).relateValue .leq b)

/-- However a compilation ends, the backend takes what it has written. -/
theorem compile_leads (hp : p.DeclaredIn m) :
    Leads ConicModel.Develops (compile model p) m fun _ _ => True := by
  refine (compileObjective_leads hp).bind fun _ m₁ hm₁ _ => ?_
  have hp₁ := hp.mono hm₁.declares
  refine (Leads.forM fun m₂ hm₂ c _ => compileConstraint_leads (hp₁.mono hm₂.declares) _ _).bind
    fun _ m₂ hm₂ _ => ?_
  exact .forM fun m₃ hm₃ x _ => compileBounds_leads ((hp₁.mono hm₂.declares).mono hm₃.declares) _ _

end Counterpart

namespace AffineCompiler

open Step

variable {β : Type}

/-! ## Declaring the policy variables -/

/-- The conic model develops, and policy variables stay variables of it. -/
structure Draft.Develops (d d' : Draft ℝ) : Prop where
  conic : d.conic.Develops d'.conic
  policy : d.policy.DeclaredIn d.conic → d'.policy.DeclaredIn d'.conic

instance : IsPreorder (Draft ℝ) Draft.Develops where
  refl d := ⟨refl_of _ d.conic, fun h => h⟩
  trans _ _ _ h h' := ⟨trans_of _ h.conic h'.conic, fun hp => h'.policy (h.policy hp)⟩

variable {d : Draft ℝ}

private theorem declare_leads (name : String) :
    Leads Draft.Develops (declare name) d fun h t => t.conic.Declares h :=
  .focus (Counterpart.declare_leads name .free) (fun _ h => ⟨h, fun hp => hp.mono h.declares⟩)
    fun _ _ _ h => h

private theorem declareFactors_leads (v : DecisionVariable ℝ) :
    Leads Draft.Develops (declareFactors model v) d fun _ _ => True := by
  refine Leads.bind (P := fun fs t => ∀ f ∈ fs, t.conic.Declares f)
    (.mapM (fun _ _ _ h hf => h.conic.declares _ hf) fun t _ u _ => ?_) fun fs t _ hfs => ?_
  · exact Leads.bind (P := fun _ _ => True) (.ofExcept fun _ _ => trivial) fun _ _ _ _ =>
      declare_leads _
  · refine .modify ⟨refl_of _ t.conic, fun hp => ⟨?_, hp.constants⟩⟩ trivial
    exact List.forall_mem_append.2 ⟨hp.factors, List.forall_mem_singleton.2 hfs⟩

private theorem declareConstant_leads (v : DecisionVariable ℝ) :
    Leads Draft.Develops (declareConstant v) d fun _ _ => True := by
  refine (declare_leads _).bind fun b t _ hb => ?_
  refine .modify ⟨refl_of _ t.conic, fun hp => ⟨hp.factors, ?_⟩⟩ trivial
  exact List.forall_mem_append.2 ⟨hp.constants, List.forall_mem_singleton.2 hb⟩

private theorem declarePolicies_leads :
    Leads Draft.Develops (declarePolicies model) d fun _ _ => True :=
  (Leads.forM fun _ _ v _ => declareFactors_leads v).bind fun _ _ _ _ =>
    .forM fun _ _ v _ => declareConstant_leads v

/-! ## Calls -/

/-- What has been compiled so far. -/
def draft (c : AffineCompiler ℝ β) : Draft ℝ := ⟨c.conic, c.policy⟩

/-- What has been compiled develops. -/
def Develops (c c' : AffineCompiler ℝ β) : Prop := c.draft.Develops c'.draft

instance : IsPreorder (AffineCompiler ℝ β) Develops where
  refl c := refl_of Draft.Develops c.draft
  trans _ _ _ h h' := trans_of Draft.Develops h h'

variable {c c' : AffineCompiler ℝ β}

private theorem build_leads (hc : c.policy.DeclaredIn c.conic) :
    Leads Develops build c fun _ _ => True := by
  refine .bind_get (.before .throw fun c₁ h₁ => ?_)
  refine (Leads.focus (Q := fun _ _ => True) declarePolicies_leads (fun _ h => h)
    fun _ _ _ h => h).bind fun _ c₂ h₂ _ => .bind_get ?_
  have hp : c₂.policy.DeclaredIn c₂.conic := h₂.policy (h₁.policy hc)
  refine (Leads.focus (Q := fun _ _ => True) (Counterpart.compile_leads hp)
    (fun t h => ⟨h, fun hp => hp.mono h.declares⟩) fun _ _ _ h => h).bind fun _ c₃ _ _ => ?_
  exact .modify (refl_of Draft.Develops c₃.draft) trivial

private theorem solve_leads [ConicBackend ℝ β] (hc : c.policy.DeclaredIn c.conic) :
    Leads Develops solve c fun _ _ => True := by
  refine .bind_get (.before (build_leads hc) fun c₁ _ => ?_)
  have hsolve : Leads (fun r r' : SolverRun ℝ β => r.model.Develops r'.model) SolverRun.solve
      ⟨c₁.solver, c₁.conic⟩ fun _ _ => True :=
    ⟨ConicModel.develops_of_dropSolution_eq (SolverRun.keeps_solve _ rfl), fun _ _ => trivial⟩
  refine Leads.bind (P := fun _ _ => True) ?_ fun status c₂ _ _ => ?_
  · exact .focus hsolve (fun t h => ⟨h, fun hp => hp.mono h.declares⟩) fun _ _ _ h => h
  exact .before (.modify (refl_of Draft.Develops c₂.draft) trivial) fun _ _ => .pure trivial

private theorem over_policyAt (hc : c.policy.DeclaredIn c.conic) {r : List ℝ} {h : DecisionRef}
    {e : AffineExpr ℝ ConicRef} (hrun : c.policyAt r h = .ok e) : e.Over c.conic := by
  obtain ⟨v, -, hrun⟩ := bind_eq_ok_iff.1 hrun
  obtain ⟨fs, hfs, hrun⟩ := bind_eq_ok_iff.1 hrun
  obtain ⟨b, hb, hrun⟩ := bind_eq_ok_iff.1 hrun
  have hfactors := hc.factors fs
    (List.mem_of_getElem? (Handle.lookup_eq_ok_iff.1 (liftM_eq_ok_iff.1 hfs)))
  have hconstant : (AffineExpr.var b : AffineExpr ℝ ConicRef).Over c.conic :=
    List.forall_mem_singleton.2 (hc.declares_constant (liftM_eq_ok_iff.1 hb))
  refine foldlM_invariant (I := fun e : AffineExpr ℝ ConicRef => e.Over c.conic)
    (fun e x hx e' he hstep => ?_) hconstant hrun
  obtain ⟨a, -, hstep⟩ := bind_eq_ok_iff.1 hstep
  exact pure_eq_ok_iff.1 hstep ▸ he.addTerm (hfactors _ (List.of_mem_zip hx).2) a

private theorem develops_addReoptimization (hc : c.policy.DeclaredIn c.conic) {r : List ℝ}
    (hrun : c.addReoptimization r = .ok c') : c.Develops c' := by
  unfold addReoptimization at hrun
  split at hrun
  · simp only [bind_eq_ok_iff, throw_ne_ok, false_and, exists_false] at hrun
  obtain ⟨o, -, hrun⟩ := bind_eq_ok_iff.1 hrun
  obtain ⟨e, he, hrun⟩ := bind_eq_ok_iff.1 hrun
  obtain ⟨ds, hds, he⟩ := bind_eq_ok_iff.1 (mapError_eq_ok_iff.1 he)
  obtain ⟨fixed, -, he⟩ := bind_eq_ok_iff.1 he
  have hdecisions : ds.Over c.conic := fun w hw => by
    obtain ⟨v, -, g, hg, hw⟩ := (LinearExpr.substitute_eq_ok hds).vars w hw
    exact over_policyAt hc hg w hw
  have hover : e.Over c.conic := by
    refine foldlM_invariant (I := fun e : AffineExpr ℝ ConicRef => e.Over c.conic)
      (fun e t _ e' he hstep => ?_) (hdecisions.addConstant _) he
    obtain ⟨u, -, hstep⟩ := bind_eq_ok_iff.1 hstep
    obtain ⟨g, hg, hstep⟩ := bind_eq_ok_iff.1 hstep
    exact pure_eq_ok_iff.1 hstep ▸ he.add ((over_policyAt hc hg).scale _)
  have hobjective := ConicModel.develops_addObjective
    (o := (.new o.sense e : ConicObjective ℝ)) hover
  rw [← pure_eq_ok_iff.1 hrun]
  exact ⟨hobjective, fun hp => hp.mono hobjective.declares⟩

/-- What may be asked of a compiler. -/
inductive Call where
  | build
  | solve
  | configure (settings : SolverSettings ℝ)
  /-- Add the objective at a realization. -/
  | reoptimize (r : List ℝ)

variable [ConicBackend ℝ β]

/-- The compiler after a call, also if it failed. -/
noncomputable def respond (c : AffineCompiler ℝ β) : Call → AffineCompiler ℝ β
  | .build => (build.perform c).2
  | .solve => (solve.perform c).2
  | .configure settings => c.modifySolver fun s => { s with settings }
  | .reoptimize r =>
    match c.addReoptimization r with
    | .ok c' => c'
    | .error _ => c

/-- The compiler after a sequence of calls. -/
noncomputable def after (c : AffineCompiler ℝ β) (calls : List Call) : AffineCompiler ℝ β :=
  calls.foldl respond c

private theorem develops_respond (hc : c.policy.DeclaredIn c.conic) (call : Call) :
    c.Develops (c.respond call) := by
  cases call with
  | build => exact (build_leads hc).reached
  | solve => exact (solve_leads hc).reached
  | configure settings => exact refl_of Draft.Develops c.draft
  | reoptimize r =>
    rw [respond]
    cases hrun : c.addReoptimization r with
    | error e => exact refl_of Draft.Develops c.draft
    | ok c' => exact develops_addReoptimization hc hrun

private theorem develops_after (hc : c.policy.DeclaredIn c.conic) (calls : List Call) :
    c.Develops (c.after calls) := by
  induction calls generalizing c with
  | nil => exact refl_of Develops c
  | cons call calls ih =>
    have hcall := develops_respond hc call
    exact trans_of Develops hcall (ih (hcall.policy hc))

private theorem exists_ofModel_after (model : RobustModel ℝ) (backend : β)
    (settings : SolverSettings ℝ) (owner : OwnerId) (calls : List Call) :
    ∃ f, StandardForm.ofModel ((new model backend settings owner).after calls).conic = .ok f := by
  have hnew : (new model backend settings owner).policy.DeclaredIn
      (new model backend settings owner).conic := ⟨by simp [new], by simp [new]⟩
  exact StandardForm.exists_ofModel ((develops_after hnew calls).conic.assemblable
    (ConicModel.assemblable_new _ owner))

/-- The cone backend takes every model that the library writes: what has been compiled, directly or
after lifting, whatever was asked of the compiler before, and every dual. A dual can be dualized
again. -/
theorem emitted_models_assemble :
    (∀ (model : RobustModel ℝ) (backend : β) settings owner calls,
      ∃ f, StandardForm.ofModel ((new model backend settings owner).after calls).conic = .ok f) ∧
    (∀ (c c' : LiftingCompiler ℝ β) (u : Unit), LiftingCompiler.build c = .ok u c' →
      ∃ lifting inner, c'.stage = .lifted lifting inner ∧ inner.isBuilt = true ∧
        ∀ calls, ∃ f, StandardForm.ofModel (inner.after calls).conic = .ok f) ∧
    ∀ (m : ConicModel ℝ) owner d, m.dualize owner = .ok d →
      (∃ f, StandardForm.ofModel d = .ok f) ∧ ∀ owner', ∃ d', d.dualize owner' = .ok d' := by
  refine ⟨exists_ofModel_after, fun c c' u hrun => ?_, fun m owner d hrun => ?_⟩
  · obtain ⟨backend, lifted, lifting, _, inner, -, -, hbuild, hstage⟩ :=
      LiftingCompiler.build_eq_ok hrun
    obtain ⟨-, hbuilt, -⟩ := model_of_build hbuild
    refine ⟨lifting, inner, hstage, hbuilt, fun calls => ?_⟩
    have hinner : (new lifted backend c.settings c.conicOwner).respond .build = inner := by
      rw [respond, Step.perform, hbuild]
    have hcalls := exists_ofModel_after lifted backend c.settings c.conicOwner (.build :: calls)
    rwa [after, List.foldl_cons, hinner] at hcalls
  · exact ⟨StandardForm.exists_ofModel (ConicModel.assemblable_of_dualize hrun),
      ConicModel.exists_dualize_of_dualize hrun⟩

private theorem exists_build_resting :
    ∃ c c' : LiftingCompiler ℝ (Replay ℝ), c.model = LiftingCompiler.resting ∧
      LiftingCompiler.build c = .ok () c' := by
  obtain ⟨b, hb⟩ := LiftingCompiler.build_resting .empty
  have hseries : ∀ s ∈ [LiftedModel.halves], s.IsOver LiftingCompiler.resting.uncertainty :=
    List.forall_mem_singleton.2 LiftedModel.halves_isOver
  have hlifts := LiftedModel.build_lifts hseries hb
  have hcompilable := LiftingCompiler.restingLifted_compilable (b := b) fun k hk v hv => by
    have hmem := (hlifts.valid 0 b rfl k hk).occurs v hv
    rw [hlifts.handles] at hmem
    obtain ⟨j, hj, rfl⟩ := List.mem_map.1 hmem
    exact List.mem_range.1 hj
  obtain ⟨inner, hinner⟩ := build_succeeds hcompilable allOnes ⟨none, none, false, 0, 0⟩ ⟨2⟩
  exact ⟨⟨LiftingCompiler.resting, ⟨false, false⟩, [LiftedModel.halves], _, ⟨1⟩, ⟨2⟩,
    .collecting allOnes, .empty⟩, _, rfl, LiftingCompiler.build_of_lifted rfl hb hinner⟩

/-- The backend takes the capped model after a reoptimization, the lifted resting model and the dual
of the segment. -/
theorem emitted_models_assemble_capped :
    (∃ (c c' : AffineCompiler ℝ (Replay ℝ)) (f : StandardForm ℝ),
      build (new capped allOnes ⟨none, none, false, 0, 0⟩ ⟨0⟩) = .ok () c ∧
        c.addReoptimization [1] = .ok c' ∧ StandardForm.ofModel c'.conic = .ok f) ∧
    (∃ (c c' : LiftingCompiler ℝ (Replay ℝ)) (lifting : Lifting ℝ)
      (inner : AffineCompiler ℝ (Replay ℝ)) (f : StandardForm ℝ),
      c.model = LiftingCompiler.resting ∧ LiftingCompiler.build c = .ok () c' ∧
        c'.stage = .lifted lifting inner ∧ StandardForm.ofModel inner.conic = .ok f) ∧
    ∃ (d d' : ConicModel ℝ) (f : StandardForm ℝ), DualPair.segment.dualize ⟨1⟩ = .ok d ∧
      StandardForm.ofModel d = .ok f ∧ d.dualize ⟨2⟩ = .ok d' := by
  obtain ⟨hdirect, hlifted, hdual⟩ := emitted_models_assemble (β := Replay ℝ)
  refine ⟨?_, ?_, ?_⟩
  · have hcapped : capped.Compilable := capped_compilable (by simp)
    obtain ⟨c, hc⟩ := build_succeeds hcapped allOnes ⟨none, none, false, 0, 0⟩ ⟨0⟩
    obtain ⟨o, ho, hcompiles⟩ := hcapped.objective
    obtain ⟨e, he, -⟩ := (compiled_of_build hc).addReoptimization_eq_ok (r := [1]) rfl ho
      hcompiles.refers
    obtain ⟨f, hf⟩ := hdirect capped allOnes ⟨none, none, false, 0, 0⟩ ⟨0⟩ [.build, .reoptimize [1]]
    have hbuild : respond (new capped allOnes ⟨none, none, false, 0, 0⟩ ⟨0⟩) .build = c := by
      rw [respond, Step.perform, hc]
    rw [after, List.foldl_cons, List.foldl_cons, List.foldl_nil, hbuild, respond, he] at hf
    exact ⟨c, _, f, hc, he, hf⟩
  · obtain ⟨c, c', hmodel, hbuild⟩ := exists_build_resting
    obtain ⟨lifting, inner, hstage, -, hcalls⟩ := hlifted c c' () hbuild
    obtain ⟨f, hf⟩ := hcalls []
    exact ⟨c, c', lifting, inner, f, hmodel, hbuild, hstage, hf⟩
  · obtain ⟨d, hd⟩ : ∃ d, DualPair.segment.dualize ⟨1⟩ = .ok d := ⟨_, rfl⟩
    obtain ⟨⟨f, hf⟩, hagain⟩ := hdual _ _ _ hd
    obtain ⟨d', hd'⟩ := hagain ⟨2⟩
    exact ⟨d, d', f, hd, hf, hd'⟩

end AffineCompiler

end AdjustableRobust
