import AdjustableRobust.Proofs.Lifting.Causes
import AdjustableRobust.Proofs.Lifting.Collection
import AdjustableRobust.Proofs.Robust.Edits
import AdjustableRobust.Solver.Replay

/-!
# Stages of a lifting compiler

A compiler says that it was built, refuses to be built or extended any more, and lifts realizations.
Whatever was asked of it before, and whether it failed or not, these answers agree exactly when the
latest compilation of its lifted model succeeded. A compilation that fails leaves the lifted model
in place: the compiler behaves as one that was built, and says that it was not.
-/

namespace AdjustableRobust

namespace LiftingCompiler

open PolicyError

variable {α β : Type} [Scalar α] {c : LiftingCompiler α β}

/-- The answers of a compiler that presuppose that it was built are given only if it says so. -/
structure Honest (c : LiftingCompiler α β) : Prop where
  /-- It refuses to be built again. -/
  build : (build.perform c).1 = .error (.solver .alreadyBuilt) → c.isBuilt = true
  /-- It refuses to be extended. -/
  breakpoints : ∀ points direction,
    ((addBreakpoints points direction).perform c).1 = .error (.solver .alreadyBuilt) →
      c.isBuilt = true
  /-- It answers for lifted realizations. -/
  lift : ∀ r, c.lift r ≠ .error .notBuilt → c.isBuilt = true

/-! ## What a state answers -/

/-- Before the lifted model exists, building lifts the model and has the lifted one compiled. -/
theorem perform_build_collecting {backend : β} (hc : c.stage = .collecting backend) :
    build.perform c =
      match (LiftedModel.build c.model c.series c.options c.liftedOwner).perform c.diagnostics with
      | (.error e, d) => (.error e, { c with diagnostics := d })
      | (.ok (lifted, lifting), d) =>
        let inner := AffineCompiler.build.perform (.new lifted backend c.settings c.conicOwner)
        (inner.1, { c with diagnostics := d, stage := .lifted lifting inner.2 }) := by
  rw [build, Step.perform_bind, Step.perform_get]
  simp only [hc, Step.perform_bind, Step.perform_focus, Step.perform_modify]
  cases (LiftedModel.build c.model c.series c.options c.liftedOwner).perform c.diagnostics with
  | mk result d =>
    cases result with
    | error e => rfl
    | ok p =>
      obtain ⟨lifted, lifting⟩ := p
      cases hrun : AffineCompiler.build.perform (.new lifted backend c.settings c.conicOwner) with
      | mk result inner => cases result <;> simp [Except.mapError, hrun] <;> rfl

/-- Once the lifted model exists, building is refused. -/
theorem perform_build_lifted {lifting : Lifting α} {inner : AffineCompiler α β}
    (hc : c.stage = .lifted lifting inner) :
    build.perform c = (.error (.solver .alreadyBuilt), c) := by
  rw [build, Step.perform_bind, Step.perform_get]
  simp only [hc]
  rfl

/-- Before the lifted model exists, the compiler was not built, and behaves so. -/
theorem honest_collecting {backend : β} (hc : c.stage = .collecting backend) : c.Honest where
  build h := by
    rw [perform_build_collecting hc] at h
    have hlifted := LiftedModel.build_blames c.model c.series c.options c.liftedOwner c.diagnostics
    cases hrun : (LiftedModel.build c.model c.series c.options c.liftedOwner).perform
        c.diagnostics with
    | mk result d =>
      rw [hrun] at h hlifted
      cases result with
      | error e =>
        obtain rfl := Except.error.inj h
        exact (hlifted _ rfl).elim
      | ok p => exact (AffineCompiler.build_blames (c := .new p.1 backend c.settings c.conicOwner)
          rfl _ h).elim
  breakpoints points direction h := by
    have hinner : c.inner? = none := by rw [inner?, hc]
    rw [addBreakpoints, Step.perform_bind, Step.perform_get] at h
    dsimp only at h
    rw [hinner, if_neg (by simp)] at h
    have hblames : Step.Blames OfInput (σ := LiftingCompiler α β) (do
        let s ← Step.ofExcept id (BreakpointSeries.make points direction c.model.uncertaintyScope)
        set { c with series := c.series ++ [s] }) :=
      .bind (.ofExcept (BreakpointSeries.make_blames _ _ _)) fun _ => fun _ => .pure
    exact (hblames c _ h).elim
  lift r h := by
    rw [LiftingCompiler.lift, hc] at h
    exact absurd rfl h

/-- Once the lifted model exists, the compiler behaves as one that was built. -/
theorem honest_lifted_iff {lifting : Lifting α} {inner : AffineCompiler α β}
    (hc : c.stage = .lifted lifting inner) : c.Honest ↔ inner.isBuilt = true := by
  have hbuilt : c.isBuilt = inner.isBuilt := by
    rw [isBuilt, inner?, hc]
    rfl
  rw [← hbuilt]
  constructor
  · intro h
    refine h.build ?_
    rw [perform_build_lifted hc]
  · exact fun h => ⟨fun _ => h, fun _ _ _ => h, fun _ _ => h⟩

/-! ## Sequences of calls -/

/-- The compilation of a lifted model that building comes to, if the model can be lifted. -/
def compilation? (c : LiftingCompiler α β) (backend : β) : Option (Except (PolicyError α) Unit) :=
  match (LiftedModel.build c.model c.series c.options c.liftedOwner).perform c.diagnostics with
  | (.error _, _) => none
  | (.ok (lifted, _), _) =>
    some (AffineCompiler.build.perform (.new lifted backend c.settings c.conicOwner)).1

/-- The compiler of the lifted model, with the current settings. -/
def prepared (c : LiftingCompiler α β) (inner : AffineCompiler α β) : AffineCompiler α β :=
  inner.modifySolver fun s => { s with settings := c.settings }

/-- The compilation of a lifted model that a call comes to. Solving tries again after one that
failed. -/
def attempt? (c : LiftingCompiler α β) : Call α → Option (Except (PolicyError α) Unit)
  | .build =>
    match c.stage with
    | .collecting backend => c.compilation? backend
    | .lifted _ _ => none
  | .solve =>
    match c.stage with
    | .collecting backend => c.compilation? backend
    | .lifted _ inner =>
      if inner.isBuilt then none else some (AffineCompiler.build.perform (c.prepared inner)).1
  | _ => none

/-- The stage that a compiler has reached goes with the latest compilation of a lifted model. -/
def Tracks (p : LiftingCompiler α β × Option (Except (PolicyError α) Unit)) : Prop :=
  match p.1.stage with
  | .collecting _ => p.2 = none
  | .lifted _ inner => ∃ result, p.2 = some result ∧ (inner.isBuilt = true ↔ result = .ok ())

/-- Building leaves the lifted model with its compilation, if there is one. -/
theorem tracks_build {backend : β} (hc : c.stage = .collecting backend) :
    Tracks ((build.perform c).2, c.compilation? backend) := by
  rw [perform_build_collecting hc, compilation?]
  cases (LiftedModel.build c.model c.series c.options c.liftedOwner).perform c.diagnostics with
  | mk result d =>
    cases result with
    | error e =>
      rw [Tracks]
      simp only [hc]
    | ok p => exact ⟨_, rfl, AffineCompiler.isBuilt_build rfl⟩

/-- A build that succeeds leaves the compiler of the lifted model built. -/
theorem stage_of_build {backend : β} {u : Unit} {t : LiftingCompiler α β}
    (hc : c.stage = .collecting backend) (hrun : build.perform c = (.ok u, t)) :
    ∃ lifting inner, t.stage = .lifted lifting inner ∧ inner.isBuilt = true := by
  rw [perform_build_collecting hc] at hrun
  cases hlifted : (LiftedModel.build c.model c.series c.options c.liftedOwner).perform
      c.diagnostics with
  | mk result d =>
    rw [hlifted] at hrun
    cases result with
    | error e => cases hrun
    | ok p =>
      obtain ⟨hresult, rfl⟩ := Prod.mk.inj hrun
      exact ⟨p.2, _, rfl, (AffineCompiler.isBuilt_build rfl).2 hresult⟩

/-- Breakpoints do not change the stage. -/
theorem keeps_stage_addBreakpoints (stage : LiftingStage α β) (points : List α)
    (direction : LinearExpr α UncertaintyRef) :
    Step.Keeps (fun c : LiftingCompiler α β => c.stage = stage) (addBreakpoints points direction) :=
  .bind_get fun _ hc => .check <| .bind_ofExcept fun _ _ => .set hc

/-- The answers agree where the latest compilation of a lifted model succeeded. -/
theorem Tracks.honest_iff {p : LiftingCompiler α β × Option (Except (PolicyError α) Unit)}
    (hp : Tracks p) : p.1.Honest ↔ ∀ result, p.2 = some result → result = .ok () := by
  obtain ⟨c, last⟩ := p
  cases hc : c.stage with
  | collecting backend =>
    simp only [Tracks, hc] at hp
    rw [hp]
    exact iff_of_true (honest_collecting hc) nofun
  | lifted lifting inner =>
    simp only [Tracks, hc] at hp
    obtain ⟨result, rfl, hiff⟩ := hp
    simp only [honest_lifted_iff hc, hiff, Option.some.injEq, forall_eq']

variable [ConicBackend α β]

/-- Once the lifted model exists, solving solves it. -/
theorem stage_solve_lifted {lifting : Lifting α} {inner : AffineCompiler α β}
    (hc : c.stage = .lifted lifting inner) :
    (solve.perform c).2.stage =
      .lifted lifting (AffineCompiler.solve.perform (c.prepared inner)).2 := by
  have hinner : c.inner?.isNone = false := by
    rw [inner?, hc]
    rfl
  set solved := AffineCompiler.solve.perform (c.prepared inner) with hsolved
  have hlast : Step.Keeps (fun t : LiftingCompiler α β => t.stage = .lifted lifting solved.2)
      (Step.ofExcept id solved.1) := .ofExcept
  rw [solve, Step.perform_bind, Step.perform_get]
  simp only [hinner, Bool.false_eq_true, if_false, Step.perform_bind, Step.perform_get, hc]
  exact hlast { c with stage := .lifted lifting solved.2 } rfl

/-- Before the lifted model exists, solving builds first. -/
theorem perform_solve_collecting {backend : β} (hc : c.stage = .collecting backend) :
    (solve.perform c).2 = match build.perform c with
      | (.error _, t) => t
      | (.ok _, t) => (solve.perform t).2 := by
  have hinner : c.inner?.isNone = true := by
    rw [inner?, hc]
    rfl
  rw [solve, Step.perform_bind, Step.perform_get]
  simp only [hinner, if_true, Step.perform_bind]
  cases hrun : build.perform c with
  | mk result t =>
    cases result with
    | error e => rfl
    | ok u =>
      obtain ⟨lifting, inner, ht, -⟩ := stage_of_build hc hrun
      have ht' : t.inner?.isNone = false := by
        rw [inner?, ht]
        rfl
      simp only [ht', Bool.false_eq_true, if_false, Step.perform_bind, Step.perform_get]

/-- The compiler after a call, next to the latest compilation of a lifted model. -/
def respond (p : LiftingCompiler α β × Option (Except (PolicyError α) Unit)) (call : Call α) :
    LiftingCompiler α β × Option (Except (PolicyError α) Unit) :=
  (p.1.answer call, (p.1.attempt? call).or p.2)

/-- The compiler after a sequence of calls, next to the latest compilation of a lifted model. -/
def after (c : LiftingCompiler α β) (calls : List (Call α)) :
    LiftingCompiler α β × Option (Except (PolicyError α) Unit) :=
  calls.foldl respond (c, none)

/-- Solving leaves the lifted model with its compilation, if there is one. -/
theorem tracks_solve_collecting {backend : β} (hc : c.stage = .collecting backend) :
    Tracks ((solve.perform c).2, c.compilation? backend) := by
  have hbuild := tracks_build hc
  rw [perform_solve_collecting hc]
  cases hrun : build.perform c with
  | mk result t =>
    rw [hrun] at hbuild
    cases result with
    | error e => exact hbuild
    | ok u =>
      obtain ⟨lifting, inner, ht, hinner⟩ := stage_of_build hc hrun
      simp only [Tracks, ht] at hbuild
      obtain ⟨result, hresult, hiff⟩ := hbuild
      simp only [Tracks, stage_solve_lifted ht]
      exact ⟨result, hresult,
        iff_of_true (AffineCompiler.isBuilt_solve.2 (.inl hinner)) (hiff.1 hinner)⟩

/-- A call that comes to no compilation of a lifted model leaves the stage alone. -/
theorem stage_answer (c : LiftingCompiler α β) {call : Call α} (hbuild : call ≠ .build)
    (hsolve : call ≠ .solve) : (c.answer call).stage = c.stage ∧ c.attempt? call = none := by
  have hkeeps := keeps_stage_addBreakpoints c.stage
  cases call with
  | breakpoints points direction => exact ⟨hkeeps points direction c rfl, rfl⟩
  | equidistant pieces => exact ⟨keeps_addEquidistant hkeeps pieces c rfl, rfl⟩
  | kappaInduced pieces => exact ⟨keeps_addKappaInduced hkeeps (fun _ _ h => h) pieces c rfl, rfl⟩
  | fullKappaInduced => exact ⟨keeps_addFullKappaInduced hkeeps (fun _ _ h => h) c rfl, rfl⟩
  | percentiles pieces rows => exact ⟨keeps_addPercentiles hkeeps pieces rows c rfl, rfl⟩
  | options options => exact ⟨rfl, rfl⟩
  | settings settings => exact ⟨rfl, rfl⟩
  | build => exact absurd rfl hbuild
  | solve => exact absurd rfl hsolve

/-- Every call leaves the stage with the latest compilation of a lifted model. -/
theorem Tracks.respond {p : LiftingCompiler α β × Option (Except (PolicyError α) Unit)}
    (hp : Tracks p) (call : Call α) : Tracks (respond p call) := by
  obtain ⟨c, last⟩ := p
  by_cases hcall : call = .build ∨ call = .solve
  · cases hc : c.stage with
    | collecting backend =>
      simp only [Tracks, hc] at hp
      rw [LiftingCompiler.respond, hp, Option.or_none]
      obtain rfl | rfl := hcall
      · rw [attempt?, hc]
        exact tracks_build hc
      · rw [attempt?, hc]
        exact tracks_solve_collecting hc
    | lifted lifting inner =>
      obtain rfl | rfl := hcall
      · rw [LiftingCompiler.respond, attempt?, answer, perform_build_lifted hc, hc, Option.none_or]
        exact hp
      · simp only [Tracks, hc] at hp
        obtain ⟨result, hresult, hiff⟩ := hp
        simp only [Tracks, LiftingCompiler.respond, attempt?, answer, stage_solve_lifted hc, hc,
          AffineCompiler.isBuilt_solve]
        cases hinner : inner.isBuilt with
        | true => exact ⟨result, hresult, iff_of_true (.inl hinner) (hiff.1 hinner)⟩
        | false =>
          refine ⟨_, rfl, ?_⟩
          rw [or_iff_right]
          exact fun h => Bool.false_ne_true (hinner.symm.trans h)
  · obtain ⟨hbuild, hsolve⟩ := not_or.1 hcall
    obtain ⟨hstage, hattempt⟩ := stage_answer c hbuild hsolve
    rw [LiftingCompiler.respond, hattempt, Option.none_or]
    simp only [Tracks, hstage]
    exact hp

/-- Whatever was asked of a new compiler, and wherever it failed, its answers agree exactly when the
latest compilation of its lifted model, if there was one, succeeded. -/
theorem honest_after_iff (model : RobustModel α) (backend : β) (settings : SolverSettings α)
    (liftedOwner conicOwner : OwnerId) (calls : List (Call α)) :
    (after (new model backend settings liftedOwner conicOwner) calls).1.Honest ↔
      ∀ result, (after (new model backend settings liftedOwner conicOwner) calls).2 = some result →
        result = .ok () := by
  have htracks : Tracks (after (new model backend settings liftedOwner conicOwner) calls) :=
    List.foldlRecOn calls LiftingCompiler.respond rfl fun _ hp call _ => hp.respond call
  exact htracks.honest_iff

/-- The objective is an expectation, and there is no distribution to take it under. -/
noncomputable def unpriced : RobustModel ℝ :=
  (RobustModel.new "unpriced" ⟨0⟩).edited [.uncertainty "u" none none none,
    .objective (.new .minimize ((UncertainExpr.uncertainty ⟨⟨0⟩, 0, 0⟩).withMode .stochastic))]

/-- The compiler after an attempt to build it. -/
noncomputable def unpricedCompiler :
    LiftingCompiler ℝ (Replay ℝ) × Option (Except (PolicyError ℝ) Unit) :=
  after (new unpriced (.new []) ⟨none, none, false, 0, 0⟩ ⟨1⟩ ⟨2⟩) [.build]

/-- When the lifted model does not compile, the compiler says that it was not built, but refuses to
be built, refuses breakpoints, and lifts realizations. -/
theorem not_honest_unpriced :
    unpricedCompiler.1.isBuilt = false ∧
      (build.perform unpricedCompiler.1).1 = .error (.solver .alreadyBuilt) ∧
        ((addBreakpoints [0] (.var ⟨⟨0⟩, 0, 0⟩)).perform unpricedCompiler.1).1 =
            .error (.solver .alreadyBuilt) ∧
          unpricedCompiler.1.lift [1] = .ok [1] ∧ ¬unpricedCompiler.1.Honest := by
  have hbuilt : unpricedCompiler.1.isBuilt = false := rfl
  have hbuild : (build.perform unpricedCompiler.1).1 = .error (.solver .alreadyBuilt) := rfl
  refine ⟨hbuilt, hbuild, rfl, rfl, fun h => ?_⟩
  exact Bool.false_ne_true (hbuilt.symm.trans (h.build hbuild))

end LiftingCompiler

end AdjustableRobust
