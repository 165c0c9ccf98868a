import AdjustableRobust.Lifting.Compiler
import AdjustableRobust.Proofs.Keeping
import AdjustableRobust.Proofs.Lifting.Pieces

/-!
# Collecting breakpoints

Breakpoints reach a lifting compiler only as series that it makes over its own model, and the model
stays. So whatever was asked of a compiler before, and whether it failed or not, its series are over
its model when the model is lifted.
-/

namespace AdjustableRobust

namespace LiftingCompiler

/-! ## What outlasts the collection of breakpoints -/

section Keeping

variable {α β : Type} [Scalar α] {I : LiftingCompiler α β → Prop}

/-- Breakpoints for each uncertainty are added one series after the other. -/
theorem keeps_addToEach
    (hI : ∀ points direction, Step.Keeps I (addBreakpoints points direction))
    (points : ℕ → UncertaintyVariable α → List α) : Step.Keeps I (addToEach points) :=
  .bind_get fun _ _ => .forM fun _ _ => hI _ _

/-- Pieces of equal width. -/
theorem keeps_addEquidistant
    (hI : ∀ points direction, Step.Keeps I (addBreakpoints points direction)) (pieces : ℕ) :
    Step.Keeps I (addEquidistant pieces) :=
  keeps_addToEach hI _

/-- Breakpoints induced by sums of magnitudes; the questions about the uncertainty set only leave
messages. -/
theorem keeps_addKappaInduced
    (hI : ∀ points direction, Step.Keeps I (addBreakpoints points direction))
    (hmessages : ∀ c diagnostics, I c → I { c with diagnostics }) (pieces : ℕ) :
    Step.Keeps I (addKappaInduced pieces) := by
  refine .bind_get fun c _ => .bind (.ofChange fun c hc => hmessages c _ hc) fun _ => .check <| ?_
  refine .bind (.ofChange fun c hc => hmessages c _ hc) fun _ => .check <| ?_
  exact .bind .ofExcept fun _ => keeps_addToEach hI _

/-- Induced breakpoints with one piece for each uncertainty. -/
theorem keeps_addFullKappaInduced
    (hI : ∀ points direction, Step.Keeps I (addBreakpoints points direction))
    (hmessages : ∀ c diagnostics, I c → I { c with diagnostics }) :
    Step.Keeps I addFullKappaInduced :=
  .bind_get fun _ _ => keeps_addKappaInduced hI hmessages _

/-- Breakpoints at percentiles. -/
theorem keeps_addPercentiles
    (hI : ∀ points direction, Step.Keeps I (addBreakpoints points direction)) (pieces : ℕ)
    (rows : List (List α)) : Step.Keeps I (addPercentiles pieces rows) := by
  rw [addPercentiles]
  refine .check <| .bind_get fun c _ => ?_
  dsimp only
  split
  · exact .throw
  · exact keeps_addToEach hI _

/-- Building changes neither the model nor the series, at whatever point it fails. -/
theorem keeps_build (hI : ∀ c diagnostics stage, I c → I { c with diagnostics, stage }) :
    Step.Keeps I build := by
  refine .bind_get fun c _ => ?_
  split
  · exact .throw
  · refine .bind (.focus fun c _ hc => hI c _ c.stage hc) fun p =>
      .bind (.modify fun c hc => hI c c.diagnostics _ hc) fun _ => .ofExcept

/-- Solving builds if needed, and then keeps the lifted model. -/
theorem keeps_solve [ConicBackend α β] (hbuild : Step.Keeps I build)
    (hI : ∀ c lifting inner inner', c.stage = .lifted lifting inner → I c →
      I { c with stage := .lifted lifting inner' }) :
    Step.Keeps I solve := by
  refine .bind_get fun c _ => .before hbuild <| .bind_get fun c hc => ?_
  split
  · exact .throw
  · next lifting inner hstage =>
    exact .bind (.set (hI c lifting inner _ hstage hc)) fun _ => .ofExcept

end Keeping

/-! ## Calls -/

/-- What may be asked of a compiler. -/
inductive Call (α : Type) [Scalar α] where
  | breakpoints (points : List α) (direction : LinearExpr α UncertaintyRef)
  | equidistant (pieces : ℕ)
  | kappaInduced (pieces : ℕ)
  /-- Add induced breakpoints with one piece for each uncertainty. -/
  | fullKappaInduced
  /-- Add breakpoints at percentiles of realizations. -/
  | percentiles (pieces : ℕ) (rows : List (List α))
  | options (options : LiftingOptions)
  | settings (settings : SolverSettings α)
  | build
  | solve

/-- The compiler after a call, also if it failed. -/
def answer {α β : Type} [Scalar α] [ConicBackend α β] (c : LiftingCompiler α β) :
    Call α → LiftingCompiler α β
  | .breakpoints points direction => ((addBreakpoints points direction).perform c).2
  | .equidistant pieces => ((addEquidistant pieces).perform c).2
  | .kappaInduced pieces => ((addKappaInduced pieces).perform c).2
  | .fullKappaInduced => (addFullKappaInduced.perform c).2
  | .percentiles pieces rows => ((addPercentiles pieces rows).perform c).2
  | .options options => { c with options }
  | .settings settings => { c with settings }
  | .build => (LiftingCompiler.build.perform c).2
  | .solve => (LiftingCompiler.solve.perform c).2

/-- What every way of changing a compiler keeps, calls keep. -/
theorem answer_of_keeps {α β : Type} [Scalar α] [ConicBackend α β] {I : LiftingCompiler α β → Prop}
    (hbreakpoints : ∀ points direction, Step.Keeps I (addBreakpoints points direction))
    (hchoices : ∀ c options settings diagnostics, I c → I { c with options, settings, diagnostics })
    (hbuild : Step.Keeps I LiftingCompiler.build) (hsolve : Step.Keeps I LiftingCompiler.solve)
    {c : LiftingCompiler α β} (hc : I c) (call : Call α) : I (c.answer call) := by
  have hmessages : ∀ c diagnostics, I c → I { c with diagnostics } := fun c diagnostics hc =>
    hchoices c c.options c.settings diagnostics hc
  cases call with
  | breakpoints points direction => exact hbreakpoints points direction c hc
  | equidistant pieces => exact keeps_addEquidistant hbreakpoints pieces c hc
  | kappaInduced pieces => exact keeps_addKappaInduced hbreakpoints hmessages pieces c hc
  | fullKappaInduced => exact keeps_addFullKappaInduced hbreakpoints hmessages c hc
  | percentiles pieces rows => exact keeps_addPercentiles hbreakpoints pieces rows c hc
  | options options => exact hchoices c options c.settings c.diagnostics hc
  | settings settings => exact hchoices c c.options settings c.diagnostics hc
  | build => exact hbuild c hc
  | solve => exact hsolve c hc

/-! ## Series over the model -/

variable {β : Type}

/-- Every series was made over the model of the compiler. -/
def SeriesOver (c : LiftingCompiler ℝ β) : Prop :=
  ∀ s ∈ c.series, s.IsOver c.model.uncertainty

/-- A new compiler has no series. -/
theorem seriesOver_new (model : RobustModel ℝ) (backend : β) (settings : SolverSettings ℝ)
    (liftedOwner conicOwner : OwnerId) :
    (new model backend settings liftedOwner conicOwner).SeriesOver := by
  simp [SeriesOver, new]

/-- A series is added only once it is made over the model. -/
theorem keeps_addBreakpoints (points : List ℝ) (direction : LinearExpr ℝ UncertaintyRef) :
    Step.Keeps SeriesOver (addBreakpoints (β := β) points direction) := by
  refine .bind_get fun c hc => .check <| .bind_ofExcept fun s hs => .set ?_
  exact List.forall_mem_append.2 ⟨hc, List.forall_mem_singleton.2 ⟨points, direction, hs⟩⟩

variable [ConicBackend ℝ β]

/-- No call adds a series that is not over the model. -/
theorem SeriesOver.answer {c : LiftingCompiler ℝ β} (hc : c.SeriesOver) (call : Call ℝ) :
    (c.answer call).SeriesOver :=
  have hbuild : Step.Keeps SeriesOver LiftingCompiler.build := keeps_build fun _ _ _ hc => hc
  answer_of_keeps keeps_addBreakpoints (fun _ _ _ _ hc => hc) hbuild
    (keeps_solve hbuild fun _ _ _ _ _ hc => hc) hc call

/-- Whatever was asked of a new compiler, its series are over its model. -/
theorem seriesOver_foldl_answer (model : RobustModel ℝ) (backend : β) (settings : SolverSettings ℝ)
    (liftedOwner conicOwner : OwnerId) (calls : List (Call ℝ)) :
    (calls.foldl answer (new model backend settings liftedOwner conicOwner)).SeriesOver :=
  List.foldlRecOn calls answer (seriesOver_new _ _ _ _ _) fun _ hc call _ => hc.answer call

end LiftingCompiler

end AdjustableRobust
