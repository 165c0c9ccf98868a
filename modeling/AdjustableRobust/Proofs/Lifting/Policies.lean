import AdjustableRobust.Proofs.Lifting.Decisions
import AdjustableRobust.Proofs.Policy.Rules
import AdjustableRobust.Proofs.Robust.Wiring

/-!
# Policies of the base model as policies of the lifted model

An affine rule in base uncertainties is an affine rule in their pieces: each piece gets the
coefficient of its uncertainty, and the constant takes up what the uncertainties are at the origin
of their axes. Then a lifted decision is at every lifted realization what the base decision is at
the retracted one, and so is every expression.
-/

namespace AdjustableRobust

/-- The rule in terms of pieces: all pieces of an axis get the coefficient of the uncertainty, and
the constant is shifted by the origins of the axes. -/
noncomputable def DecisionRule.lift (axes : List (LiftedAxis ℝ)) (us : List UncertaintyRef)
    (k : DecisionRule) : DecisionRule where
  factors := (us.zip k.factors).flatMap fun x =>
    (axes[x.1.slot]?.elim [] (·.vars)).map fun _ => x.2
  constant := k.constant + ((us.zip k.factors).map fun x =>
    x.2 * axes[x.1.slot]?.elim 0 (·.origin)).sum

namespace LiftedModel

variable {model lifted : RobustModel ℝ} {axes : List (LiftedAxis ℝ)}

/-- Values of the base uncertainties at values of the lifted ones. -/
noncomputable def retracted (axes : List (LiftedAxis ℝ)) (U : ℕ → ℝ) : ℕ → ℝ :=
  entryAt (axes.map (·.retract (bySlot U)))

/-- The retracted value of an uncertainty is that of its axis. -/
theorem bySlot_retracted {u : UncertaintyRef} {axis : LiftedAxis ℝ}
    (h : axes[u.slot]? = some axis) (U : ℕ → ℝ) :
    bySlot (retracted axes U) u = axis.retract (bySlot U) := by
  simp [bySlot, retracted, entryAt, List.getD_eq_getElem?_getD, h]

/-- A lifted rule decides at a lifted realization what the rule decides at the retracted one. -/
theorem value_lift {us : List UncertaintyRef} (hus : ∀ u ∈ us, u.slot < axes.length)
    (k : DecisionRule) (U : ℕ → ℝ) :
    (k.lift axes us).value (piecesOf axes us) U = k.value us (retracted axes U) := by
  obtain ⟨fs, b⟩ := k
  simp only [DecisionRule.value, DecisionRule.lift, add_assoc]
  congr 1
  rw [piecesOf]
  induction us generalizing fs with
  | nil => simp
  | cons u us ih =>
    cases fs with
    | nil => simp
    | cons x fs =>
      rw [List.forall_mem_cons] at hus
      have haxis : axes[u.slot]? = some axes[u.slot] := List.getElem?_eq_getElem hus.1
      have hpieces : (List.zipWith (fun d a => a * bySlot U d) axes[u.slot].vars
          (axes[u.slot].vars.map fun _ => x)).sum = x * (axes[u.slot].vars.map (bySlot U)).sum := by
        rw [List.zipWith_map_right, List.zipWith_self, List.sum_map_mul_left]
      rw [List.zip_cons_cons, List.map_cons, List.sum_cons, List.flatMap_cons, List.flatMap_cons,
        haxis, Option.elim_some, Option.elim_some, List.zipWith_append (by rw [List.length_map]),
        List.sum_append, hpieces, List.zipWith_cons_cons, List.sum_cons, ← ih hus.2 fs,
        bySlot_retracted haxis, LiftedAxis.retract]
      ring

/-- There is one coefficient for each piece. -/
theorem length_lift {us : List UncertaintyRef} {k : DecisionRule}
    (h : us.length ≤ k.factors.length) :
    (k.lift axes us).factors.length = (piecesOf axes us).length := by
  have hfst : (us.zip k.factors).map (·.1) = us := List.map_fst_zip h
  simp only [DecisionRule.lift, piecesOf, List.length_flatMap, List.length_map]
  nth_rewrite 2 [← hfst]
  rw [List.map_map]
  rfl

/-! ## Decisions and expressions -/

private theorem flatMap_zip {β γ δ : Type} (f : β → γ → List δ) (xs : List β) (ys : List γ) :
    (xs.zip ys).flatMap (fun p => f p.1 p.2) =
      xs.zipIdx.flatMap fun p => ys[p.2]?.elim [] (f p.1) := by
  suffices h : ∀ k, (xs.zip (ys.drop k)).flatMap (fun p => f p.1 p.2) =
      (xs.zipIdx k).flatMap fun p => ys[p.2]?.elim [] (f p.1) from h 0
  induction xs with
  | nil => simp
  | cons x xs ih =>
    intro k
    rw [List.zipIdx_cons, List.flatMap_cons, ← ih (k + 1)]
    by_cases hk : k < ys.length
    · rw [List.drop_eq_getElem_cons hk, List.zip_cons_cons, List.flatMap_cons,
        List.getElem?_eq_getElem hk, Option.elim_some]
    · rw [List.drop_eq_nil_of_le (not_lt.1 hk),
        List.drop_eq_nil_of_le (Nat.le_succ_of_le (not_lt.1 hk)),
        List.getElem?_eq_none (not_lt.1 hk)]
      simp

/-- What is revealed of the lifted uncertainties are the pieces of what is revealed. -/
theorem Mirrors.revealedBy_eq (h : Mirrors model lifted axes) (period : ℕ) :
    lifted.revealedBy period = piecesOf axes (model.revealedBy period) := by
  rw [h.revealed, flatMap_zip (revealedPieces period), RobustModel.revealedBy_eq_flatMap, piecesOf,
    List.flatMap_assoc, Store.entries, List.flatMap_map]
  refine List.flatMap_congr fun x _ => ?_
  cases haxis : axes[x.2]? <;> by_cases hx : x.1.period?.any (· ≤ period) <;>
    simp [revealedPieces, Store.handleFor, haxis, hx]

/-- A lifted decision depends on the pieces of what the base decision depends on. -/
theorem Mirrors.dependencies (h : Mirrors model lifted axes) (hmodel : model.Wired) :
    List.Forall₂ (fun (d d' : DecisionVariable ℝ) =>
      d'.dependencies = piecesOf axes d.dependencies) model.decisions.items
        lifted.decisions.items := by
  refine List.forall₂_iff_get.2 ⟨h.decisions.length_eq, fun i hi hi' => ?_⟩
  have hlifts := h.decisions.get hi hi'
  rw [hlifts.dependencies]
  cases hperiod : (model.decisions.items.get ⟨i, hi⟩).period? with
  | none => rfl
  | some period =>
    rw [Option.elim_some, h.revealedBy_eq,
      hmodel.revealed _ (List.get_mem _ ⟨i, hi⟩) period hperiod]

/-- The rules of all decisions in terms of pieces. -/
noncomputable def liftRules (model : RobustModel ℝ) (axes : List (LiftedAxis ℝ))
    (ks : List DecisionRule) : List DecisionRule :=
  List.zipWith (fun d k => k.lift axes d.dependencies) model.decisions.items ks

section Rules

variable {p p' : PolicyVariables} {m m' : ConicModel ℝ} {ω ω' : ConicRef → ℝ}

/-- The rules in terms of pieces have the right numbers of coefficients. -/
theorem Mirrors.lengths_liftRules (h : Mirrors model lifted axes) (hmodel : model.Wired)
    (hp : p.Fill model m) (ω : ConicRef → ℝ) :
    (liftRules model axes (p.rules ω)).map (·.factors.length) =
      lifted.decisions.items.map (·.dependencies.length) := by
  refine List.ext_getElem ?_ fun i hi hi' => ?_
  · rw [List.length_map, List.length_map, liftRules, List.length_zipWith, hp.length_rules, min_self]
    exact h.decisions.length_eq
  · rw [List.length_map, liftRules, List.length_zipWith, lt_min_iff] at hi
    have hfactors : i < p.factors.length := hp.length_factors ▸ hi.1
    have hsize : p.factors[i].length = model.decisions.items[i].dependencies.length := by
      have hget := congrArg (·[i]?) hp.factors
      simpa [hfactors, hi.1] using hget
    rw [List.length_map] at hi'
    have hdependencies : lifted.decisions.items[i].dependencies =
        piecesOf axes model.decisions.items[i].dependencies := (h.dependencies hmodel).get hi.1 hi'
    rw [List.getElem_map, List.getElem_map, hdependencies]
    simp only [liftRules, List.getElem_zipWith, PolicyVariables.rules]
    exact length_lift (hsize.symm.le.trans (List.length_map ω).symm.le)

/-- Lifted decisions follow the rules in terms of pieces. -/
theorem Mirrors.decisionValue_eq (h : Mirrors model lifted axes) (hmodel : model.Wired)
    (hlength : axes.length = model.numUncertainties) (hp : p.Fill model m) (hp' : p'.Fill lifted m')
    (hrules : p'.rules ω' = liftRules model axes (p.rules ω)) (U : ℕ → ℝ) (x : DecisionRef) :
    p'.decisionValue lifted ω' U (lifted.decisions.handleFor x.slot) =
      p.decisionValue model ω (retracted axes U) x := by
  by_cases hx : x.slot < model.decisions.items.length
  · have hx' : x.slot < lifted.decisions.items.length := h.decisions.length_eq ▸ hx
    have hk : x.slot < (p.rules ω).length := hp.length_rules ω ▸ hx
    have hd := List.getElem?_eq_getElem hx
    have hd' := List.getElem?_eq_getElem hx'
    have hrule' : (p'.rules ω')[x.slot]? =
        some ((p.rules ω)[x.slot].lift axes model.decisions.items[x.slot].dependencies) := by
      rw [hrules, liftRules, List.getElem?_zipWith, hd, List.getElem?_eq_getElem hk]
    have hdependencies : lifted.decisions.items[x.slot].dependencies =
        piecesOf axes model.decisions.items[x.slot].dependencies :=
      (h.dependencies hmodel).get hx hx'
    rw [hp.decisionValue_eq hd (List.getElem?_eq_getElem hk),
      hp'.decisionValue_eq (x := lifted.decisions.handleFor x.slot) hd' hrule', hdependencies]
    refine value_lift (fun u hu => ?_) _ U
    obtain ⟨v, hv⟩ := hp.dependencies _ (List.getElem_mem hx) u hu
    rw [hlength]
    exact UncertaintySet.slot_lt_of_variableAt hv
  · have hx' : ¬x.slot < lifted.decisions.items.length := h.decisions.length_eq ▸ hx
    rw [PolicyVariables.decisionValue, PolicyVariables.decisionValue,
      List.getElem?_eq_none (not_lt.1 hx)]
    simp [Store.handleFor, not_lt.1 hx']

/-- A lifted expression has under the rules in terms of pieces the value that the base expression
has at the retracted realization. -/
theorem Carries.underPolicies_eq {e e' : UncertainExpr ℝ}
    (hcarries : Carries model lifted axes e e') (h : Mirrors model lifted axes)
    (hmodel : model.Wired)
    (hlength : axes.length = model.numUncertainties) (hp : p.Fill model m) (hp' : p'.Fill lifted m')
    (hrules : p'.rules ω' = liftRules model axes (p.rules ω)) (U : ℕ → ℝ) :
    e'.underPolicies lifted p' ω' U = e.underPolicies model p ω (retracted axes U) := by
  rw [UncertainExpr.underPolicies, hcarries.eval]
  simp only [h.decisionValue_eq hmodel hlength hp hp' hrules]
  rfl

end Rules

end LiftedModel

end AdjustableRobust
