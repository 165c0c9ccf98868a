import AdjustableRobust.Proofs.Keeping
import AdjustableRobust.Proofs.Lifting.Draft

/-!
# Wiring of decisions

A robust model is built up by adding to it. Whatever was added, and in whatever order, a decision
with a period depends on exactly the uncertainties that are revealed by then, in the order of the
uncertainties, every decision depends on uncertainties of the model only, and there is always an
alternative.
-/

namespace AdjustableRobust

namespace RobustModel

/-- The model was built up from an empty one. -/
inductive Reachable : RobustModel ℝ → Prop where
  | new (name : String) (owner : OwnerId) : Reachable (.new name owner)
  | addDecision {m m' : RobustModel ℝ} {name : String} {period? : Option ℕ}
      {lower? upper? : Option ℝ} {h : DecisionRef} :
      m.Reachable → m.addDecision name period? lower? upper? = .ok (h, m') → Reachable m'
  | addDecisionDependingOn {m m' : RobustModel ℝ} {name : String} {us : List UncertaintyRef}
      {lower? upper? : Option ℝ} {h : DecisionRef} : m.Reachable →
        m.addDecisionDependingOn name us lower? upper? = .ok (h, m') → Reachable m'
  | setPolicy {m m' : RobustModel ℝ} {h : DecisionRef} {p : AffinePolicy ℝ} : m.Reachable →
      m.setPolicy h p = .ok m' → Reachable m'
  | addUncertainty {m m' : RobustModel ℝ} {name : String} {period? : Option ℕ}
      {lower? upper? : Option ℝ} {h : UncertaintyRef} : m.Reachable →
        m.addUncertainty name period? lower? upper? = .ok (h, m') → Reachable m'
  | addUncertaintyConstraint {m m' : RobustModel ℝ} {name : String}
      {c : RawConstraint (ConicExpr ℝ UncertaintyRef)} : m.Reachable →
        m.addUncertaintyConstraint name c = .ok m' → Reachable m'
  | addUncertaintyConstraintTo {m m' : RobustModel ℝ} {set : ConstraintSetRef} {name : String}
      {c : RawConstraint (ConicExpr ℝ UncertaintyRef)} : m.Reachable →
        m.addUncertaintyConstraintTo set name c = .ok m' → Reachable m'
  | addAlternative {m : RobustModel ℝ} : m.Reachable → Reachable m.addAlternative.2
  | addSpecialConstraint {m m' : RobustModel ℝ} {type : SpecialSetType} {budget : ℝ} :
      m.Reachable → m.addSpecialConstraint type budget = .ok m' → Reachable m'
  | clearUncertaintyConstraints {m : RobustModel ℝ} : m.Reachable →
      Reachable m.clearUncertaintyConstraints
  | addConstraint {m : RobustModel ℝ} (name : String) (c : RawConstraint (UncertainExpr ℝ)) :
      m.Reachable → Reachable (m.addConstraint name c)
  | setObjective {m : RobustModel ℝ} (o : RobustObjective ℝ) : m.Reachable →
      Reachable (m.setObjective o)
  | setDistribution {m : RobustModel ℝ} (d : Distribution ℝ) : m.Reachable →
      Reachable (m.setDistribution d)

/-- Variables that are added in turn, also up to a failure, lead to models that were built up. -/
theorem keeps_addFamily {κ : EntityKind} {n : ℕ}
    {add : RobustModel ℝ → ℕ → Except (ModelError ℝ) (Handle κ × RobustModel ℝ)}
    (hadd : ∀ m i h m', m.Reachable → add m i = .ok (h, m') → m'.Reachable) :
    Step.Keeps Reachable (addFamily n add) := by
  rw [addFamily]
  induction List.range n with
  | nil => exact .pure
  | cons i is ih =>
    rw [List.mapM_cons]
    refine .bind (.bind_get fun m hm => .bind_ofExcept fun p hp => ?_) fun h =>
      .bind ih fun hs => .pure
    exact .bind (.set (hadd m i p.1 p.2 hm hp)) fun _ => .pure

/-- Decisions with a period depend on what is revealed by then, and there is an alternative. -/
structure Wired (m : RobustModel ℝ) : Prop where
  revealed : ∀ d ∈ m.decisions.items, ∀ period, d.period? = some period →
    d.dependencies = m.revealedBy period
  alternatives : 0 < m.uncertainty.alternatives.size

namespace Wired

variable {m m' : RobustModel ℝ}

/-- An empty model has one alternative. -/
theorem new (name : String) (owner : OwnerId) : (RobustModel.new name owner).Wired :=
  ⟨by simp [RobustModel.new], Nat.one_pos⟩

/-- Only decisions, uncertainties and the number of alternatives matter. -/
theorem congr (h : m.Wired) (hdecisions : m'.decisions = m.decisions)
    (hvars : m'.uncertainty.vars = m.uncertainty.vars)
    (hsize : 0 < m'.uncertainty.alternatives.size) : m'.Wired := by
  refine ⟨fun d hd period hperiod => ?_, hsize⟩
  rw [hdecisions] at hd
  rw [h.revealed d hd period hperiod, revealedBy, revealedBy, hvars]

/-- A new decision is wired if its dependencies are those of its period. -/
theorem pushDecision (h : m.Wired) {d : DecisionVariable ℝ}
    (hd : ∀ period, d.period? = some period → d.dependencies = m.revealedBy period) :
    (m.pushDecision d).2.Wired := by
  refine ⟨fun d' hd' period hperiod => ?_, h.alternatives⟩
  rcases List.mem_append.1 (show d' ∈ m.decisions.items ++ [d] from hd') with hd' | hd'
  · exact h.revealed d' hd' period hperiod
  · obtain rfl := List.mem_singleton.1 hd'
    exact hd period hperiod

/-- Attaching a policy leaves periods and dependencies alone. -/
theorem setPolicy (h : m.Wired) {x : DecisionRef} {p : AffinePolicy ℝ}
    (hrun : m.setPolicy x p = .ok m') : m'.Wired := by
  simp only [RobustModel.setPolicy, Store.modify, bind_eq_ok_iff, pure_eq_ok_iff, liftM_eq_ok_iff]
    at hrun
  obtain ⟨_, ⟨_, -, rfl⟩, rfl⟩ := hrun
  refine ⟨fun d hd period hperiod => ?_, h.alternatives⟩
  obtain ⟨i, hi, rfl⟩ := List.getElem_of_mem hd
  simp only [List.length_modify] at hi
  have hold := h.revealed _ (List.getElem_mem hi) period
  simp only [List.getElem_modify] at hperiod ⊢
  split at hperiod
  · next hslot =>
    rw [if_pos hslot]
    exact hold hperiod
  · next hslot =>
    rw [if_neg hslot]
    exact hold hperiod

/-- A new uncertainty is the last dependency of all decisions that are taken once it is
revealed. -/
theorem addUncertainty (h : m.Wired) {name : String} {period? : Option ℕ}
    {lower? upper? : Option ℝ} {x : UncertaintyRef}
    (hrun : m.addUncertainty name period? lower? upper? = .ok (x, m')) : m'.Wired := by
  obtain ⟨halternatives, -, v, hperiod, -, -, hentries⟩ := addUncertainty_eq_ok hrun
  have hrevealed : ∀ period, m'.revealedBy period =
      m.revealedBy period ++ if period?.any (· ≤ period) then [x] else [] := fun period => by
    rw [revealedBy_eq_flatMap, hentries, List.flatMap_append, ← revealedBy_eq_flatMap,
      List.flatMap_singleton, hperiod]
  refine ⟨fun d hd period hd' => ?_, halternatives ▸ h.alternatives⟩
  rw [hrevealed]
  rw [RobustModel.addUncertainty, bind_eq_ok_iff] at hrun
  obtain ⟨b, -, hrun⟩ := hrun
  obtain ⟨rfl, rfl⟩ := Prod.mk.inj (pure_eq_ok_iff.1 hrun)
  cases period? with
  | none => rw [h.revealed d hd period hd', Option.any_none, if_neg Bool.false_ne_true,
      List.append_nil]
  | some revealed =>
    obtain ⟨d, hmem, rfl⟩ := List.mem_map.1 hd
    have hold : d.period? = some period := by
      split at hd' <;> exact hd'
    rw [hold, Option.any_some, Option.any_some]
    split <;> simp [h.revealed d hmem period hold]

end Wired

private theorem wired_of_addUncertaintyConstraintTo {m m' : RobustModel ℝ} {set : ConstraintSetRef}
    {name : String} {c : RawConstraint (ConicExpr ℝ UncertaintyRef)} (h : m.Wired)
    (hrun : m.addUncertaintyConstraintTo set name c = .ok m') : m'.Wired := by
  rw [addUncertaintyConstraintTo_eq_ok hrun]
  exact h.congr rfl rfl (lt_of_lt_of_eq h.alternatives (List.length_modify _ _ _).symm)

private theorem exists_addUncertaintyConstraintTo_special {m m' : RobustModel ℝ}
    {type : SpecialSetType} {budget : ℝ} (hrun : m.addSpecialConstraint type budget = .ok m') :
    ∃ set name c, m.addUncertaintyConstraintTo set name c = .ok m' := by
  obtain ⟨s, hs, hrun⟩ := bind_eq_ok_iff.1 hrun
  have hadd : ∃ name c, m.uncertainty.addConstraint name c = .ok s := by
    cases type with
    | ball => exact ⟨_, _, hs⟩
    | budget => exact ⟨_, _, hs⟩
    | box => cases hs
    | other => cases hs
  obtain ⟨name, c, hadd⟩ := hadd
  obtain ⟨set, -, hset⟩ := exists_addUncertaintyConstraintTo (bind_eq_ok_iff.2 ⟨s, hadd, hrun⟩)
  exact ⟨set, name, c, hset⟩

/-- A model that was built up is wired. -/
theorem Reachable.wired {m : RobustModel ℝ} (h : m.Reachable) : m.Wired := by
  induction h with
  | new name owner => exact .new name owner
  | addDecision _ hrun ih =>
    obtain ⟨b, -, hrun⟩ := bind_eq_ok_iff.1 hrun
    obtain ⟨-, rfl⟩ := Prod.mk.inj (pure_eq_ok_iff.1 hrun)
    exact ih.pushDecision fun period hperiod => by
      cases hperiod
      rfl
  | addDecisionDependingOn _ hrun ih =>
    obtain ⟨b, -, hrun⟩ := bind_eq_ok_iff.1 hrun
    obtain ⟨_, -, hrun⟩ := bind_eq_ok_iff.1 hrun
    obtain ⟨-, rfl⟩ := Prod.mk.inj (pure_eq_ok_iff.1 hrun)
    exact ih.pushDecision fun period hperiod => by cases hperiod
  | setPolicy _ hrun ih => exact ih.setPolicy hrun
  | addUncertainty _ hrun ih => exact ih.addUncertainty hrun
  | addUncertaintyConstraint _ hrun ih =>
    obtain ⟨_, -, hset⟩ := exists_addUncertaintyConstraintTo hrun
    exact wired_of_addUncertaintyConstraintTo ih hset
  | addUncertaintyConstraintTo _ hrun ih => exact wired_of_addUncertaintyConstraintTo ih hrun
  | addAlternative _ ih => exact ih.congr rfl rfl (by simp [RobustModel.addAlternative,
      UncertaintySet.addAlternative, Store.size])
  | addSpecialConstraint _ hrun ih =>
    obtain ⟨_, _, _, hset⟩ := exists_addUncertaintyConstraintTo_special hrun
    exact wired_of_addUncertaintyConstraintTo ih hset
  | clearUncertaintyConstraints _ ih => exact ih.congr rfl rfl Nat.one_pos
  | addConstraint _ _ _ ih => exact ih.congr rfl rfl ih.alternatives
  | setObjective _ _ ih => exact ih.congr rfl rfl ih.alternatives
  | setDistribution _ _ ih => exact ih.congr rfl rfl ih.alternatives

/-! ## Dependencies -/

/-- Decisions depend on uncertainties of the model only. -/
def Connected (m : RobustModel ℝ) : Prop :=
  ∀ d ∈ m.decisions.items, ∀ u ∈ d.dependencies, ∃ v, m.uncertainty.variableAt u = .ok v

namespace Connected

variable {m m' : RobustModel ℝ}

/-- Only decisions and uncertainties matter. -/
theorem congr (h : m.Connected) (hdecisions : m'.decisions = m.decisions)
    (hvars : m'.uncertainty.vars = m.uncertainty.vars) : m'.Connected := by
  intro d hd u hu
  rw [hdecisions] at hd
  obtain ⟨v, hv⟩ := h d hd u hu
  refine ⟨v, ?_⟩
  rwa [UncertaintySet.variableAt_eq_ok_iff, hvars, ← UncertaintySet.variableAt_eq_ok_iff]

/-- A new decision may depend on uncertainties of the model. -/
theorem pushDecision (h : m.Connected) {d : DecisionVariable ℝ}
    (hd : ∀ u ∈ d.dependencies, ∃ v, m.uncertainty.variableAt u = .ok v) :
    (m.pushDecision d).2.Connected := by
  intro d' hd'
  rcases List.mem_append.1 (show d' ∈ m.decisions.items ++ [d] from hd') with hd' | hd'
  · exact h d' hd'
  · obtain rfl := List.mem_singleton.1 hd'
    exact hd

/-- Attaching a policy leaves dependencies alone. -/
theorem setPolicy (h : m.Connected) {x : DecisionRef} {p : AffinePolicy ℝ}
    (hrun : m.setPolicy x p = .ok m') : m'.Connected := by
  simp only [RobustModel.setPolicy, Store.modify, bind_eq_ok_iff, pure_eq_ok_iff, liftM_eq_ok_iff]
    at hrun
  obtain ⟨_, ⟨_, -, rfl⟩, rfl⟩ := hrun
  intro d hd
  obtain ⟨i, hi, rfl⟩ := List.getElem_of_mem hd
  simp only [List.length_modify] at hi
  have hold := h _ (List.getElem_mem hi)
  rw [List.getElem_modify]
  split <;> exact hold

/-- Handles of uncertainties keep working when an uncertainty is added, and the new one works. -/
theorem addUncertainty (h : m.Connected) {name : String} {period? : Option ℕ}
    {lower? upper? : Option ℝ} {x : UncertaintyRef}
    (hrun : m.addUncertainty name period? lower? upper? = .ok (x, m')) : m'.Connected := by
  rw [RobustModel.addUncertainty, bind_eq_ok_iff] at hrun
  obtain ⟨b, -, hrun⟩ := hrun
  obtain ⟨rfl, rfl⟩ := Prod.mk.inj (pure_eq_ok_iff.1 hrun)
  have hold : ∀ d ∈ m.decisions.items, ∀ u ∈ d.dependencies,
      ∃ v, (m.uncertainty.addVariable ⟨name, period?, b⟩).2.variableAt u = .ok v := by
    intro d hd u hu
    obtain ⟨v, hv⟩ := h d hd u hu
    obtain ⟨howner, hepoch, hitem⟩ := UncertaintySet.variableAt_eq_ok_iff.1 hv
    refine ⟨v, UncertaintySet.variableAt_eq_ok_iff.2 ⟨howner, hepoch, ?_⟩⟩
    have hlt := (List.getElem?_eq_some_iff.1 hitem).1
    exact (List.getElem?_append_left hlt).trans hitem
  cases period? with
  | none => exact hold
  | some period =>
    intro d hd u hu
    obtain ⟨d, hmem, rfl⟩ := List.mem_map.1 hd
    split at hu
    · rcases List.mem_append.1 hu with hu | hu
      · exact hold d hmem u hu
      · obtain rfl := List.mem_singleton.1 hu
        exact ⟨_, UncertaintySet.variableAt_eq_ok_iff.2 ⟨rfl, rfl, List.getElem?_concat_length⟩⟩
    · exact hold d hmem u hu

/-- Constraining an alternative leaves decisions and uncertainties alone. -/
theorem addUncertaintyConstraintTo (h : m.Connected) {set : ConstraintSetRef} {name : String}
    {c : RawConstraint (ConicExpr ℝ UncertaintyRef)}
    (hrun : m.addUncertaintyConstraintTo set name c = .ok m') : m'.Connected := by
  rw [addUncertaintyConstraintTo_eq_ok hrun]
  exact h.congr rfl rfl

end Connected

/-- An uncertainty is revealed up to a period when it belongs to the model and has a period that is
not later. -/
theorem mem_revealedBy_iff {m : RobustModel ℝ} {period : ℕ} {u : UncertaintyRef} :
    u ∈ m.revealedBy period ↔
      ∃ v q, m.uncertainty.variableAt u = .ok v ∧ v.period? = some q ∧ q ≤ period := by
  simp only [revealedBy, List.mem_map, List.mem_filter, Store.mem_entries_iff,
    UncertaintySet.variableAt_eq_ok_iff, Option.any_eq_true, decide_eq_true_eq]
  constructor
  · rintro ⟨⟨u, v⟩, ⟨⟨i, hi, rfl⟩, q, hq, hle⟩, rfl⟩
    exact ⟨v, q, ⟨rfl, rfl, hi⟩, hq, hle⟩
  · rintro ⟨v, q, ⟨howner, hepoch, hi⟩, hq, hle⟩
    refine ⟨(u, v), ⟨⟨u.slot, hi, ?_⟩, q, hq, hle⟩, rfl⟩
    obtain ⟨owner, epoch, slot⟩ := u
    obtain rfl := howner
    obtain rfl := hepoch
    rfl

private theorem exists_of_forM_eq_ok {us : List UncertaintyRef} {s : UncertaintySet ℝ} {x : Unit}
    (hrun : (us.forM fun u => do
      let _ ← s.variableAt u : Except (ModelError ℝ) Unit) = .ok x) :
    ∀ u ∈ us, ∃ v, s.variableAt u = .ok v := by
  induction us with
  | nil => simp
  | cons u us ih =>
    obtain ⟨_, hfirst, hrest⟩ := bind_eq_ok_iff.1 hrun
    obtain ⟨v, hv, -⟩ := bind_eq_ok_iff.1 hfirst
    exact List.forall_mem_cons.2 ⟨⟨v, hv⟩, ih hrest⟩

/-- In a model that was built up, decisions depend on uncertainties of the model. -/
theorem Reachable.connected {m : RobustModel ℝ} (h : m.Reachable) : m.Connected := by
  induction h with
  | new name owner => exact fun d hd => absurd hd List.not_mem_nil
  | addDecision _ hrun ih =>
    obtain ⟨b, -, hrun⟩ := bind_eq_ok_iff.1 hrun
    obtain ⟨-, rfl⟩ := Prod.mk.inj (pure_eq_ok_iff.1 hrun)
    refine ih.pushDecision fun u hu => ?_
    dsimp only at hu
    split at hu
    · obtain ⟨v, -, hv, -⟩ := mem_revealedBy_iff.1 hu
      exact ⟨v, hv⟩
    · cases hu
  | addDecisionDependingOn _ hrun ih =>
    obtain ⟨b, -, hrun⟩ := bind_eq_ok_iff.1 hrun
    obtain ⟨_, hcheck, hrun⟩ := bind_eq_ok_iff.1 hrun
    obtain ⟨-, rfl⟩ := Prod.mk.inj (pure_eq_ok_iff.1 hrun)
    exact ih.pushDecision (exists_of_forM_eq_ok hcheck)
  | setPolicy _ hrun ih => exact ih.setPolicy hrun
  | addUncertainty _ hrun ih => exact ih.addUncertainty hrun
  | addUncertaintyConstraint _ hrun ih =>
    obtain ⟨_, -, hset⟩ := exists_addUncertaintyConstraintTo hrun
    exact ih.addUncertaintyConstraintTo hset
  | addUncertaintyConstraintTo _ hrun ih => exact ih.addUncertaintyConstraintTo hrun
  | addAlternative _ ih => exact ih.congr rfl rfl
  | addSpecialConstraint _ hrun ih =>
    obtain ⟨_, _, _, hset⟩ := exists_addUncertaintyConstraintTo_special hrun
    exact ih.addUncertaintyConstraintTo hset
  | clearUncertaintyConstraints _ ih => exact ih.congr rfl rfl
  | addConstraint _ _ _ ih => exact ih.congr rfl rfl
  | setObjective _ _ ih => exact ih.congr rfl rfl
  | setDistribution _ _ ih => exact ih.congr rfl rfl

end RobustModel

end AdjustableRobust
