import AdjustableRobust.Proofs.Lifting.Policies
import AdjustableRobust.Proofs.Lifting.Soundness

/-!
# Edits of robust models

A robust model is edited through its interface: variables are added one by one or in families, and
what else it consists of is set in between. An edit that fails leaves what it had reached. Whatever
the edits and their order, a decision with a period depends on the uncertainties that are revealed
by then, and one without on those that it was created with; lifting replaces every one of them by
its pieces.
-/

namespace AdjustableRobust

/-- What determines the dependencies of a decision. -/
inductive Wiring where
  /-- They follow from the period in which it is taken. -/
  | period (p : ℕ)
  /-- They are given once and for all. -/
  | given (us : List UncertaintyRef)
  deriving DecidableEq

/-- Without a period the dependencies are the given ones. -/
def Wiring.of (period? : Option ℕ) (us : List UncertaintyRef) : Wiring :=
  period?.elim (.given us) .period

/-- What determines the dependencies of the decision. -/
def DecisionVariable.wiring (d : DecisionVariable ℝ) : Wiring := .of d.period? d.dependencies

namespace RobustModel

variable {m m' : RobustModel ℝ}

/-! ## What is revealed -/

/-- What is revealed stands in the order of the uncertainties, without repetition. -/
theorem pairwise_revealedBy (m : RobustModel ℝ) (period : ℕ) :
    (m.revealedBy period).Pairwise (·.slot < ·.slot) := by
  have hhandles : m.uncertainty.vars.handles.Pairwise (·.slot < ·.slot) := by
    rw [Store.handles, List.pairwise_map]
    exact List.pairwise_lt_range
  refine hhandles.sublist ?_
  rw [revealedBy, ← Store.map_fst_entries]
  exact List.filter_sublist.map _

/-! ## Wiring of new decisions -/

/-- The wiring of all decisions. -/
def wirings (m : RobustModel ℝ) : List Wiring := m.decisions.items.map (·.wiring)

/-- A new decision is wired by its period, or depends on nothing. -/
theorem wirings_addDecision {name : String} {period? : Option ℕ} {lower? upper? : Option ℝ}
    {h : DecisionRef} (hrun : m.addDecision name period? lower? upper? = .ok (h, m')) :
    m'.wirings = m.wirings ++ [.of period? []] := by
  obtain ⟨b, -, hrun⟩ := bind_eq_ok_iff.1 hrun
  obtain ⟨-, rfl⟩ := Prod.mk.inj (pure_eq_ok_iff.1 hrun)
  cases period? <;> simp [wirings, DecisionVariable.wiring, Wiring.of]

/-- A new decision with given dependencies keeps them. -/
theorem wirings_addDecisionDependingOn {name : String} {us : List UncertaintyRef}
    {lower? upper? : Option ℝ} {h : DecisionRef}
    (hrun : m.addDecisionDependingOn name us lower? upper? = .ok (h, m')) :
    m'.wirings = m.wirings ++ [.given us] := by
  obtain ⟨b, -, hrun⟩ := bind_eq_ok_iff.1 hrun
  obtain ⟨_, -, hrun⟩ := bind_eq_ok_iff.1 hrun
  obtain ⟨-, rfl⟩ := Prod.mk.inj (pure_eq_ok_iff.1 hrun)
  simp [wirings, DecisionVariable.wiring, Wiring.of]

/-- A new uncertainty is a new dependency of decisions that are wired by their period only. -/
theorem wirings_addUncertainty {name : String} {period? : Option ℕ} {lower? upper? : Option ℝ}
    {h : UncertaintyRef} (hrun : m.addUncertainty name period? lower? upper? = .ok (h, m')) :
    m'.wirings = m.wirings := by
  obtain ⟨b, -, hrun⟩ := bind_eq_ok_iff.1 hrun
  obtain ⟨-, rfl⟩ := Prod.mk.inj (pure_eq_ok_iff.1 hrun)
  cases period? with
  | none => rfl
  | some revealed =>
    simp only [wirings, Store.mapItems, List.map_map]
    refine List.map_congr_left fun d _ => ?_
    rw [Function.comp_apply]
    cases hd : d.period? with
    | none => simp
    | some period =>
      split <;> simp [DecisionVariable.wiring, Wiring.of, hd]

/-- A policy does not change how a decision is wired. -/
theorem wirings_setPolicy {d : DecisionRef} {p : AffinePolicy ℝ}
    (hrun : m.setPolicy d p = .ok m') : m'.wirings = m.wirings := by
  simp only [setPolicy, Store.modify, bind_eq_ok_iff, pure_eq_ok_iff, liftM_eq_ok_iff] at hrun
  obtain ⟨_, ⟨_, -, rfl⟩, rfl⟩ := hrun
  refine List.ext_getElem (by simp [wirings]) fun i hi hi' => ?_
  simp only [wirings, List.getElem_map, List.getElem_modify]
  split <;> rfl

/-- A family adds its members in turn, up to a failure. -/
theorem exists_perform_addFamily {κ : EntityKind} {n : ℕ}
    {add : RobustModel ℝ → ℕ → Except (ModelError ℝ) (Handle κ × RobustModel ℝ)}
    {I : ℕ → RobustModel ℝ → Prop}
    (hadd : ∀ i m h m', I i m → add m i = .ok (h, m') → I (i + 1) m') (hm : I 0 m) :
    ∃ k, I k ((addFamily n add).perform m).2 := by
  rw [addFamily, List.range_eq_range']
  generalize 0 = first at hm
  induction n generalizing first m with
  | zero => exact ⟨first, hm⟩
  | succ n ih =>
    rw [List.range'_succ, List.mapM_cons, Step.perform_bind, Step.perform_bind, Step.perform_get]
    dsimp only
    rw [Step.perform_bind]
    cases hrun : add m first with
    | error e => exact ⟨first, hm⟩
    | ok p =>
      obtain ⟨k, hk⟩ := ih (first + 1) (hadd first m p.1 p.2 hm hrun)
      exact ⟨k, Step.Keeps.bind_of_perform hk fun hs => .pure (b := p.1 :: hs)⟩

/-! ## Edits -/

/-- A change to a robust model through its interface. -/
inductive Edit where
  | decision (name : String) (period? : Option ℕ) (lower? upper? : Option ℝ)
  | decisionDependingOn (name : String) (us : List UncertaintyRef) (lower? upper? : Option ℝ)
  | decisions (n : ℕ) (name : String) (period? : Option ℕ) (lower? upper? : Option ℝ)
  | decisionsByPeriod (n : ℕ) (name : String) (first : ℕ) (lower? upper? : Option ℝ)
  | uncertainty (name : String) (period? : Option ℕ) (lower? upper? : Option ℝ)
  | uncertainties (n : ℕ) (name : String) (period? : Option ℕ) (lower? upper? : Option ℝ)
  | uncertaintiesByPeriod (n : ℕ) (name : String) (first : ℕ) (lower? upper? : Option ℝ)
  | policy (d : DecisionRef) (p : AffinePolicy ℝ)
  | uncertaintyConstraint (name : String) (c : RawConstraint (ConicExpr ℝ UncertaintyRef))
  | uncertaintyConstraintTo (set : ConstraintSetRef) (name : String)
      (c : RawConstraint (ConicExpr ℝ UncertaintyRef))
  | specialConstraint (type : SpecialSetType) (budget : ℝ)
  | alternative
  | clearUncertaintyConstraints
  | constraint (name : String) (c : RawConstraint (UncertainExpr ℝ))
  | objective (o : RobustObjective ℝ)
  | distribution (d : Distribution ℝ)

/-- The model that a change results in; a change that fails leaves the model. -/
def keepIfError (m : RobustModel ℝ) : Except (ModelError ℝ) (RobustModel ℝ) → RobustModel ℝ
  | .ok m' => m'
  | .error _ => m

/-- The model after an edit, whether it succeeds or not. -/
noncomputable def edit (m : RobustModel ℝ) : Edit → RobustModel ℝ
  | .decision name period? lower? upper? =>
    m.keepIfError ((m.addDecision name period? lower? upper?).map (·.2))
  | .decisionDependingOn name us lower? upper? =>
    m.keepIfError ((m.addDecisionDependingOn name us lower? upper?).map (·.2))
  | .decisions n name period? lower? upper? =>
    ((addDecisions n name period? lower? upper?).perform m).2
  | .decisionsByPeriod n name first lower? upper? =>
    ((addDecisionsByPeriod n name first lower? upper?).perform m).2
  | .uncertainty name period? lower? upper? =>
    m.keepIfError ((m.addUncertainty name period? lower? upper?).map (·.2))
  | .uncertainties n name period? lower? upper? =>
    ((addUncertainties n name period? lower? upper?).perform m).2
  | .uncertaintiesByPeriod n name first lower? upper? =>
    ((addUncertaintiesByPeriod n name first lower? upper?).perform m).2
  | .policy d p => m.keepIfError (m.setPolicy d p)
  | .uncertaintyConstraint name c => m.keepIfError (m.addUncertaintyConstraint name c)
  | .uncertaintyConstraintTo set name c => m.keepIfError (m.addUncertaintyConstraintTo set name c)
  | .specialConstraint type budget => m.keepIfError (m.addSpecialConstraint type budget)
  | .alternative => m.addAlternative.2
  | .clearUncertaintyConstraints => m.clearUncertaintyConstraints
  | .constraint name c => m.addConstraint name c
  | .objective o => m.setObjective o
  | .distribution d => m.setDistribution d

/-- The model after some edits. -/
noncomputable def edited (m : RobustModel ℝ) (edits : List Edit) : RobustModel ℝ :=
  edits.foldl edit m

/-- How an edit wires the decisions that it adds, by their number. -/
def Edit.wiring : Edit → ℕ → Wiring
  | .decision _ period? _ _, _ => .of period? []
  | .decisionDependingOn _ us _ _, _ => .given us
  | .decisions _ _ period? _ _, _ => .of period? []
  | .decisionsByPeriod _ _ first _ _, i => .period (first + i)
  | _, _ => .given []

/-- A change leads to what holds of the model and of every result of it. -/
theorem keepIfError_of {P : RobustModel ℝ → Prop} {x : Except (ModelError ℝ) (RobustModel ℝ)}
    (hm : P m) (hx : ∀ m', x = .ok m' → P m') : P (m.keepIfError x) := by
  cases x with
  | error e => exact hm
  | ok m' => exact hx m' rfl

/-- Adding a variable leads to what holds of the model and of every result of it. -/
theorem keepIfError_map_of {P : RobustModel ℝ → Prop} {κ : EntityKind}
    {x : Except (ModelError ℝ) (Handle κ × RobustModel ℝ)} (hm : P m)
    (hx : ∀ h m', x = .ok (h, m') → P m') : P (m.keepIfError (x.map (·.2))) := by
  cases x with
  | error e => exact hm
  | ok p => exact hx p.1 p.2 rfl

/-- An edit leads from a model that was built up to one. -/
theorem Reachable.edit (h : m.Reachable) (e : Edit) : (m.edit e).Reachable := by
  cases e with
  | decision name period? lower? upper? =>
    exact keepIfError_map_of h fun _ _ hrun => .addDecision h hrun
  | decisionDependingOn name us lower? upper? =>
    exact keepIfError_map_of h fun _ _ hrun => .addDecisionDependingOn h hrun
  | decisions n name period? lower? upper? =>
    exact keeps_addFamily (fun _ _ _ _ hm hrun => hm.addDecision hrun) m h
  | decisionsByPeriod n name first lower? upper? =>
    exact keeps_addFamily (fun _ _ _ _ hm hrun => hm.addDecision hrun) m h
  | uncertainty name period? lower? upper? =>
    exact keepIfError_map_of h fun _ _ hrun => .addUncertainty h hrun
  | uncertainties n name period? lower? upper? =>
    exact keeps_addFamily (fun _ _ _ _ hm hrun => hm.addUncertainty hrun) m h
  | uncertaintiesByPeriod n name first lower? upper? =>
    exact keeps_addFamily (fun _ _ _ _ hm hrun => hm.addUncertainty hrun) m h
  | policy d p => exact keepIfError_of h fun _ hrun => .setPolicy h hrun
  | uncertaintyConstraint name c =>
    exact keepIfError_of h fun _ hrun => .addUncertaintyConstraint h hrun
  | uncertaintyConstraintTo set name c =>
    exact keepIfError_of h fun _ hrun => .addUncertaintyConstraintTo h hrun
  | specialConstraint type budget =>
    exact keepIfError_of h fun _ hrun => .addSpecialConstraint h hrun
  | alternative => exact .addAlternative h
  | clearUncertaintyConstraints => exact .clearUncertaintyConstraints h
  | constraint name c => exact .addConstraint name c h
  | objective o => exact .setObjective o h
  | distribution d => exact .setDistribution d h

/-- Edits lead from a model that was built up to one. -/
theorem Reachable.edited (h : m.Reachable) (edits : List Edit) : (m.edited edits).Reachable := by
  induction edits generalizing m with
  | nil => exact h
  | cons e edits ih => exact ih (h.edit e)

/-- The decisions stay wired as they are, and new ones are wired one after the other. -/
def Wires (w : ℕ → Wiring) (m m' : RobustModel ℝ) : Prop :=
  ∃ k, m'.wirings = m.wirings ++ (List.range k).map w

/-- Without new decisions the wiring stays. -/
theorem Wires.of_eq {w : ℕ → Wiring} (h : m'.wirings = m.wirings) : Wires w m m' :=
  ⟨0, by simp [h]⟩

/-- Decisions of a family are wired in turn. -/
theorem wires_addFamily {n : ℕ}
    {add : RobustModel ℝ → ℕ → Except (ModelError ℝ) (DecisionRef × RobustModel ℝ)} {w : ℕ → Wiring}
    (hadd : ∀ m i h m', add m i = .ok (h, m') → m'.wirings = m.wirings ++ [w i]) :
    Wires w m ((addFamily n add).perform m).2 := by
  refine exists_perform_addFamily
    (I := fun k m' => m'.wirings = m.wirings ++ (List.range k).map w)
      (fun i m₁ h m₂ hm hrun => ?_) ?_
  · rw [hadd m₁ i h m₂ hrun, hm, List.range_succ, List.map_append, List.append_assoc]
    rfl
  · simp

/-- Uncertainties of a family wire no decision. -/
theorem wirings_addFamily_of_eq {κ : EntityKind} {n : ℕ}
    {add : RobustModel ℝ → ℕ → Except (ModelError ℝ) (Handle κ × RobustModel ℝ)}
    (hadd : ∀ m i h m', add m i = .ok (h, m') → m'.wirings = m.wirings) :
    ((addFamily n add).perform m).2.wirings = m.wirings := by
  obtain ⟨_, h⟩ := exists_perform_addFamily (n := n) (m := m)
    (I := fun _ m' => m'.wirings = m.wirings)
    (fun i m₁ h m₂ hm hrun => (hadd m₁ i h m₂ hrun).trans hm) rfl
  exact h

/-- A change of the uncertainty set wires no decision. -/
theorem wirings_withUncertainty {x : Except (ModelError ℝ) (UncertaintySet ℝ)}
    (hrun : (do return { m with uncertainty := ← x }) = .ok m') : m'.wirings = m.wirings := by
  obtain ⟨s, -, hrun⟩ := bind_eq_ok_iff.1 hrun
  obtain rfl := pure_eq_ok_iff.1 hrun
  rfl

/-- An edit leaves the wiring of the decisions that are there, and wires those that it adds. -/
theorem wires_edit (m : RobustModel ℝ) (e : Edit) : Wires e.wiring m (m.edit e) := by
  cases e with
  | decision name period? lower? upper? =>
    exact keepIfError_map_of (.of_eq rfl) fun _ _ hrun => ⟨1, wirings_addDecision hrun⟩
  | decisionDependingOn name us lower? upper? =>
    exact keepIfError_map_of (.of_eq rfl) fun _ _ hrun => ⟨1, wirings_addDecisionDependingOn hrun⟩
  | decisions n name period? lower? upper? =>
    exact wires_addFamily fun _ _ _ _ hrun => wirings_addDecision hrun
  | decisionsByPeriod n name first lower? upper? =>
    exact wires_addFamily fun _ _ _ _ hrun => wirings_addDecision hrun
  | uncertainty name period? lower? upper? =>
    exact keepIfError_map_of (.of_eq rfl) fun _ _ hrun => .of_eq (wirings_addUncertainty hrun)
  | uncertainties n name period? lower? upper? =>
    exact .of_eq (wirings_addFamily_of_eq fun _ _ _ _ hrun => wirings_addUncertainty hrun)
  | uncertaintiesByPeriod n name first lower? upper? =>
    exact .of_eq (wirings_addFamily_of_eq fun _ _ _ _ hrun => wirings_addUncertainty hrun)
  | policy d p => exact keepIfError_of (.of_eq rfl) fun _ hrun => .of_eq (wirings_setPolicy hrun)
  | uncertaintyConstraint name c =>
    exact keepIfError_of (.of_eq rfl) fun _ hrun => .of_eq (wirings_withUncertainty hrun)
  | uncertaintyConstraintTo set name c =>
    exact keepIfError_of (.of_eq rfl) fun _ hrun => .of_eq (wirings_withUncertainty hrun)
  | specialConstraint type budget =>
    exact keepIfError_of (.of_eq rfl) fun _ hrun => .of_eq (wirings_withUncertainty hrun)
  | alternative => exact .of_eq rfl
  | clearUncertaintyConstraints => exact .of_eq rfl
  | constraint name c => exact .of_eq rfl
  | objective o => exact .of_eq rfl
  | distribution d => exact .of_eq rfl

/-- Edits are made one after the other. -/
theorem edited_concat (m : RobustModel ℝ) (edits : List Edit) (e : Edit) :
    m.edited (edits ++ [e]) = (m.edited edits).edit e := by
  rw [edited, List.foldl_append]
  rfl

/-- Every decision was added by one of the edits, and is wired as that edit wires it. -/
theorem exists_edit_of_wirings {m : RobustModel ℝ} (hm : m.decisions.items = []) {edits : List Edit}
    {i : ℕ} {w : Wiring} (hw : (m.edited edits).wirings[i]? = some w) :
    ∃ before e later, edits = before ++ e :: later ∧ (m.edited before).numDecisions ≤ i ∧
      i < (m.edited (before ++ [e])).numDecisions ∧
        w = e.wiring (i - (m.edited before).numDecisions) := by
  induction edits using List.reverseRecOn with
  | nil => simp [edited, wirings, hm] at hw
  | append_singleton edits e ih =>
    obtain ⟨k, hk⟩ := wires_edit (m.edited edits) e
    rw [← edited_concat] at hk
    have hsize : ∀ m : RobustModel ℝ, m.wirings.length = m.numDecisions := fun m => by
      simp [wirings, numDecisions, Store.size]
    by_cases hi : i < (m.edited edits).numDecisions
    · rw [hk, List.getElem?_append_left (by rwa [hsize])] at hw
      obtain ⟨before, e', later, rfl, hfrom, hto, hwired⟩ := ih hw
      exact ⟨before, e', later ++ [e], by simp, hfrom, hto, hwired⟩
    · have hlt : i < (m.edited (edits ++ [e])).numDecisions :=
        hsize _ ▸ (List.getElem?_eq_some_iff.1 hw).1
      refine ⟨edits, e, [], rfl, not_lt.1 hi, hlt, ?_⟩
      rw [hk, List.getElem?_append_right (by rw [hsize]; exact not_lt.1 hi), hsize] at hw
      obtain ⟨j, hj, rfl⟩ := Option.map_eq_some_iff.1 (List.getElem?_map .. ▸ hw)
      obtain ⟨-, rfl⟩ := List.getElem?_eq_some_iff.1 hj
      rw [List.getElem_range]

/-! ## Wiring of edited and lifted models -/

/-- In a wired model the dependencies of decisions are uncertainties with an axis. -/
theorem Wired.slot_lt_of_mem_dependencies (h : m.Wired) {lifted : RobustModel ℝ}
    {axes : List (LiftedAxis ℝ)} (hmirrors : LiftedModel.Mirrors m lifted axes)
    (hlength : axes.length = m.numUncertainties) {d : DecisionVariable ℝ}
    (hd : d ∈ m.decisions.items) {u : UncertaintyRef} (hu : u ∈ d.dependencies) :
    u.slot < axes.length := by
  cases hperiod : d.period? with
  | some period =>
    rw [h.revealed d hd period hperiod, mem_revealedBy_iff] at hu
    obtain ⟨v, -, hv, -⟩ := hu
    exact hlength ▸ UncertaintySet.slot_lt_of_variableAt hv
  | none =>
    obtain ⟨d', -, hlifts⟩ := exists_of_forall₂_left hmirrors.decisions hd
    exact hlifts.inside hperiod u hu

/-- Wiring without anticipation: whatever the edits that a model was made with and their order,
a decision with a period depends on exactly the uncertainties that are revealed by then, each once
and in order, and one without on those that the edit which added it has given. In a model that is
lifted from it, the lifted variables stand axis by axis in the place of their uncertainties, also
among the dependencies of every decision. -/
theorem edited_wired (name : String) (owner : OwnerId) (edits : List Edit) :
    let m := (RobustModel.new name owner).edited edits
    (∀ d ∈ m.decisions.items, ∀ period, d.period? = some period →
      d.dependencies.Pairwise (·.slot < ·.slot) ∧
        ∀ u, u ∈ d.dependencies ↔
          ∃ v q, m.uncertainty.variableAt u = .ok v ∧ v.period? = some q ∧ q ≤ period) ∧
    (∀ i d, m.decisions.items[i]? = some d →
      ∃ before e later, edits = before ++ e :: later ∧
        ((RobustModel.new name owner).edited before).numDecisions ≤ i ∧
        i < ((RobustModel.new name owner).edited (before ++ [e])).numDecisions ∧
        Wiring.of d.period? d.dependencies =
          e.wiring (i - ((RobustModel.new name owner).edited before).numDecisions)) ∧
    ∀ series, (∀ s ∈ series, s.IsOver m.uncertainty) → ∀ options liftedOwner lifted lifting k k',
      LiftedModel.build m series options liftedOwner k = .ok (lifted, lifting) k' →
        lifting.IsOver m.uncertainty ∧
        lifting.axes.flatMap (·.vars) = lifted.uncertainty.vars.handles ∧
        (∀ d ∈ m.decisions.items, ∀ u ∈ d.dependencies, u.slot < lifting.axes.length) ∧
        List.Forall₂ (fun (d d' : DecisionVariable ℝ) =>
          d'.dependencies = LiftedModel.piecesOf lifting.axes d.dependencies)
            m.decisions.items lifted.decisions.items := by
  intro m
  have hwired : m.Wired := ((Reachable.new name owner).edited edits).wired
  refine ⟨fun d hd period hperiod => ?_, fun i d hd => ?_, fun series hseries options liftedOwner
    lifted lifting k k' hrun => ?_⟩
  · rw [hwired.revealed d hd period hperiod]
    exact ⟨pairwise_revealedBy m period, fun u => mem_revealedBy_iff⟩
  · refine exists_edit_of_wirings rfl ?_
    rw [wirings, List.getElem?_map, hd]
    rfl
  · have hlifts := LiftedModel.build_lifts hseries hrun
    have hmirrors := LiftedModel.build_mirrors hseries hrun
    exact ⟨hlifts.isOver, hlifts.handles, fun d hd u hu =>
      hwired.slot_lt_of_mem_dependencies hmirrors hlifts.isOver.length_axes hd hu,
      hmirrors.dependencies hwired⟩

/-- The edits that the resting model is made with. -/
noncomputable def restingEdits : List Edit :=
  [.uncertainty "u" none (some (-1)) (some 1), .decisionDependingOn "x" [⟨⟨0⟩, 0, 0⟩] none none,
    .constraint "floor" ⟨.geq, .decision ⟨⟨0⟩, 0, 0⟩⟩,
    .objective (.new .minimize (.decision ⟨⟨0⟩, 0, 0⟩))]

/-- The resting model is made with its edits. -/
theorem edited_restingEdits :
    (RobustModel.new "segment" ⟨0⟩).edited restingEdits = LiftingCompiler.resting := by
  have hbounds : Bounds.make (some (-1 : ℝ)) (some 1) = .ok _ := Bounds.make_of_le (by norm_num)
  have huncertain : RobustModel.addUncertainty (.new "segment" ⟨0⟩) "u" none (some (-1)) (some 1) =
      .ok (⟨⟨0⟩, 0, 0⟩, { LiftedModel.segment with objective? := none }) := by
    rw [RobustModel.addUncertainty, hbounds]
    rfl
  rw [edited, restingEdits, List.foldl_cons, edit, huncertain]
  rfl

/-- The resting model is the result of edits, and the dependencies of its decision are lifted to the
pieces of the halves. -/
theorem edited_wired_resting : ∃ lifted,
    (RobustModel.new "segment" ⟨0⟩).edited restingEdits = LiftingCompiler.resting ∧
      LiftedModel.halves.IsOver LiftingCompiler.resting.uncertainty ∧
        LiftedModel.build LiftingCompiler.resting [LiftedModel.halves] ⟨false, false⟩ ⟨1⟩ .empty =
          .ok (lifted, ⟨[LiftedModel.halfAxis]⟩) .empty ∧
        List.Forall₂ (fun (d d' : DecisionVariable ℝ) => d'.dependencies =
          LiftedModel.piecesOf [LiftedModel.halfAxis] d.dependencies)
            LiftingCompiler.resting.decisions.items lifted.decisions.items := by
  obtain ⟨b, hb⟩ := LiftingCompiler.build_resting .empty
  obtain ⟨-, -, hlift⟩ := edited_wired "segment" ⟨0⟩ restingEdits
  rw [edited_restingEdits] at hlift
  obtain ⟨-, -, -, hdependencies⟩ := hlift [LiftedModel.halves]
    (List.forall_mem_singleton.2 LiftedModel.halves_isOver) _ _ _ _ _ _ hb
  exact ⟨_, edited_restingEdits, LiftedModel.halves_isOver, hb, hdependencies⟩

/-- Decisions come to know what is revealed in time, also when it is added after them. -/
example : ((RobustModel.new "m" ⟨0⟩).edited [.decision "x" (some 2) none none,
    .uncertaintiesByPeriod 2 "u" 2 none none, .decision "y" (some 3) none none]).decisions.items.map
      (·.dependencies) = [[⟨⟨0⟩, 0, 0⟩], [⟨⟨0⟩, 0, 0⟩, ⟨⟨0⟩, 0, 1⟩]] := rfl

end RobustModel

end AdjustableRobust
