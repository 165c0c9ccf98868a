import AdjustableRobust.Proofs.Conic.Values

/-!
# Appended variables and constraints

Extensions that only append variables and extensions that only append constraints, with what they
append: bounds and handles of the variables, and what the constraints demand. Values of the appended
variables can be chosen freely, and are feasible when their bounds admit them and the constraints
hold.
-/

namespace AdjustableRobust.ConicModel

variable {m m' m₁ m₂ : ConicModel ℝ} {ω : ConicRef → ℝ}

/-! ## Values of appended variables -/

/-- Appended variables can be given any values. -/
theorem exists_addedValues_eq (ω : ConicRef → ℝ) {xs : List ℝ}
    (hxs : m'.numVariables = m.numVariables + xs.length) :
    ∃ ω', m.Agree ω ω' ∧ m.addedValues m' ω' = xs := by
  classical
  refine ⟨fun v => if m.Declares v then ω v else xs.getD (v.slot - m.numVariables) 0,
    fun v hv => if_pos hv, List.ext_getElem (by simp [hxs]) fun i hi hi' => ?_⟩
  have hfresh : ¬m.Declares (m'.vars.handleFor (m.numVariables + i)) := fun hd =>
    absurd (declares_iff.1 hd).2.2 (Nat.not_lt.2 (Nat.le_add_right _ _))
  rw [getElem_addedValues, if_neg hfresh]
  simp [Store.handleFor, List.getD_eq_getElem?_getD, hi']

/-- Values of appended variables are feasible when their bounds admit them and the appended
constraints hold. -/
theorem addedFeasible_iff_values {bs : List (Bounds ℝ)}
    (hbounds : m'.vars.items.map (·.bounds) = m.vars.items.map (·.bounds) ++ bs) :
    m.AddedFeasible m' ω ↔
      List.Forall₂ (fun b x => b.admits x = true) bs (m.addedValues m' ω) ∧
        ∀ c ∈ m'.constraints.drop m.constraints.length, c.toRawConstraint.Holds ω := by
  have hsize : m'.numVariables = m.numVariables + bs.length := by
    simpa [numVariables, Store.size] using congrArg List.length hbounds
  have hlength : bs.length = (m.addedValues m' ω).length := by simp [hsize]
  have hbound : ∀ i (hi : i < bs.length), ∃ v, m'.vars.items[m.numVariables + i]? = some v ∧
      v.bounds = bs[i] := by
    intro i hi
    have hget := congrArg (·[m.numVariables + i]?) hbounds
    simpa [numVariables, Store.size, List.getElem?_append_right, hi] using hget
  rw [List.forall₂_iff_get]
  constructor
  · intro hf
    refine ⟨⟨hlength, fun i hi hi' => ?_⟩,
      fun c hc => Constraint.feasible_total_iff.1 (hf.constraints c hc)⟩
    obtain ⟨v, hv, hvb⟩ := hbound i hi
    rw [List.get_eq_getElem, List.get_eq_getElem, getElem_addedValues, ← hvb]
    exact hf.bounds (_, v) (Store.mem_entries_iff.2 ⟨_, hv, rfl⟩) (Nat.le_add_right _ i)
  · rintro ⟨⟨-, hbs⟩, hcs⟩
    refine ⟨fun e he hs => ?_, fun c hc => Constraint.feasible_total_iff.2 (hcs c hc)⟩
    obtain ⟨j, hj, hh⟩ := Store.mem_entries_iff.1 he
    rw [hh] at hs ⊢
    obtain ⟨i, rfl⟩ := Nat.exists_eq_add_of_le hs
    have hlt : m.numVariables + i < m'.numVariables := (List.getElem?_eq_some_iff.1 hj).1
    have hi : i < bs.length := Nat.lt_of_add_lt_add_left (hsize ▸ hlt)
    obtain ⟨v, hv, hvb⟩ := hbound i hi
    have hadmits := hbs i hi (hlength ▸ hi)
    rw [List.get_eq_getElem, List.get_eq_getElem, getElem_addedValues, ← hvb] at hadmits
    rwa [Option.some.inj (hj.symm.trans hv)]

/-- A property of appended constraints, for consecutive extensions. -/
theorem Extends.forall_added_iff (h : m.Extends m₁) (h' : m₁.Extends m₂)
    {P : ConicConstraint ℝ → Prop} :
    (∀ c ∈ m₂.constraints.drop m.constraints.length, P c) ↔
      (∀ c ∈ m₁.constraints.drop m.constraints.length, P c) ∧
        ∀ c ∈ m₂.constraints.drop m₁.constraints.length, P c := by
  obtain ⟨cs, hcs⟩ := h.constraints
  obtain ⟨ds, hds⟩ := h'.constraints
  rw [← hds, ← hcs, List.append_assoc, List.drop_left, List.drop_left, ← List.append_assoc,
    List.drop_left, List.forall_mem_append]

/-! ## Appended variables -/

/-- The second model has further variables, with the given bounds and under the given handles. -/
structure AddsVariables (m m' : ConicModel ℝ) (hs : List ConicRef) (bs : List (Bounds ℝ)) :
    Prop where
  extension : m.Extends m'
  constraints : m'.constraints = m.constraints
  bounds : m'.vars.items.map (·.bounds) = m.vars.items.map (·.bounds) ++ bs
  addedValues : ∀ ω, m.addedValues m' ω = hs.map ω

namespace AddsVariables

variable {hs hs' : List ConicRef} {bs bs' : List (Bounds ℝ)}

/-- No variable. -/
theorem refl (m : ConicModel ℝ) : m.AddsVariables m [] [] :=
  ⟨.refl m, rfl, (List.append_nil _).symm, fun ω => m.addedValues_self ω⟩

/-- Some variables after the others. -/
theorem trans (h : m.AddsVariables m₁ hs bs) (h' : m₁.AddsVariables m₂ hs' bs') :
    m.AddsVariables m₂ (hs ++ hs') (bs ++ bs') where
  extension := h.extension.trans h'.extension
  constraints := h'.constraints.trans h.constraints
  bounds := by rw [h'.bounds, h.bounds, List.append_assoc]
  addedValues ω := by
    rw [h.extension.addedValues_eq h'.extension, h.addedValues, h'.addedValues, List.map_append]

end AddsVariables

/-- A single variable. -/
theorem addsVariables_push (m : ConicModel ℝ) (v : ConicVariable ℝ) :
    m.AddsVariables (m.push v).2 [(m.push v).1] [v.bounds] :=
  ⟨(m.encodes_push v).extension, rfl, List.map_append, m.addedValues_push v⟩

/-- Numbered variables with the same bounds. -/
theorem addsVariables_addVariables (m : ConicModel ℝ) (n : ℕ) (name : String) (b : Bounds ℝ) :
    (m.addVariables n name b).1.length = n ∧
      m.AddsVariables (m.addVariables n name b).2 (m.addVariables n name b).1
        (List.replicate n b) := by
  unfold addVariables
  -- The last variable is split off.
  induction n with
  | zero => exact ⟨rfl, .refl m⟩
  | succ n ih =>
    obtain ⟨hlength, hadds⟩ := ih
    rw [List.range_succ, List.foldl_append, List.foldl_cons, List.foldl_nil, List.replicate_succ']
    exact ⟨by rw [List.length_append, hlength, List.length_singleton],
      hadds.trans (addsVariables_push _ _)⟩

/-! ## Appended constraints -/

/-- The second model has further constraints, which hold together when the condition does. -/
structure AddsConstraints (m m' : ConicModel ℝ) (P : (ConicRef → ℝ) → Prop) : Prop where
  extension : m.Extends m'
  vars : m'.vars = m.vars
  holds : ∀ ω, (∀ c ∈ m'.constraints.drop m.constraints.length, c.toRawConstraint.Holds ω) ↔ P ω

namespace AddsConstraints

variable {P Q : (ConicRef → ℝ) → Prop}

/-- Without a variable there is no value. -/
theorem addedValues (h : m.AddsConstraints m' P) (ω : ConicRef → ℝ) : m.addedValues m' ω = [] := by
  rw [← m.addedValues_self ω, ConicModel.addedValues, ConicModel.addedValues, values, values,
    h.vars]

/-- No constraint. -/
theorem refl (m : ConicModel ℝ) (hP : ∀ ω, P ω) : m.AddsConstraints m P :=
  ⟨.refl m, rfl, fun ω => by simp [hP ω]⟩

/-- An equivalent condition. -/
theorem of_iff (h : m.AddsConstraints m' P) (hiff : ∀ ω, P ω ↔ Q ω) : m.AddsConstraints m' Q :=
  ⟨h.extension, h.vars, fun ω => (h.holds ω).trans (hiff ω)⟩

/-- Some constraints after the others. -/
theorem trans (h : m.AddsConstraints m₁ P) (h' : m₁.AddsConstraints m₂ Q) :
    m.AddsConstraints m₂ fun ω => P ω ∧ Q ω where
  extension := h.extension.trans h'.extension
  vars := h'.vars.trans h.vars
  holds ω := (h.extension.forall_added_iff h'.extension).trans (and_congr (h.holds ω) (h'.holds ω))

end AddsConstraints

/-- What is appended is feasible when the condition holds. -/
theorem AddsConstraints.addedFeasible_iff {P : (ConicRef → ℝ) → Prop} (h : m.AddsConstraints m' P) :
    m.AddedFeasible m' ω ↔ P ω := by
  rw [addedFeasible_iff_values (by rw [h.vars, List.append_nil]), h.holds, h.addedValues,
    and_iff_right .nil]

/-- A condition on variables of the model is encoded. -/
theorem AddsConstraints.writes {P : (ConicRef → ℝ) → Prop} (h : m.AddsConstraints m' P)
    (hcongr : ∀ ω ω', m.Agree ω ω' → (P ω' ↔ P ω)) :
    m.Writes m' (fun _ => ()) fun ω vs _ => vs = [] ∧ P ω := by
  have hencodes : m.Encodes m' (fun _ => ()) fun ω _ => P ω :=
    { extension := h.extension
      added_congr := fun ω ω' ha hω => h.addedFeasible_iff.2
        ((hcongr ω ω' (h.extension.agree ha)).2 (h.addedFeasible_iff.1 hω))
      result_congr := fun _ _ _ => rfl
      sound := fun _ hω => h.addedFeasible_iff.1 hω
      complete := fun ω _ hP => ⟨ω, .refl m ω, h.addedFeasible_iff.2 hP, rfl⟩ }
  exact hencodes.writes h.vars

/-- Constraints that are appended afterwards narrow down what has been written, when they can be
read off the result. -/
theorem Writes.addsConstraints {δ : Type} {result : (ConicRef → ℝ) → δ}
    {relation : (ConicRef → ℝ) → List ℝ → δ → Prop} {P : (ConicRef → ℝ) → Prop}
    (Q : (ConicRef → ℝ) → δ → Prop) (h : m.Writes m₁ result relation)
    (hadds : m₁.AddsConstraints m₂ P) (hP : ∀ ω, P ω ↔ Q ω (result ω))
    (hQ : ∀ ω ω', m.Agree ω ω' → Q ω' = Q ω) :
    m.Writes m₂ result fun ω vs d => relation ω vs d ∧ Q ω d := by
  have hholds : m₁.Writes m₂ (fun _ => ()) fun ω vs _ => vs = [] ∧ Q ω (result ω) :=
    (hadds.of_iff hP).writes fun ω ω' ha => by
      rw [hQ ω ω' (h.extension.agree ha), h.encodes.result_congr ω ω' ha]
  refine (h.seq (fun ω d vs _ => vs = [] ∧ Q ω d) (fun _ d _ => d) hholds
    (fun ω ω' _ _ _ ha hd => by rwa [hQ ω ω' ha]) (fun _ _ _ => rfl) fun _ => rfl).of_iff
    fun ω vs d => ?_
  constructor
  · rintro ⟨vs, _, d, _, rfl, hd, ⟨rfl, hq⟩, rfl⟩
    exact ⟨(List.append_nil vs).symm ▸ hd, hq⟩
  · rintro ⟨hd, hq⟩
    exact ⟨vs, [], d, (), (List.append_nil vs).symm, hd, ⟨rfl, hq⟩, rfl⟩

/-- A single constraint. -/
theorem addsConstraints_addConstraint (m : ConicModel ℝ) (name : String)
    (c : RawConstraint (ConicExpr ℝ ConicRef)) :
    m.AddsConstraints (m.addConstraint name c) c.Holds :=
  ⟨⟨rfl, rfl, List.prefix_refl _, List.prefix_append _ _, rfl⟩, rfl, fun ω => by
    rw [addConstraint, List.drop_left, List.forall_mem_singleton]
    rfl⟩

end AdjustableRobust.ConicModel
