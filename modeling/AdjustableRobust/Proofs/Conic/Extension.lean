import AdjustableRobust.Proofs.Uncertainty.Region

/-!
# Extensions of conic models

Compilation only appends: variables, constraints and objectives of a conic model stay where they
are. What an extension says about the values of its variables is stated without the variables that
were appended: it encodes a relation between the values of the old variables and a result when the
appended bounds and constraints can be satisfied with exactly the results in relation. Encodings of
consecutive extensions compose.
-/

namespace AdjustableRobust

namespace ConicModel

/-- The model accepts the handle. -/
def Declares (m : ConicModel ℝ) (h : ConicRef) : Prop := m.vars.validate h = .ok ()

/-- Two choices of values give the variables of the model the same values. -/
def Agree (m : ConicModel ℝ) (ω ω' : ConicRef → ℝ) : Prop := ∀ h, m.Declares h → ω' h = ω h

/-- The values satisfy all bounds and constraints of the model, without tolerance. -/
structure Feasible (m : ConicModel ℝ) (ω : ConicRef → ℝ) : Prop where
  bounds : ∀ e ∈ m.vars.entries, e.2.bounds.admits (ω e.1) = true
  constraints : ∀ c ∈ m.constraints, c.feasible (.total ω) 0 = .ok true

/-- The values satisfy the bounds and constraints that the second model has beyond the first. -/
structure AddedFeasible (m m' : ConicModel ℝ) (ω : ConicRef → ℝ) : Prop where
  bounds : ∀ e ∈ m'.vars.entries, m.numVariables ≤ e.1.slot → e.2.bounds.admits (ω e.1) = true
  constraints : ∀ c ∈ m'.constraints.drop m.constraints.length, c.feasible (.total ω) 0 = .ok true

/-- The second model arises from the first one by appending variables and constraints. -/
structure Extends (m m' : ConicModel ℝ) : Prop where
  owner : m'.vars.owner = m.vars.owner
  epoch : m'.vars.epoch = m.vars.epoch
  vars : m.vars.items <+: m'.vars.items
  constraints : m.constraints <+: m'.constraints
  objectives : m'.objectives = m.objectives

variable {m m' m₁ m₂ : ConicModel ℝ} {ω ω' : ConicRef → ℝ}

/-- A handle is accepted when owner and epoch agree and its position exists. -/
theorem declares_iff {h : ConicRef} :
    m.Declares h ↔ h.owner = m.vars.owner ∧ h.epoch = m.vars.epoch ∧ h.slot < m.vars.size :=
  Store.validate_eq_ok_iff _ _

/-- Values agree with themselves. -/
theorem Agree.refl (m : ConicModel ℝ) (ω : ConicRef → ℝ) : m.Agree ω ω := fun _ _ => rfl

/-- Agreement is transitive. -/
theorem Agree.trans {ω'' : ConicRef → ℝ} (h : m.Agree ω ω') (h' : m.Agree ω' ω'') :
    m.Agree ω ω'' := fun v hv => (h' v hv).trans (h v hv)

/-- Nothing added, nothing demanded. -/
theorem addedFeasible_refl (m : ConicModel ℝ) (ω : ConicRef → ℝ) : m.AddedFeasible m ω :=
  ⟨fun _ he hs => absurd (Store.slot_lt_of_mem_entries he) (not_lt.2 hs), fun c hc => by simp at hc⟩

namespace Extends

/-- Nothing appended. -/
theorem refl (m : ConicModel ℝ) : m.Extends m :=
  ⟨rfl, rfl, List.prefix_refl _, List.prefix_refl _, rfl⟩

/-- Appending twice is appending. -/
theorem trans (h : m.Extends m₁) (h' : m₁.Extends m₂) : m.Extends m₂ :=
  ⟨h'.owner.trans h.owner, h'.epoch.trans h.epoch, h.vars.trans h'.vars,
    h.constraints.trans h'.constraints, h'.objectives.trans h.objectives⟩

/-- No variable is lost. -/
theorem numVariables_le (h : m.Extends m') : m.numVariables ≤ m'.numVariables := h.vars.length_le

/-- Handles stay good. -/
theorem declares (h : m.Extends m') {v : ConicRef} (hv : m.Declares v) : m'.Declares v := by
  obtain ⟨ho, he, hs⟩ := declares_iff.1 hv
  exact declares_iff.2 ⟨ho.trans h.owner.symm, he.trans h.epoch.symm,
    hs.trans_le h.numVariables_le⟩

/-- Values that agree on the larger model agree on the smaller one. -/
theorem agree (h : m.Extends m') (ha : m'.Agree ω ω') : m.Agree ω ω' :=
  fun v hv => ha v (h.declares hv)

/-- Positions keep their handles. -/
theorem handleFor_eq (h : m.Extends m') : m'.vars.handleFor = m.vars.handleFor := by
  funext i
  rw [Store.handleFor, Store.handleFor, h.owner, h.epoch]

/-- An old position holds the same variable, under the same handle. -/
theorem mem_entries_iff (h : m.Extends m') {e : ConicRef × ConicVariable ℝ}
    (he : e.1.slot < m.numVariables) : e ∈ m'.vars.entries ↔ e ∈ m.vars.entries := by
  have hitem : ∀ i, i < m.vars.items.length → m'.vars.items[i]? = m.vars.items[i]? := by
    intro i hi
    obtain ⟨l, hl⟩ := h.vars
    rw [← hl, List.getElem?_append_left hi]
  rw [Store.mem_entries_iff, Store.mem_entries_iff]
  rw [h.handleFor_eq]
  constructor
  · rintro ⟨i, hi, hh⟩
    have hlt : i < m.vars.items.length := by rw [hh] at he; exact he
    exact ⟨i, by rw [← hitem i hlt]; exact hi, hh⟩
  · rintro ⟨i, hi, hh⟩
    have hlt : i < m.vars.items.length := by rw [hh] at he; exact he
    exact ⟨i, by rw [hitem i hlt]; exact hi, hh⟩

/-- What two consecutive extensions add is what they add one after the other. -/
theorem addedFeasible_iff (h : m.Extends m₁) (h' : m₁.Extends m₂) :
    m.AddedFeasible m₂ ω ↔ m.AddedFeasible m₁ ω ∧ m₁.AddedFeasible m₂ ω := by
  obtain ⟨cs, hcs⟩ := h.constraints
  obtain ⟨ds, hds⟩ := h'.constraints
  have hadded : m₂.constraints.drop m.constraints.length = cs ++ ds := by
    rw [← hds, ← hcs, List.append_assoc, List.drop_left]
  have hfirst : m₁.constraints.drop m.constraints.length = cs := by rw [← hcs, List.drop_left]
  have hsecond : m₂.constraints.drop m₁.constraints.length = ds := by rw [← hds, List.drop_left]
  have hle := h.numVariables_le
  constructor
  · rintro ⟨hb, hc⟩
    rw [hadded] at hc
    refine ⟨⟨fun e he hs => ?_, fun c hm => ?_⟩, ⟨fun e he hs => ?_, fun c hm => ?_⟩⟩
    · have hlt := Store.slot_lt_of_mem_entries he
      exact hb e ((h'.mem_entries_iff hlt).2 he) hs
    · exact hc c (List.mem_append_left _ (hfirst ▸ hm))
    · exact hb e he (hle.trans hs)
    · exact hc c (List.mem_append_right _ (hsecond ▸ hm))
  · rintro ⟨⟨hb, hc⟩, ⟨hb', hc'⟩⟩
    rw [hfirst] at hc
    rw [hsecond] at hc'
    refine ⟨fun e he hs => ?_, fun c hm => ?_⟩
    · by_cases hlt : e.1.slot < m₁.numVariables
      · exact hb e ((h'.mem_entries_iff hlt).1 he) hs
      · exact hb' e he (not_lt.1 hlt)
    · rw [hadded] at hm
      exact (List.mem_append.1 hm).elim (hc c) (hc' c)

/-- What is feasible for an extension is feasible for the model and for what was added. -/
theorem feasible_iff (h : m.Extends m') : m'.Feasible ω ↔ m.Feasible ω ∧ m.AddedFeasible m' ω := by
  obtain ⟨cs, hcs⟩ := h.constraints
  have hadded : m'.constraints.drop m.constraints.length = cs := by rw [← hcs, List.drop_left]
  constructor
  · rintro ⟨hb, hc⟩
    refine ⟨⟨fun e he => ?_, fun c hm => ?_⟩, ⟨fun e he _ => hb e he, fun c hm => ?_⟩⟩
    · exact hb e ((h.mem_entries_iff (Store.slot_lt_of_mem_entries he)).2 he)
    · exact hc c (h.constraints.subset hm)
    · exact hc c (List.mem_of_mem_drop hm)
  · rintro ⟨⟨hb, hc⟩, ⟨hb', hc'⟩⟩
    rw [hadded] at hc'
    refine ⟨fun e he => ?_, fun c hm => ?_⟩
    · by_cases hlt : e.1.slot < m.numVariables
      · exact hb e ((h.mem_entries_iff hlt).1 he)
      · exact hb' e he (not_lt.1 hlt)
    · rw [← hcs] at hm
      exact (List.mem_append.1 hm).elim (hc c) (hc' c)

end Extends

/-- The part of the second model beyond the first encodes a relation: its bounds and constraints
can be satisfied exactly with the results that are in relation to the values of the variables of
the first model. -/
structure Encodes {δ : Type} (m m' : ConicModel ℝ) (result : (ConicRef → ℝ) → δ)
    (relation : (ConicRef → ℝ) → δ → Prop) : Prop where
  extension : m.Extends m'
  /-- The added part refers to variables of the second model only. -/
  added_congr : ∀ ω ω', m'.Agree ω ω' → m.AddedFeasible m' ω → m.AddedFeasible m' ω'
  result_congr : ∀ ω ω', m'.Agree ω ω' → result ω' = result ω
  /-- Results of feasible values are in relation. -/
  sound : ∀ ω, m.AddedFeasible m' ω → relation ω (result ω)
  /-- Results in relation come from feasible values of the added variables. -/
  complete : ∀ ω d, relation ω d → ∃ ω', m.Agree ω ω' ∧ m.AddedFeasible m' ω' ∧ result ω' = d

namespace Encodes

variable {δ δ₁ δ₂ : Type}

/-- Feasible values of the added variables exist exactly for the results in relation, when the
relation does not look at them. -/
theorem exists_iff {result : (ConicRef → ℝ) → δ} {relation : (ConicRef → ℝ) → δ → Prop}
    (h : m.Encodes m' result relation)
    (hcongr : ∀ ω ω' d, m.Agree ω ω' → (relation ω' d ↔ relation ω d)) (ω : ConicRef → ℝ) (d : δ) :
    (∃ ω', m.Agree ω ω' ∧ m.AddedFeasible m' ω' ∧ result ω' = d) ↔ relation ω d := by
  constructor
  · rintro ⟨ω', ha, hf, rfl⟩
    exact (hcongr ω ω' _ ha).1 (h.sound ω' hf)
  · exact h.complete ω d

/-- A relation may be replaced by an equivalent one. -/
theorem of_iff {result : (ConicRef → ℝ) → δ} {relation relation' : (ConicRef → ℝ) → δ → Prop}
    (h : m.Encodes m' result relation) (hiff : ∀ ω d, relation ω d ↔ relation' ω d) :
    m.Encodes m' result relation' :=
  ⟨h.extension, h.added_congr, h.result_congr, fun ω hω => (hiff _ _).1 (h.sound ω hω),
    fun ω d hd => h.complete ω d ((hiff _ _).2 hd)⟩

/-- Adding nothing encodes the result itself. -/
theorem unchanged {result : (ConicRef → ℝ) → δ}
    (hcongr : ∀ ω ω', m.Agree ω ω' → result ω' = result ω) :
    m.Encodes m result fun ω d => result ω = d :=
  ⟨Extends.refl m, fun _ ω' _ _ => addedFeasible_refl m ω', hcongr, fun _ _ => rfl,
    fun ω _ hd => ⟨ω, Agree.refl m ω, addedFeasible_refl m ω, hd⟩⟩

/-- The objectives of the models do not matter, as long as they are the same. -/
theorem withObjectives {result : (ConicRef → ℝ) → δ} {relation : (ConicRef → ℝ) → δ → Prop}
    (os : List (ConicObjective ℝ)) (h : m.Encodes m' result relation) :
    Encodes { m with objectives := os } { m' with objectives := os } result relation := by
  obtain ⟨⟨howner, hepoch, hvars, hconstraints, -⟩, hadded, hresult, hsound, hcomplete⟩ := h
  exact ⟨⟨howner, hepoch, hvars, hconstraints, rfl⟩, fun ω ω' ha hω => ⟨(hadded ω ω' ha
    ⟨hω.bounds, hω.constraints⟩).bounds, (hadded ω ω' ha ⟨hω.bounds, hω.constraints⟩).constraints⟩,
    hresult, fun ω hω => hsound ω ⟨hω.bounds, hω.constraints⟩, fun ω d hd => by
      obtain ⟨ω', ha, hω, hr⟩ := hcomplete ω d hd
      exact ⟨ω', ha, ⟨hω.bounds, hω.constraints⟩, hr⟩⟩

/-- A result may be turned into another one, with the help of the variables of the first model. -/
theorem map {result₁ : (ConicRef → ℝ) → δ₁} {result : (ConicRef → ℝ) → δ}
    {relation₁ : (ConicRef → ℝ) → δ₁ → Prop} (f : (ConicRef → ℝ) → δ₁ → δ)
    (h : m.Encodes m' result₁ relation₁) (hf : ∀ ω ω', m.Agree ω ω' → f ω' = f ω)
    (hresult : ∀ ω, result ω = f ω (result₁ ω)) :
    m.Encodes m' result fun ω d => ∃ d₁, relation₁ ω d₁ ∧ f ω d₁ = d := by
  refine ⟨h.extension, h.added_congr, fun ω ω' ha => ?_, fun ω hω => ?_, fun ω d hd => ?_⟩
  · rw [hresult, hresult, hf ω ω' (h.extension.agree ha), h.result_congr ω ω' ha]
  · exact ⟨_, h.sound ω hω, (hresult ω).symm⟩
  · obtain ⟨d₁, hd₁, rfl⟩ := hd
    obtain ⟨ω', ha, hω', rfl⟩ := h.complete ω d₁ hd₁
    exact ⟨ω', ha, hω', by rw [hresult, hf ω ω' ha]⟩

/-- Consecutive extensions encode the composition of their relations. The second relation may look
at the result of the first one and at the values of the variables of the first model; the overall
result combines both results. -/
theorem seq {result₁ : (ConicRef → ℝ) → δ₁} {result₂ : (ConicRef → ℝ) → δ₂}
    {result : (ConicRef → ℝ) → δ} {relation₁ : (ConicRef → ℝ) → δ₁ → Prop}
    (relation₂ : (ConicRef → ℝ) → δ₁ → δ₂ → Prop) (combine : (ConicRef → ℝ) → δ₁ → δ₂ → δ)
    (h₁ : m.Encodes m₁ result₁ relation₁)
    (h₂ : m₁.Encodes m₂ result₂ fun ω d => relation₂ ω (result₁ ω) d)
    (hrel : ∀ ω ω' d₁ d₂, m.Agree ω ω' → relation₂ ω d₁ d₂ → relation₂ ω' d₁ d₂)
    (hcomb : ∀ ω ω', m.Agree ω ω' → combine ω' = combine ω)
    (hresult : ∀ ω, result ω = combine ω (result₁ ω) (result₂ ω)) :
    m.Encodes m₂ result fun ω d =>
      ∃ d₁ d₂, relation₁ ω d₁ ∧ relation₂ ω d₁ d₂ ∧ combine ω d₁ d₂ = d := by
  have hadded (ω) := h₁.extension.addedFeasible_iff (ω := ω) h₂.extension
  have hext := h₁.extension.trans h₂.extension
  refine ⟨hext, fun ω ω' ha hω => ?_, fun ω ω' ha => ?_, fun ω hω => ?_, fun ω d hd => ?_⟩
  · obtain ⟨hω₁, hω₂⟩ := (hadded ω).1 hω
    exact (hadded ω').2 ⟨h₁.added_congr ω ω' (h₂.extension.agree ha) hω₁,
      h₂.added_congr ω ω' ha hω₂⟩
  · rw [hresult, hresult, hcomb ω ω' (hext.agree ha),
      h₁.result_congr ω ω' (h₂.extension.agree ha), h₂.result_congr ω ω' ha]
  · obtain ⟨hω₁, hω₂⟩ := (hadded ω).1 hω
    exact ⟨_, _, h₁.sound ω hω₁, h₂.sound ω hω₂, (hresult ω).symm⟩
  · -- Values of the first part are chosen first; those of the second part leave them alone.
    obtain ⟨d₁, d₂, hd₁, hd₂, rfl⟩ := hd
    obtain ⟨ω₁, ha₁, hf₁, rfl⟩ := h₁.complete ω d₁ hd₁
    obtain ⟨ω₂, ha₂, hf₂, rfl⟩ := h₂.complete ω₁ d₂ (hrel ω ω₁ _ _ ha₁ hd₂)
    have ha := ha₁.trans (h₁.extension.agree ha₂)
    refine ⟨ω₂, ha, (hadded ω₂).2 ⟨h₁.added_congr ω₁ ω₂ ha₂ hf₁, hf₂⟩, ?_⟩
    rw [hresult, hcomb ω ω₂ ha, h₁.result_congr ω₁ ω₂ ha₂]

end Encodes

/-! ## Appending one entity -/

private theorem extends_push (m : ConicModel ℝ) (v : ConicVariable ℝ) :
    m.Extends (m.push v).2 :=
  ⟨rfl, rfl, List.prefix_append _ _, List.prefix_refl _, rfl⟩

/-- A new variable is one of the model. -/
theorem declares_push (m : ConicModel ℝ) (v : ConicVariable ℝ) :
    (m.push v).2.Declares (m.push v).1 := by
  rw [declares_iff]
  refine ⟨rfl, rfl, ?_⟩
  simp [push, Store.size, Store.handleFor]

private theorem not_declares_push (m : ConicModel ℝ) (v : ConicVariable ℝ) :
    ¬m.Declares (m.push v).1 := by
  rw [declares_iff]
  simp [push, Store.handleFor]

/-- A new variable only has to respect its bounds. -/
theorem addedFeasible_push_iff (m : ConicModel ℝ) (v : ConicVariable ℝ) (ω : ConicRef → ℝ) :
    m.AddedFeasible (m.push v).2 ω ↔ v.bounds.admits (ω (m.push v).1) = true := by
  have hentry : ∀ e ∈ (m.push v).2.vars.entries, m.numVariables ≤ e.1.slot →
      e = ((m.push v).1, v) := by
    rintro ⟨h, w⟩ he hs
    obtain ⟨i, hi, rfl⟩ := Store.mem_entries_iff.1 he
    have hlt := (List.getElem?_eq_some_iff.1 hi).1
    have hi' : i = m.vars.items.length := by
      simp only [push, Store.items_add, List.length_append, List.length_singleton] at hlt
      simp only [numVariables, Store.size, Store.handleFor] at hs
      omega
    subst hi'
    simp only [push, Store.items_add, List.getElem?_concat_length, Option.some.injEq] at hi
    rw [← hi]
    rfl
  have hmem : ((m.push v).1, v) ∈ (m.push v).2.vars.entries :=
    Store.mem_entries_iff.2 ⟨m.vars.items.length, by simp [push], rfl⟩
  constructor
  · intro h
    exact h.bounds _ hmem le_rfl
  · intro h
    refine ⟨fun e he hs => ?_, fun c hc => ?_⟩
    · rw [hentry e he hs]
      exact h
    · simp [push] at hc

/-- A new variable takes the values that its bounds admit. -/
theorem encodes_push (m : ConicModel ℝ) (v : ConicVariable ℝ) :
    m.Encodes (m.push v).2 (fun ω => ω (m.push v).1) fun _ x => v.bounds.admits x = true := by
  refine ⟨extends_push m v, fun ω ω' ha hω => ?_, fun ω ω' ha => ha _ (declares_push m v),
    fun ω hω => (m.addedFeasible_push_iff v ω).1 hω, fun ω x hx => ?_⟩
  · rw [addedFeasible_push_iff] at hω ⊢
    rwa [ha _ (declares_push m v)]
  · refine ⟨Function.update ω (m.push v).1 x, fun h hh => ?_,
      (m.addedFeasible_push_iff v _).2 (by simpa using hx), by simp⟩
    apply Function.update_of_ne
    rintro rfl
    exact not_declares_push m v hh

end ConicModel

end AdjustableRobust
