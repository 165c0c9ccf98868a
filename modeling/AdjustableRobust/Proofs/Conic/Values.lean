import AdjustableRobust.Proofs.Conic.Extension

/-!
# Values of appended variables

An encoding says which results an extension can be satisfied with. Here it also says by which
values of the appended variables, in the order in which they were appended. Consecutive extensions
append their values.
-/

namespace AdjustableRobust

/-- Adding an entity adds its handle at the end. -/
theorem Store.handles_add {κ : EntityKind} {β : Type} (s : Store κ β) (x : β) :
    (s.add x).2.handles = s.handles ++ [(s.add x).1] := by
  simp [handles, size, List.range_succ, handleFor]

namespace ConicModel

variable {m m' m₁ m₂ : ConicModel ℝ} {ω : ConicRef → ℝ}

/-- Values of all variables, in order. -/
noncomputable def values (m : ConicModel ℝ) (ω : ConicRef → ℝ) : List ℝ := m.vars.handles.map ω

/-- Values of the variables that the second model has beyond the first, in order. -/
noncomputable def addedValues (m m' : ConicModel ℝ) (ω : ConicRef → ℝ) : List ℝ :=
  (m'.values ω).drop m.numVariables

/-- Nothing is added to a model itself. -/
@[simp] theorem addedValues_self (m : ConicModel ℝ) (ω : ConicRef → ℝ) :
    m.addedValues m ω = [] := by
  simp [addedValues, values, Store.handles, numVariables]

/-- There is one value for each variable that is added. -/
@[simp] theorem length_addedValues (m m' : ConicModel ℝ) (ω : ConicRef → ℝ) :
    (m.addedValues m' ω).length = m'.numVariables - m.numVariables := by
  simp [addedValues, values, Store.handles, numVariables]

/-- Added values stand in the order of their variables. -/
theorem getElem_addedValues {i : ℕ} (hi : i < (m.addedValues m' ω).length) :
    (m.addedValues m' ω)[i] = ω (m'.vars.handleFor (m.numVariables + i)) := by
  simp [addedValues, values, Store.handles]

/-- Handles of a model are the first ones of its extensions. -/
theorem Extends.handles (h : m.Extends m') :
    m'.vars.handles.take m.numVariables = m.vars.handles := by
  have hle : min m.numVariables m'.vars.size = m.vars.size := min_eq_left h.numVariables_le
  rw [Store.handles, Store.handles, h.handleFor_eq, ← List.map_take, List.take_range, hle]

/-- Entries of a model are the first ones of its extensions. -/
theorem Extends.entries_eq (h : m.Extends m') :
    m'.vars.entries = m.vars.entries ++ m'.vars.entries.drop m.numVariables := by
  obtain ⟨vs, hvs⟩ := h.vars
  have hsplit : m'.vars.entries =
      m.vars.entries ++ (vs.zipIdx m.numVariables).map fun x => (m.vars.handleFor x.2, x.1) := by
    rw [Store.entries, Store.entries, ← hvs, List.zipIdx_append, List.map_append, h.handleFor_eq]
    simp [numVariables, Store.size]
  have hsize : m.numVariables = m.vars.entries.length := by
    simp [numVariables, Store.size, Store.entries]
  rw [hsplit, hsize, List.drop_left]

/-- Values of a model are the first ones of its extensions. -/
theorem Extends.values_eq (h : m.Extends m') (ω : ConicRef → ℝ) :
    m'.values ω = m.values ω ++ m.addedValues m' ω := by
  rw [addedValues, values, values, ← h.handles, List.map_take, List.take_append_drop]

/-- Consecutive extensions append their values. -/
theorem Extends.addedValues_eq (h : m.Extends m₁) (h' : m₁.Extends m₂) (ω : ConicRef → ℝ) :
    m.addedValues m₂ ω = m.addedValues m₁ ω ++ m₁.addedValues m₂ ω := by
  have hlength : (m.values ω).length = m.numVariables := by
    simp [values, Store.handles, numVariables]
  have hboth := (h.trans h').values_eq ω
  rw [h'.values_eq, h.values_eq, List.append_assoc] at hboth
  exact (List.append_cancel_left hboth).symm

/-- Added values are those of variables of the second model. -/
theorem addedValues_congr {ω' : ConicRef → ℝ} (ha : m'.Agree ω ω') :
    m.addedValues m' ω' = m.addedValues m' ω := by
  have hvalues : m'.values ω' = m'.values ω := by
    refine List.map_congr_left fun h hh => ha h (declares_iff.2 ?_)
    obtain ⟨i, hi, rfl⟩ := List.mem_map.1 hh
    exact ⟨rfl, rfl, List.mem_range.1 hi⟩
  rw [addedValues, addedValues, hvalues]

/-- The variables of a model can be given any values. -/
theorem exists_values_eq (m : ConicModel ℝ) {xs : List ℝ} (hxs : xs.length = m.numVariables) :
    ∃ ω, m.values ω = xs := by
  refine ⟨fun h => xs.getD h.slot 0, List.ext_getElem ?_ fun i hi hi' => ?_⟩
  · simp [values, Store.handles, hxs, numVariables]
  · simp [values, Store.handles, Store.handleFor, List.getD_eq_getElem?_getD, hi']

/-- The part of the second model beyond the first encodes a relation, which also looks at the
values of the appended variables. -/
def Writes {δ : Type} (m m' : ConicModel ℝ) (result : (ConicRef → ℝ) → δ)
    (relation : (ConicRef → ℝ) → List ℝ → δ → Prop) : Prop :=
  m.Encodes m' (fun ω => (m.addedValues m' ω, result ω)) fun ω d => relation ω d.1 d.2

namespace Writes

variable {δ δ₁ δ₂ : Type} {result : (ConicRef → ℝ) → δ}
variable {relation relation' : (ConicRef → ℝ) → List ℝ → δ → Prop}

/-- Without a look at the values of the appended variables there is one relation less. -/
theorem encodes (h : m.Writes m' result relation) :
    m.Encodes m' result fun ω d => ∃ vs, relation ω vs d :=
  (Encodes.map (fun _ d => d.2) h (fun _ _ _ => rfl) fun _ => rfl).of_iff fun ω d => by
    constructor
    · rintro ⟨⟨vs, d⟩, hd, rfl⟩
      exact ⟨vs, hd⟩
    · rintro ⟨vs, hd⟩
      exact ⟨(vs, d), hd, rfl⟩

/-- A relation may be replaced by an equivalent one. -/
theorem of_iff (h : m.Writes m' result relation)
    (hiff : ∀ ω vs d, relation ω vs d ↔ relation' ω vs d) : m.Writes m' result relation' :=
  Encodes.of_iff h fun ω d => hiff ω d.1 d.2

/-- Adding nothing encodes the result itself. -/
theorem unchanged (hcongr : ∀ ω ω', m.Agree ω ω' → result ω' = result ω) :
    m.Writes m result fun ω vs d => vs = [] ∧ result ω = d :=
  (Encodes.unchanged fun ω ω' ha => by
    rw [addedValues_self, addedValues_self, hcongr ω ω' ha]).of_iff
    fun ω d => by
      rw [addedValues_self, Prod.ext_iff]
      exact and_congr_left' eq_comm

/-- The objectives of the models do not matter, as long as they are the same. -/
theorem withObjectives (os : List (ConicObjective ℝ)) (h : m.Writes m' result relation) :
    Writes { m with objectives := os } { m' with objectives := os } result relation :=
  Encodes.withObjectives os h

/-- A result may be turned into another one, with the help of the variables of the first model. -/
theorem map {result₁ : (ConicRef → ℝ) → δ₁}
    {relation₁ : (ConicRef → ℝ) → List ℝ → δ₁ → Prop} (f : (ConicRef → ℝ) → δ₁ → δ)
    (h : m.Writes m' result₁ relation₁) (hf : ∀ ω ω', m.Agree ω ω' → f ω' = f ω)
    (hresult : ∀ ω, result ω = f ω (result₁ ω)) :
    m.Writes m' result fun ω vs d => ∃ d₁, relation₁ ω vs d₁ ∧ f ω d₁ = d :=
  (Encodes.map (fun ω (d : List ℝ × δ₁) => (d.1, f ω d.2)) h
    (fun ω ω' ha => by rw [hf ω ω' ha]) fun ω => by rw [hresult]).of_iff fun ω d => by
      constructor
      · rintro ⟨⟨vs, d₁⟩, hd₁, rfl⟩
        exact ⟨d₁, hd₁, rfl⟩
      · rintro ⟨d₁, hd₁, hd⟩
        exact ⟨(d.1, d₁), hd₁, Prod.ext rfl hd⟩

/-- Consecutive extensions encode the composition of their relations, and append their values. -/
theorem seq {result₁ : (ConicRef → ℝ) → δ₁} {result₂ : (ConicRef → ℝ) → δ₂}
    {relation₁ : (ConicRef → ℝ) → List ℝ → δ₁ → Prop}
    (relation₂ : (ConicRef → ℝ) → δ₁ → List ℝ → δ₂ → Prop)
    (combine : (ConicRef → ℝ) → δ₁ → δ₂ → δ) (h₁ : m.Writes m₁ result₁ relation₁)
    (h₂ : m₁.Writes m₂ result₂ fun ω vs d => relation₂ ω (result₁ ω) vs d)
    (hrel : ∀ ω ω' d₁ vs d₂, m.Agree ω ω' → relation₂ ω d₁ vs d₂ → relation₂ ω' d₁ vs d₂)
    (hcomb : ∀ ω ω', m.Agree ω ω' → combine ω' = combine ω)
    (hresult : ∀ ω, result ω = combine ω (result₁ ω) (result₂ ω)) :
    m.Writes m₂ result fun ω vs d => ∃ vs₁ vs₂ d₁ d₂, vs = vs₁ ++ vs₂ ∧ relation₁ ω vs₁ d₁ ∧
      relation₂ ω d₁ vs₂ d₂ ∧ combine ω d₁ d₂ = d :=
  (Encodes.seq (fun ω (d₁ : List ℝ × δ₁) (d₂ : List ℝ × δ₂) => relation₂ ω d₁.2 d₂.1 d₂.2)
    (fun ω (d₁ : List ℝ × δ₁) (d₂ : List ℝ × δ₂) => (d₁.1 ++ d₂.1, combine ω d₁.2 d₂.2)) h₁ h₂
    (fun ω ω' _ _ ha h => hrel ω ω' _ _ _ ha h) (fun ω ω' ha => by rw [hcomb ω ω' ha])
    fun ω => by rw [hresult, h₁.extension.addedValues_eq h₂.extension]).of_iff fun ω d => by
      constructor
      · rintro ⟨⟨vs₁, d₁⟩, ⟨vs₂, d₂⟩, hd₁, hd₂, rfl⟩
        exact ⟨vs₁, vs₂, d₁, d₂, rfl, hd₁, hd₂, rfl⟩
      · rintro ⟨vs₁, vs₂, d₁, d₂, hvs, hd₁, hd₂, hd⟩
        exact ⟨(vs₁, d₁), (vs₂, d₂), hd₁, hd₂, Prod.ext hvs.symm hd⟩

end Writes

/-! ## Appending one entity -/

/-- A new variable is the last entry. -/
theorem entries_push (m : ConicModel ℝ) (v : ConicVariable ℝ) :
    (m.push v).2.vars.entries = m.vars.entries ++ [((m.push v).1, v)] := by
  simp [push, Store.entries, Store.add, Store.addWith, Store.handleFor, Store.size,
    List.zipIdx_append]

/-- A new variable has the only value that is added. -/
theorem addedValues_push (m : ConicModel ℝ) (v : ConicVariable ℝ) (ω : ConicRef → ℝ) :
    m.addedValues (m.push v).2 ω = [ω (m.push v).1] := by
  simp [addedValues, values, Store.handles, push, numVariables, Store.size, List.range_succ]
  rfl

/-- A new variable takes the values that its bounds admit. -/
theorem writes_push (m : ConicModel ℝ) (v : ConicVariable ℝ) :
    m.Writes (m.push v).2 (fun ω => ω (m.push v).1) fun _ vs x =>
      vs = [x] ∧ v.bounds.admits x = true := by
  refine (Encodes.map (fun _ x => ([x], x)) (encodes_push m v) (fun _ _ _ => rfl)
    fun ω => by rw [addedValues_push]).of_iff fun ω d => ?_
  constructor
  · rintro ⟨x, hx, rfl⟩
    exact ⟨rfl, hx⟩
  · rintro ⟨hvs, hx⟩
    exact ⟨d.2, hx, Prod.ext hvs.symm rfl⟩

/-- What adds no variable has no values. -/
theorem Encodes.writes {relation : (ConicRef → ℝ) → Unit → Prop}
    (h : m.Encodes m' (fun _ => ()) relation) (hvars : m'.vars = m.vars) :
    m.Writes m' (fun _ => ()) fun ω vs d => vs = [] ∧ relation ω d := by
  have hadded : ∀ ω : ConicRef → ℝ, m.addedValues m' ω = [] := by
    intro ω
    rw [← m.addedValues_self ω, addedValues, addedValues, values, values, hvars]
  refine (Encodes.map (fun _ x => ([], x)) h (fun _ _ _ => rfl)
    fun ω => by rw [hadded]).of_iff fun ω d => ?_
  constructor
  · rintro ⟨x, hx, rfl⟩
    exact ⟨rfl, hx⟩
  · rintro ⟨hvs, hx⟩
    exact ⟨d.2, hx, Prod.ext hvs.symm rfl⟩

end ConicModel

end AdjustableRobust
