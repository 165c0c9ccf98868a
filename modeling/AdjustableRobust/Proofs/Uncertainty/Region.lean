import AdjustableRobust.Proofs.Expression.Value
import AdjustableRobust.Uncertainty.Set

/-!
# Regions of realizations

A realization belongs to an alternative of an uncertainty set when it has one value for each
uncertainty, respects every bound and satisfies every constraint of the alternative. Bounds are
constraints too, so the region of an alternative is described by a single list of constraints, and
belonging to it means that all of them hold.
-/

namespace AdjustableRobust

/-! ## Constraints that hold exactly -/

/-- The relation to zero, without tolerance. -/
def ConstraintSense.Holds : ConstraintSense → ℝ → Prop
  | .leq, x => x ≤ 0
  | .geq, x => 0 ≤ x
  | .eq, x => x = 0

/-- Without tolerance the relation is checked exactly. -/
theorem ConstraintSense.holds_zero_iff (s : ConstraintSense) (x : ℝ) :
    s.holds x 0 = true ↔ s.Holds x := by
  cases s <;> simp [holds, Holds]

/-- The constraint holds when the variables have the given values. -/
def RawConstraint.Holds {V : Type} (c : RawConstraint (ConicExpr ℝ V)) (ω : V → ℝ) : Prop :=
  c.sense.Holds (c.expression.eval ω)

/-- Only the variables that occur matter. -/
theorem RawConstraint.holds_congr {V : Type} {c : RawConstraint (ConicExpr ℝ V)} {ω ω' : V → ℝ}
    (h : ∀ v ∈ c.expression.vars, ω v = ω' v) : c.Holds ω ↔ c.Holds ω' := by
  rw [Holds, Holds, ConicExpr.eval_congr h]

/-- A relation of affine expressions is one of the difference to zero. -/
theorem AffineExpr.holds_relate_iff {V : Type} {e f : AffineExpr ℝ V} {s : ConstraintSense}
    {ω : V → ℝ} : (e.relate s f).toConic.Holds ω ↔ s.Holds (e.eval ω - f.eval ω) := by
  simp [RawConstraint.Holds, RawConstraint.toConic, relate, ConicExpr.eval]

/-- A relation of an affine expression to a value is one of the difference to zero. -/
theorem AffineExpr.holds_relateValue_iff {V : Type} {e : AffineExpr ℝ V} {s : ConstraintSense}
    {b : ℝ} {ω : V → ℝ} : (e.relateValue s b).toConic.Holds ω ↔ s.Holds (e.eval ω - b) := by
  rw [relateValue, holds_relate_iff, eval_const]

/-- A relation to a value is about the variables of the expression. -/
theorem AffineExpr.vars_relateValue {V : Type} (e : AffineExpr ℝ V) (s : ConstraintSense) (b : ℝ) :
    (e.relateValue s b).toConic.expression.vars = e.vars := by
  simp [RawConstraint.toConic, relateValue, relate, ConicExpr.vars]

/-- The check succeeds exactly when no variable that occurs is refused and the constraint
holds. -/
theorem Constraint.feasible_iff {V : Type} {c : Constraint ℝ (ConicExpr ℝ V)}
    {a : Assignment ℝ V} {ω : V → ℝ} (h : a.Within ω) :
    c.feasible a 0 = .ok true ↔
      (∀ v ∈ c.expression.vars, a v = .ok (ω v)) ∧ c.toRawConstraint.Holds ω := by
  simp only [feasible, bind_eq_ok_iff, ConicExpr.value_eq_ok_iff h, pure_eq_ok_iff,
    ConstraintSense.holds_zero_iff, RawConstraint.Holds]
  constructor
  · rintro ⟨_, ⟨hv, rfl⟩, hs⟩
    exact ⟨hv, hs⟩
  · rintro ⟨hv, hs⟩
    exact ⟨_, ⟨hv, rfl⟩, hs⟩

/-- Under a total assignment the check says whether the constraint holds. -/
theorem Constraint.feasible_total_iff {V : Type} {c : Constraint ℝ (ConicExpr ℝ V)} {ω : V → ℝ} :
    c.feasible (.total ω) 0 = .ok true ↔ c.toRawConstraint.Holds ω := by
  rw [feasible_iff (Assignment.total_within ω)]
  simp [Assignment.total]

/-! ## Bounds as constraints -/

namespace Bounds

/-- The constraints that bound a variable, the lower one first. -/
noncomputable def rows {V : Type} (b : Bounds ℝ) (v : V) : List (RawConstraint (ConicExpr ℝ V)) :=
  (b.lower?.map fun l => ⟨.geq, .ofAffine ⟨-l, .var v⟩⟩).toList
    ++ (b.upper?.map fun u => ⟨.leq, .ofAffine ⟨-u, .var v⟩⟩).toList

/-- Zero is not above one. -/
theorem ordered_unit : ∀ l u : ℝ, some 0 = some l → some 1 = some u → ¬u < l := by
  rintro _ _ ⟨⟩ ⟨⟩
  norm_num

/-- Between zero and one. -/
noncomputable def unit : Bounds ℝ := ⟨some 0, some 1, ordered_unit⟩

/-- A value is admitted when it lies between the bounds that exist. -/
theorem admits_iff (b : Bounds ℝ) (x : ℝ) :
    b.admits x = true ↔ (∀ l, b.lower? = some l → l ≤ x) ∧ ∀ u, b.upper? = some u → x ≤ u := by
  unfold admits
  cases b.lower? <;> cases b.upper? <;> simp

@[simp] theorem admits_free (x : ℝ) : (free : Bounds ℝ).admits x = true := by
  simp [admits_iff, free]

@[simp] theorem admits_atLeast (l x : ℝ) : (atLeast l).admits x = true ↔ l ≤ x := by
  simp [admits_iff, atLeast]

@[simp] theorem admits_atMost (u x : ℝ) : (atMost u).admits x = true ↔ x ≤ u := by
  simp [admits_iff, atMost]

/-- A value is admitted when the constraints that bound the variable hold. -/
theorem admits_iff_rows {V : Type} (b : Bounds ℝ) (v : V) (ω : V → ℝ) :
    b.admits (ω v) = true ↔ ∀ c ∈ b.rows v, c.Holds ω := by
  obtain ⟨lower?, upper?, _⟩ := b
  rw [admits_iff]
  cases lower? <;> cases upper? <;>
    simp [rows, RawConstraint.Holds, ConstraintSense.Holds, ConicExpr.eval, ConicExpr.ofAffine,
      AffineExpr.eval]

/-- Without tolerance a value violates the bounds exactly when it is not admitted. -/
theorem violated_zero (b : Bounds ℝ) (x : ℝ) : b.violated 0 x = !b.admits x := by
  unfold violated admits
  cases b.lower? <;> cases b.upper? <;> simp [Bool.not_and, ← not_le]

/-- Only the bounded variable occurs. -/
theorem vars_of_mem_rows {V : Type} {b : Bounds ℝ} {v w : V} {c : RawConstraint (ConicExpr ℝ V)}
    (hc : c ∈ b.rows v) (hw : w ∈ c.expression.vars) : w = v := by
  simp only [rows, List.mem_append, Option.mem_toList, Option.map_eq_some_iff] at hc
  rcases hc with ⟨_, _, rfl⟩ | ⟨_, _, rfl⟩ <;>
    simpa [ConicExpr.vars, ConicExpr.ofAffine, AffineExpr.vars] using hw

end Bounds

/-! ## Membership -/

/-- An alternative is satisfied exactly when each of its constraints is. -/
theorem ConstraintSet.satisfied_iff (s : ConstraintSet ℝ) (a : Assignment ℝ UncertaintyRef) :
    s.satisfied a 0 = .ok true ↔ ∀ c ∈ s.constraints, c.feasible a 0 = .ok true := by
  unfold satisfied
  induction s.constraints with
  | nil => simp [satisfied.go]
  | cons c cs ih =>
    rw [satisfied.go, bind_eq_ok_iff, List.forall_mem_cons, ← ih]
    constructor
    · rintro ⟨b, hb, h⟩
      cases b with
      | true => exact ⟨hb, h⟩
      | false => simp [pure_eq_ok_iff] at h
    · rintro ⟨hb, h⟩
      exact ⟨true, hb, h⟩

namespace Store

variable {κ : EntityKind} {β : Type}

/-- The handles of the entries are those of the store. -/
theorem map_fst_entries (s : Store κ β) : s.entries.map (·.1) = s.handles := by
  rw [entries, handles, size, List.range_eq_range', ← List.zipIdx_map_snd 0 s.items, List.map_map,
    List.map_map]
  rfl

/-- No handle is issued twice. -/
theorem nodup_handles (s : Store κ β) : s.handles.Nodup :=
  List.Nodup.map (fun _ _ h => congrArg Handle.slot h) List.nodup_range

/-- The entries are the entities with the handles of their positions. -/
theorem mem_entries_iff {s : Store κ β} {e : Handle κ × β} :
    e ∈ s.entries ↔ ∃ i, s.items[i]? = some e.2 ∧ e.1 = s.handleFor i := by
  obtain ⟨h, x⟩ := e
  simp only [entries, List.mem_map, Prod.exists, List.mem_zipIdx_iff_getElem?, Prod.mk.injEq]
  constructor
  · rintro ⟨y, i, hi, rfl, rfl⟩
    exact ⟨i, hi, rfl⟩
  · rintro ⟨i, hi, rfl⟩
    exact ⟨x, i, hi, rfl, rfl⟩

/-- The entities of entries are in the store. -/
theorem mem_items_of_mem_entries {s : Store κ β} {e : Handle κ × β} (he : e ∈ s.entries) :
    e.2 ∈ s.items := by
  obtain ⟨i, hi, -⟩ := mem_entries_iff.1 he
  exact List.mem_of_getElem? hi

/-- The handles of entries point into the store. -/
theorem slot_lt_of_mem_entries {s : Store κ β} {e : Handle κ × β} (he : e ∈ s.entries) :
    e.1.slot < s.size := by
  obtain ⟨i, hi, h⟩ := mem_entries_iff.1 he
  rw [h]
  exact (List.getElem?_eq_some_iff.1 hi).1

end Store

namespace UncertaintySet

/-- A handle has a variable when owner and epoch agree and the variable is at its position. -/
theorem variableAt_eq_ok_iff {s : UncertaintySet ℝ} {h : UncertaintyRef}
    {v : UncertaintyVariable ℝ} :
    s.variableAt h = .ok v ↔
      h.owner = s.vars.owner ∧ h.epoch = s.vars.epoch ∧ s.vars.items[h.slot]? = some v :=
  liftM_eq_ok_iff.trans (Store.get_eq_ok_iff _ _ _)

/-- A handle with an uncertainty has a position in the set. -/
theorem slot_lt_of_variableAt {s : UncertaintySet ℝ} {h : UncertaintyRef}
    {v : UncertaintyVariable ℝ} (hv : s.variableAt h = .ok v) : h.slot < s.numVariables :=
  (List.getElem?_eq_some_iff.1 (variableAt_eq_ok_iff.1 hv).2.2).1

/-- A handle has an alternative when owner and epoch agree and the alternative is at its
position. -/
theorem alternativeAt_eq_ok_iff {s : UncertaintySet ℝ} {h : ConstraintSetRef}
    {c : ConstraintSet ℝ} :
    s.alternativeAt h = .ok c ↔
      h.owner = s.alternatives.owner ∧ h.epoch = s.alternatives.epoch ∧
        s.alternatives.items[h.slot]? = some c :=
  liftM_eq_ok_iff.trans (Store.get_eq_ok_iff _ _ _)

/-- The handles of the store resolve to its alternatives, in order. -/
theorem eq_items_of_alternativeAt {s : UncertaintySet ℝ} {cs : List (ConstraintSet ℝ)}
    (h : List.Forall₂ (fun set c => s.alternativeAt set = .ok c) s.alternatives.handles cs) :
    cs = s.alternatives.items := by
  have hlen : s.alternatives.items.length = cs.length := by
    simpa [Store.handles, Store.size] using h.length_eq
  refine List.ext_getElem hlen.symm fun i hi hi' => ?_
  have hget := (alternativeAt_eq_ok_iff.1 (h.get (by simpa [Store.handles, Store.size]) hi)).2.2
  simp only [Store.handles, Store.handleFor, List.get_eq_getElem, List.getElem_map,
    List.getElem_range, List.getElem?_eq_getElem hi', Option.some.injEq] at hget
  exact hget.symm

/-- Bounds are respected exactly when every value exists and is admitted. -/
theorem boundsRespected_iff (a : Assignment ℝ UncertaintyRef)
    (vs : List (UncertaintyRef × UncertaintyVariable ℝ)) :
    boundsRespected a 0 vs = .ok true ↔
      ∀ e ∈ vs, ∃ x, a e.1 = .ok x ∧ e.2.bounds.admits x = true := by
  induction vs with
  | nil => simp [boundsRespected]
  | cons e vs ih =>
    obtain ⟨h, v⟩ := e
    simp only [boundsRespected, bind_eq_ok_iff, List.forall_mem_cons, ← ih, Bounds.violated_zero]
    constructor
    · rintro ⟨x, hx, hr⟩
      split at hr
      · simp [pure_eq_ok_iff] at hr
      · next hv => exact ⟨⟨x, hx, by simpa using hv⟩, hr⟩
    · rintro ⟨⟨x, hx, hv⟩, hr⟩
      exact ⟨x, hx, by simpa [hv] using hr⟩

/-- A realization belongs to an alternative: it has a value for each uncertainty, and passes the
checks of bounds and constraints without tolerance. -/
structure Realizes (s : UncertaintySet ℝ) (alternative : ConstraintSet ℝ) (r : List ℝ) : Prop where
  length : r.length = s.numVariables
  bounds : boundsRespected (.ofList r) 0 s.vars.entries = .ok true
  constraints : alternative.satisfied (.ofList r) 0 = .ok true

/-- All constraints on the realizations of an alternative, those that bound variables last. -/
noncomputable def region (s : UncertaintySet ℝ) (alternative : ConstraintSet ℝ) :
    List (RawConstraint (ConicExpr ℝ UncertaintyRef)) :=
  alternative.constraints.map (·.toRawConstraint)
    ++ s.vars.entries.flatMap fun e => e.2.bounds.rows e.1

/-- Bounds are respected by a list of values exactly when they are respected by position. -/
theorem boundsRespected_ofList_iff {s : UncertaintySet ℝ} {r : List ℝ}
    (hr : r.length = s.numVariables) :
    boundsRespected (.ofList r) 0 s.vars.entries = .ok true ↔
      ∀ e ∈ s.vars.entries, e.2.bounds.admits (bySlot (entryAt r) e.1) = true := by
  rw [boundsRespected_iff]
  refine forall₂_congr fun e he => ?_
  have hlt : e.1.slot < r.length := hr ▸ Store.slot_lt_of_mem_entries he
  rw [Assignment.ofList_eq_bySlot_iff.2 hlt]
  simp

/-- Bounds are respected by a list of values of the right length exactly when every value is
admitted by the bounds at its position. -/
theorem forall₂_admits_iff {s : UncertaintySet ℝ} {r : List ℝ} :
    List.Forall₂ (fun v x => v.bounds.admits x = true) s.vars.items r ↔
      r.length = s.numVariables ∧ boundsRespected (.ofList r) 0 s.vars.entries = .ok true := by
  rw [List.forall₂_iff_get, eq_comm (a := s.vars.items.length)]
  refine and_congr_right fun hr => ?_
  rw [boundsRespected_ofList_iff hr]
  constructor
  · intro h e he
    obtain ⟨i, hi, hhandle⟩ := Store.mem_entries_iff.1 he
    obtain ⟨hlt, hget⟩ := List.getElem?_eq_some_iff.1 hi
    have hlt' : i < r.length := hr ▸ hlt
    have hvalue : bySlot (entryAt r) e.1 = r[i] := by
      rw [hhandle]
      simp [bySlot, entryAt, Store.handleFor, List.getD_eq_getElem?_getD, hlt']
    rw [hvalue, ← hget]
    exact h i hlt hlt'
  · intro h i hi hi'
    have hvalue : bySlot (entryAt r) (s.vars.handleFor i) = r[i] := by
      simp [bySlot, entryAt, Store.handleFor, List.getD_eq_getElem?_getD, hi']
    rw [List.get_eq_getElem, List.get_eq_getElem, ← hvalue]
    exact h (s.vars.handleFor i, s.vars.items[i])
      (Store.mem_entries_iff.2 ⟨i, List.getElem?_eq_getElem hi, rfl⟩)

/-- All constraints of a region hold when those of the alternative do and all bounds are
respected. -/
theorem holds_region_iff {s : UncertaintySet ℝ} {alternative : ConstraintSet ℝ} {u : ℕ → ℝ} :
    (∀ c ∈ s.region alternative, c.Holds (bySlot u)) ↔
      (∀ c ∈ alternative.constraints, c.toRawConstraint.Holds (bySlot u)) ∧
        ∀ e ∈ s.vars.entries, e.2.bounds.admits (bySlot u e.1) = true := by
  simp only [region, List.mem_append, or_imp, forall_and, List.forall_mem_map, List.mem_flatMap,
    forall_exists_index, and_imp, Bounds.admits_iff_rows]
  exact and_congr_right fun _ => ⟨fun h e he c hc => h c e he hc, fun h c e he hc => h e he c hc⟩

/-- A realization belongs to an alternative exactly when it has the right number of values, the
constraints of the alternative refer to these values, and all constraints of the region hold. -/
theorem realizes_iff {s : UncertaintySet ℝ} {alternative : ConstraintSet ℝ} {r : List ℝ} :
    s.Realizes alternative r ↔
      r.length = s.numVariables ∧
        (∀ c ∈ alternative.constraints, ∀ v ∈ c.expression.vars, v.slot < s.numVariables) ∧
        ∀ c ∈ s.region alternative, c.Holds (bySlot (entryAt r)) := by
  rw [holds_region_iff]
  constructor
  · rintro ⟨hr, hb, hc⟩
    rw [boundsRespected_ofList_iff hr] at hb
    rw [ConstraintSet.satisfied_iff] at hc
    have hf := fun c hm => (Constraint.feasible_iff (Assignment.ofList_within r)).1 (hc c hm)
    refine ⟨hr, fun c hm v hv => ?_, fun c hm => (hf c hm).2, hb⟩
    rw [← hr]
    exact Assignment.ofList_eq_bySlot_iff.1 ((hf c hm).1 v hv)
  · rintro ⟨hr, hv, hc, hb⟩
    refine ⟨hr, (boundsRespected_ofList_iff hr).2 hb, ?_⟩
    rw [ConstraintSet.satisfied_iff]
    intro c hm
    refine (Constraint.feasible_iff (Assignment.ofList_within r)).2 ⟨fun v hmv => ?_, hc c hm⟩
    exact Assignment.ofList_eq_bySlot_iff.2 (hr ▸ hv c hm v hmv)

/-- Only uncertainties of the set occur in a region whose alternative refers to them. -/
theorem slot_lt_of_mem_region {s : UncertaintySet ℝ} {alternative : ConstraintSet ℝ}
    (hslots : ∀ c ∈ alternative.constraints, ∀ v ∈ c.expression.vars, v.slot < s.numVariables) :
    ∀ c ∈ s.region alternative, ∀ v ∈ c.expression.vars, v.slot < s.numVariables := by
  intro c hc v hv
  rcases List.mem_append.1 hc with hc | hc
  · obtain ⟨d, hd, rfl⟩ := List.mem_map.1 hc
    exact hslots d hd v hv
  · obtain ⟨e, he, hrow⟩ := List.mem_flatMap.1 hc
    rw [Bounds.vars_of_mem_rows hrow hv]
    exact Store.slot_lt_of_mem_entries he

/-- Entries of the list of the first values. -/
theorem entryAt_map_range {n i : ℕ} (u : ℕ → ℝ) (hi : i < n) :
    entryAt ((List.range n).map u) i = u i := by
  simp [entryAt, List.getD_eq_getElem?_getD, hi]

/-- The first values of what satisfies the constraints of a region belong to the alternative. -/
theorem realizes_map_range {s : UncertaintySet ℝ} {alternative : ConstraintSet ℝ} {u : ℕ → ℝ}
    (hslots : ∀ c ∈ alternative.constraints, ∀ v ∈ c.expression.vars, v.slot < s.numVariables)
    (hu : ∀ c ∈ s.region alternative, c.Holds (bySlot u)) :
    s.Realizes alternative ((List.range s.numVariables).map u) := by
  refine realizes_iff.2 ⟨by simp, hslots, fun c hc => ?_⟩
  refine (RawConstraint.holds_congr fun v hv => ?_).2 (hu c hc)
  exact entryAt_map_range u (slot_lt_of_mem_region hslots c hc v hv)

end UncertaintySet

end AdjustableRobust
