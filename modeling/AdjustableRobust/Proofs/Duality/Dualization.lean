import AdjustableRobust.Proofs.Conic.Appending
import AdjustableRobust.Proofs.Duality.Lagrangian

/-!
# Dualized constraints

Dualizing a constraint appends a variable for its dual and one for the dual of each row of its norm,
bounds the duals of the rows by a cone, and adds the constraint, weighted by its duals, to the
Lagrangian. Whatever the values of the appended variables are, they are duals; they are admissible
when the appended bounds and constraints hold.
-/

namespace AdjustableRobust

variable {κ : EntityKind}

/-- Bounds of the duals of a constraint: those of its own one, and none for those of the rows. -/
noncomputable def RawConstraint.dualBounds (c : RawConstraint (ConicExpr ℝ (Handle κ))) :
    List (Bounds ℝ) :=
  c.sense.dualBounds :: List.replicate c.rows.length .free

/-! ## Duals by their values -/

/-- There is a dual for every constraint and every row. -/
def FitDuals (cs : List (RawConstraint (ConicExpr ℝ (Handle κ)))) (ds : List Dual) : Prop :=
  List.Forall₂ (fun c d => d.rows.length = c.rows.length) cs ds

/-- The duals of all rows are bounded. -/
def BoundDuals (cs : List (RawConstraint (ConicExpr ℝ (Handle κ)))) (ds : List Dual) : Prop :=
  List.Forall₂ (fun c d => c.BoundsRowDuals d.own d.rows) cs ds

section Duals

variable {cs cs' : List (RawConstraint (ConicExpr ℝ (Handle κ)))} {ds ds' : List Dual}

private theorem forall₂_append_iff {α β : Type} {R : α → β → Prop} {as as' : List α}
    {bs bs' : List β} (h : as.length = bs.length) :
    List.Forall₂ R (as ++ as') (bs ++ bs') ↔ List.Forall₂ R as bs ∧ List.Forall₂ R as' bs' := by
  refine ⟨fun hR => ?_, fun hR => List.rel_append hR.1 hR.2⟩
  have htake := List.forall₂_take_append _ _ _ hR
  have hdrop := List.forall₂_drop_append _ _ _ hR
  rw [← h, List.take_left] at htake
  rw [← h, List.drop_left] at hdrop
  exact ⟨htake, hdrop⟩

/-- Duals that fit are determined by their values. -/
theorem FitDuals.eq_of_values (h : FitDuals cs ds) (h' : FitDuals cs ds')
    (hvalues : ds.flatMap (·.values) = ds'.flatMap (·.values)) : ds = ds' := by
  induction h generalizing ds' with
  | nil => exact (List.forall₂_nil_left_iff.1 h').symm
  | cons hd _ ih =>
    obtain ⟨d', rest, hd', hrest, rfl⟩ := List.forall₂_cons_left_iff.1 h'
    rw [List.flatMap_cons, List.flatMap_cons, Dual.values, Dual.values, List.cons_append,
      List.cons_append, List.cons.injEq] at hvalues
    obtain ⟨hown, hvalues⟩ := hvalues
    obtain ⟨hrows, hvalues⟩ := List.append_inj hvalues (hd.trans hd'.symm)
    rw [ih hrest hvalues, Dual.ext hown hrows]

/-- Bounds of rows of two lists of constraints. -/
theorem boundDuals_append_iff (h : cs.length = ds.length) :
    BoundDuals (cs ++ cs') (ds ++ ds') ↔ BoundDuals cs ds ∧ BoundDuals cs' ds' :=
  forall₂_append_iff h

/-- Duals are admissible when they fit, the bounds of the duals admit them, and those of the rows
are bounded. -/
theorem admitsDuals_iff : AdmitsDuals cs ds ↔ FitDuals cs ds ∧
    List.Forall₂ (fun b x => b.admits x = true) (cs.flatMap (·.dualBounds))
      (ds.flatMap (·.values)) ∧ BoundDuals cs ds := by
  have hfree : ∀ xs : List ℝ, List.Forall₂ (fun (b : Bounds ℝ) x => b.admits x = true)
      (List.replicate xs.length .free) xs := by
    intro xs
    induction xs with
    | nil => exact .nil
    | cons x xs ih => exact .cons (Bounds.admits_free x) ih
  constructor
  · intro h
    refine ⟨h.imp fun _ _ hd => hd.length, ?_, h.imp fun _ _ hd => hd.bounded⟩
    induction h with
    | nil => exact .nil
    | cons hd _ ih =>
      rw [List.flatMap_cons, List.flatMap_cons,
        forall₂_append_iff (by simp [RawConstraint.dualBounds, Dual.values, hd.length])]
      exact ⟨.cons hd.sign (hd.length ▸ hfree _), ih⟩
  · rintro ⟨hfit, hadmits, hbound⟩
    induction hfit with
    | nil => exact .nil
    | cons hd _ ih =>
      rw [List.flatMap_cons, List.flatMap_cons,
        forall₂_append_iff (by simp [RawConstraint.dualBounds, Dual.values, hd])] at hadmits
      obtain _ | ⟨hfirst, hrest⟩ := hbound
      exact .cons ⟨(List.forall₂_cons.1 hadmits.1).1, hd, hfirst⟩ (ih hadmits.2 hrest)

end Duals

/-! ## Dualizing -/

/-- Constraints have been dualized: the conic model got their duals as variables, with cones that
bound those of the rows, and the Lagrangian grew by the constraints weighted by the duals. The
variables that occur in the constraints have residuals. -/
structure Dualizes (m m' : ConicModel ℝ) (l l' : Lagrangian ℝ)
    (cs : List (RawConstraint (ConicExpr ℝ (Handle κ)))) : Prop where
  extension : m.Extends m'
  bounds : m'.vars.items.map (·.bounds) =
    m.vars.items.map (·.bounds) ++ cs.flatMap (·.dualBounds)
  residuals : l'.residuals.length = l.residuals.length
  slots : ∀ c ∈ cs, ∀ v ∈ c.expression.vars, v.slot < l.residuals.length
  /-- The values of the variables that are appended are duals. The constraints that are appended
  bound those of the rows, and the Lagrangian grows by the weighted constraints. -/
  duals : ∀ ω, ∃ ds, FitDuals cs ds ∧ m.addedValues m' ω = ds.flatMap (·.values) ∧
    ((∀ k ∈ m'.constraints.drop m.constraints.length, k.toRawConstraint.Holds ω) ↔
      BoundDuals cs ds) ∧ l'.valueAt ω = l.valueAt ω + weightedSum cs ds

namespace Dualizes

variable {m m' m₁ m₂ : ConicModel ℝ} {l l' l₁ l₂ : Lagrangian ℝ} {ω : ConicRef → ℝ}
variable {cs cs' : List (RawConstraint (ConicExpr ℝ (Handle κ)))} {ds : List Dual}

/-- No constraint, no change. -/
theorem nil (m : ConicModel ℝ) (l : Lagrangian ℝ) :
    Dualizes m m l l ([] : List (RawConstraint (ConicExpr ℝ (Handle κ)))) :=
  ⟨.refl m, (List.append_nil _).symm, rfl, by simp,
    fun ω => ⟨[], .nil, m.addedValues_self ω, by simp [BoundDuals], by simp⟩⟩

/-- One list of constraints after the other. -/
theorem append (h : Dualizes m m₁ l l₁ cs) (h' : Dualizes m₁ m₂ l₁ l₂ cs') :
    Dualizes m m₂ l l₂ (cs ++ cs') where
  extension := h.extension.trans h'.extension
  bounds := by rw [h'.bounds, h.bounds, List.flatMap_append, List.append_assoc]
  residuals := h'.residuals.trans h.residuals
  slots := List.forall_mem_append.2 ⟨h.slots, h.residuals ▸ h'.slots⟩
  duals ω := by
    obtain ⟨ds, hfit, hvalues, hcones, hval⟩ := h.duals ω
    obtain ⟨ds', hfit', hvalues', hcones', hval'⟩ := h'.duals ω
    refine ⟨ds ++ ds', List.rel_append hfit hfit', ?_, ?_, ?_⟩
    · rw [h.extension.addedValues_eq h'.extension, hvalues, hvalues', List.flatMap_append]
    · rw [h.extension.forall_added_iff h'.extension, hcones, hcones',
        boundDuals_append_iff hfit.length_eq]
    · rw [hval', hval, weightedSum_append hfit.length_eq, add_assoc]

/-- A constraint is dualized by a variable for each of its duals, cones that bound the duals of the
rows, and all its rows with their duals. -/
theorem of_constraint {c : RawConstraint (ConicExpr ℝ (Handle κ))} {dv : ConicRef}
    {duals : List ConicRef} (hvars : m.AddsVariables m₁ (dv :: duals) c.dualBounds)
    (hcones : m₁.AddsConstraints m' fun ω => c.BoundsRowDuals (ω dv) (duals.map ω))
    (hgains : l.Gains l' (c.expression.affine :: c.rows) (dv :: duals)) :
    Dualizes m m' l l' [c] where
  extension := hvars.extension.trans hcones.extension
  bounds := by rw [hcones.vars, hvars.bounds, List.flatMap_singleton]
  residuals := hgains.growth.1
  slots := by
    obtain ⟨haffine, hrows⟩ := List.forall_mem_cons.1 hgains.slots
    refine List.forall_mem_singleton.2 fun v hv => ?_
    rcases List.mem_append.1 hv with hv | hv
    · cases hn : c.expression.normed? with
      | none => simp [hn] at hv
      | some n =>
        simp only [hn, Option.elim, NormedVector.vars, List.mem_flatMap] at hv
        obtain ⟨row, hrow, hv⟩ := hv
        exact hrows row (by simpa [RawConstraint.rows, hn] using hrow) v hv
    · exact haffine v hv
  duals ω := by
    refine ⟨[⟨ω dv, duals.map ω⟩], .cons ?_ .nil, ?_, ?_, ?_⟩
    · simpa using hgains.length
    · rw [hvars.extension.addedValues_eq hcones.extension, hvars.addedValues, hcones.addedValues]
      simp [Dual.values]
    · rw [← hvars.constraints, hcones.holds]
      simp [BoundDuals]
    · funext u
      simp only [hgains.growth.2, weightedSum_cons, weightedSum_nil, add_zero, Pi.add_apply,
        List.map_cons, pairing_cons_cons, RawConstraint.weighted]

/-- Without a norm, a constraint is dualized by a single variable. -/
theorem of_affine {s : ConstraintSense} {e : AffineExpr ℝ (Handle κ)} {dv : ConicRef}
    (hvars : m.AddsVariables m' [dv] [s.dualBounds]) (hgains : l.Gains l' [e] [dv]) :
    Dualizes m m' l l' [⟨s, .ofAffine e⟩] :=
  of_constraint hvars (.refl m' fun _ n hn => by simp [ConicExpr.ofAffine] at hn) hgains

/-- With a norm, a constraint is dualized by a variable for itself, free ones for the rows, and the
cone that bounds the latter by the former. -/
theorem of_normed {s : ConstraintSense} {n : NormedVector ℝ (Handle κ)}
    {e : AffineExpr ℝ (Handle κ)} {dv : ConicRef} {duals : List ConicRef} {name : String}
    (hvars : m.AddsVariables m₁ (dv :: duals)
      (s.dualBounds :: List.replicate n.rows.length .free))
    (hgains : l.Gains l' (e :: n.rows) (dv :: duals)) :
    Dualizes m (m₁.addConstraint name ((ConicExpr.normOf n.norm.dual duals).relate .leq (.var dv)))
      l l' [⟨s, ⟨some n, e⟩⟩] := by
  refine of_constraint hvars ((m₁.addsConstraints_addConstraint _ _).of_iff fun ω => ?_) hgains
  simp [RawConstraint.BoundsRowDuals, RawConstraint.Holds, ConstraintSense.Holds, ConicExpr.relate,
    ConicExpr.addAffine, ConicExpr.normOf, ConicExpr.eval]

/-- Dualizing the entries of a list one after the other dualizes the constraints of all of
them. -/
theorem foldlM {β ε : Type} {rows : β → List (RawConstraint (ConicExpr ℝ (Handle κ)))}
    {f : Lagrangian ℝ → β → Step (ConicModel ℝ) ε (Lagrangian ℝ)}
    (hf : ∀ x m m' l l', f l x m = .ok l' m' → Dualizes m m' l l' (rows x))
    {xs : List β} (hrun : xs.foldlM f l m = .ok l' m') : Dualizes m m' l l' (xs.flatMap rows) := by
  induction xs generalizing m l with
  | nil =>
    rw [List.foldlM_nil, Step.pure_eq_ok_iff] at hrun
    obtain ⟨rfl, rfl⟩ := hrun
    exact nil m l
  | cons x xs ih =>
    rw [List.foldlM_cons, Step.bind_eq_ok_iff] at hrun
    obtain ⟨l₁, m₁, hfirst, hrest⟩ := hrun
    exact (hf x m m₁ l l₁ hfirst).append (ih hrest)

end Dualizes

/-! ## Duals of minimizations -/

/-- The dual of minimizing a function over constraints has been appended: next to what dualizing the
constraints appends, further constraints demand that the function, with the weighted constraints
added, is constant. This constant is the dual objective. -/
structure AppendsDual (m m' : ConicModel ℝ) (o : AffineExpr ℝ ConicRef)
    (cs : List (RawConstraint (ConicExpr ℝ (Handle κ)))) (f : (ConicRef → ℝ) → (ℕ → ℝ) → ℝ) :
    Prop where
  extension : m.Extends m'
  bounds : m'.vars.items.map (·.bounds) =
    m.vars.items.map (·.bounds) ++ cs.flatMap (·.dualBounds)
  /-- The values of the variables that are appended are duals. The constraints that are appended
  bound those of the rows and make the function constant. -/
  duals : ∀ ω, ∃ ds, FitDuals cs ds ∧ m.addedValues m' ω = ds.flatMap (·.values) ∧
    ((∀ k ∈ m'.constraints.drop m.constraints.length, k.toRawConstraint.Holds ω) ↔
      BoundDuals cs ds ∧ ∀ u, f ω u + weightedSum cs ds u = f ω 0 + weightedSum cs ds 0) ∧
    o.eval ω = f ω 0 + weightedSum cs ds 0

/-- The dual of a minimization is appended by dualizing the constraints, adding the function, and
requiring the residuals to vanish. -/
theorem Dualizes.appendsDual {m m₁ m' : ConicModel ℝ} {l₁ l₂ : Lagrangian ℝ} {n : ℕ}
    {cs : List (RawConstraint (ConicExpr ℝ (Handle κ)))} {f : (ConicRef → ℝ) → (ℕ → ℝ) → ℝ}
    (h : Dualizes m m₁ (.zero n) l₁ cs) (hgrows : l₁.GrowsBy l₂ f)
    (hresiduals : m₁.AddsConstraints m' fun ω => ∀ e ∈ l₂.residuals, e.eval ω = 0) :
    AppendsDual m m' l₂.objective cs f where
  extension := h.extension.trans hresiduals.extension
  bounds := by rw [hresiduals.vars, h.bounds]
  duals ω := by
    obtain ⟨ds, hfit, hvalues, hcones, hval⟩ := h.duals ω
    have hfun : ∀ u, l₂.valueAt ω u = f ω u + weightedSum cs ds u := fun u => by
      rw [hgrows.2, hval, Lagrangian.valueAt_zero, zero_add, add_comm]
    refine ⟨ds, hfit, ?_, ?_, ?_⟩
    · rw [h.extension.addedValues_eq hresiduals.extension, hresiduals.addedValues,
        List.append_nil, hvalues]
    · rw [h.extension.forall_added_iff hresiduals.extension, hcones, hresiduals.holds,
        ← l₂.forall_valueAt_eq_iff]
      simp only [hfun]
    · rw [← l₂.valueAt_origin, hfun]

namespace AppendsDual

variable {m m' : ConicModel ℝ} {o : AffineExpr ℝ ConicRef} {ω : ConicRef → ℝ} {ds : List Dual}
variable {cs : List (RawConstraint (ConicExpr ℝ (Handle κ)))}
variable {f : (ConicRef → ℝ) → (ℕ → ℝ) → ℝ}

/-- The duals that are read off decide about the appended constraints and the objective. -/
theorem of_values (h : AppendsDual m m' o cs f) (hfit : FitDuals cs ds)
    (hvalues : m.addedValues m' ω = ds.flatMap (·.values)) :
    ((∀ k ∈ m'.constraints.drop m.constraints.length, k.toRawConstraint.Holds ω) ↔
      BoundDuals cs ds ∧ ∀ u, f ω u + weightedSum cs ds u = f ω 0 + weightedSum cs ds 0) ∧
    o.eval ω = f ω 0 + weightedSum cs ds 0 := by
  obtain ⟨ds', hfit', hvalues', hrest⟩ := h.duals ω
  rwa [hfit.eq_of_values hfit' (hvalues.symm.trans hvalues')]

/-- Feasible values of the appended variables are those of valid certificates for the value of the
objective. -/
theorem addedFeasible_iff (h : AppendsDual m m' o cs f) : m.AddedFeasible m' ω ↔
    ∃ k : Certificate, k.Valid cs (f ω) ∧ m.addedValues m' ω = k.values ∧ k.value = o.eval ω := by
  obtain ⟨ds, hfit, hvalues, hconstraints, hobjective⟩ := h.duals ω
  rw [ConicModel.addedFeasible_iff_values h.bounds, hconstraints, hvalues, hobjective]
  constructor
  · rintro ⟨hbounds, hbound, hconstant⟩
    exact ⟨⟨ds, _⟩, ⟨admitsDuals_iff.2 ⟨hfit, hbounds, hbound⟩, hconstant⟩, rfl, rfl⟩
  · rintro ⟨⟨ds', v⟩, ⟨hadmits, hconstant⟩, hsame, rfl⟩
    obtain ⟨hfit', hbounds, hbound⟩ := admitsDuals_iff.1 hadmits
    obtain rfl := hfit.eq_of_values hfit' hsame
    exact ⟨hbounds, hbound, hconstant⟩

/-- The duals and their objective take exactly the values of valid certificates, when the function
does not depend on what is appended. -/
theorem writes (h : AppendsDual m m' o cs f) (hf : ∀ ω ω', m.Agree ω ω' → f ω' = f ω) :
    m.Writes m' o.eval fun ω vs v =>
      ∃ k : Certificate, k.Valid cs (f ω) ∧ vs = k.values ∧ k.value = v := by
  have hobjective : ∀ ω ω', m'.Agree ω ω' → o.eval ω' = o.eval ω := fun ω ω' ha => by
    obtain ⟨ds, hfit, hvalues, -, hval⟩ := h.duals ω
    rw [hval, (h.of_values hfit ((ConicModel.addedValues_congr ha).trans hvalues)).2,
      hf ω ω' (h.extension.agree ha)]
  refine ⟨h.extension, fun ω ω' ha hω => ?_, fun ω ω' ha => ?_, fun ω hω => ?_, ?_⟩
  · rw [h.addedFeasible_iff] at hω ⊢
    rwa [ConicModel.addedValues_congr ha, hobjective ω ω' ha, hf ω ω' (h.extension.agree ha)]
  · rw [ConicModel.addedValues_congr ha, hobjective ω ω' ha]
  · exact h.addedFeasible_iff.1 hω
  · rintro ω ⟨_, _⟩ ⟨k, hk, rfl, rfl⟩
    obtain ⟨hfit, hbounds, -⟩ := admitsDuals_iff.1 hk.admits
    have hsize : m'.numVariables = m.numVariables + k.values.length := by
      have hlength := congrArg List.length h.bounds
      rwa [List.length_map, List.length_append, List.length_map, hbounds.length_eq] at hlength
    obtain ⟨ω', ha, hvalues⟩ := ConicModel.exists_addedValues_eq ω hsize
    have hvalue : k.value = o.eval ω' := by
      rw [(h.of_values hfit hvalues).2, hf ω ω' ha, ← hk.constant 0]
    refine ⟨ω', ha, h.addedFeasible_iff.2 ⟨k, ?_, hvalues, hvalue⟩, by rw [hvalues, hvalue]⟩
    rwa [hf ω ω' ha]

end AppendsDual

end AdjustableRobust
