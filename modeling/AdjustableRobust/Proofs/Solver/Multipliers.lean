import AdjustableRobust.Proofs.Solver.Assembly
import AdjustableRobust.Solver.Hierarchy

/-!
# Multipliers of rows and duals of models

Standard form and dual describe the same Lagrangian: the one by multipliers of its rows, the other
by a variable for each constraint and each bound. Rows and dual variables stand in the same order
and differ in signs only. Multipliers that the cones allow and that leave no cost on any column are
turned by these signs into values that satisfy the dual, with the same objective value.
-/

namespace AdjustableRobust

/-! ## Rows of affine constraints -/

/-- The kinds of all rows of cones; rows of second order cones are not linear. -/
def Cone.rowKinds (cones : List Cone) : List (Option LinearCone) :=
  cones.flatMap fun
    | .zero n => List.replicate n (some .zero)
    | .nonnegative n => List.replicate n (some .nonnegative)
    | .secondOrder n => List.replicate n none

/-- One more row has the kind that it is given, whether a cone is opened or extended. -/
theorem Cone.rowKinds_extendCones (kind : LinearCone) (cones : List Cone) :
    rowKinds (ConeRows.extendCones kind cones) = rowKinds cones ++ [some kind] := by
  fun_induction ConeRows.extendCones kind cones with
  | case7 cone cones _ ih => simp_all [rowKinds]
  | _ => simp_all [rowKinds, List.replicate_succ']

namespace ConeRows

variable {r : ConeRows ℝ} {n : ℕ} {row : Row ℝ} {b : ℝ}
variable {cs : List (RawConstraint (ConicExpr ℝ ConicRef))}
  {c : RawConstraint (ConicExpr ℝ ConicRef)}

/-- The rows are those of affine constraints, in the order of the list: the cone and the sign of
each row are those of the sense of its constraint. -/
structure Lists (r : ConeRows ℝ) (n : ℕ) (cs : List (RawConstraint (ConicExpr ℝ ConicRef))) :
    Prop where
  within : r.Within n
  kinds : Cone.rowKinds r.cones = cs.map fun c => some c.sense.rowCone
  slacks : ∀ z, r.slacks z =
    cs.map fun c => -(c.sense.rowSign * c.expression.affine.eval (bySlot z))

namespace Lists

/-- There are as many rows as constraints. -/
theorem numRows (h : r.Lists n cs) : r.numRows = cs.length := by
  rw [← length_slacks r 0, h.slacks, List.length_map]

/-- Without rows there are no constraints. -/
theorem empty (n : ℕ) : (ConeRows.empty : ConeRows ℝ).Lists n [] :=
  ⟨within_empty n, rfl, fun _ => rfl⟩

/-- A row is appended. -/
theorem push (h : r.Lists n cs) (hrow : row.Within n)
    (hslack : ∀ z, b - row.eval z = -(c.sense.rowSign * c.expression.affine.eval (bySlot z))) :
    (r.pushLinear row b c.sense.rowCone).Lists n (cs ++ [c]) where
  within := h.within.pushLinear hrow _
  kinds := by
    rw [List.map_append, ← h.kinds]
    exact Cone.rowKinds_extendCones _ _
  slacks z := by
    rw [List.map_append, List.map_singleton, ← h.slacks, ← hslack]
    exact h.within.slacks_pushRow

end Lists

end ConeRows

namespace StandardForm

open ConeRows

variable {m : ConicModel ℝ} {f : StandardForm ℝ} {r : ConeRows ℝ} {n : ℕ}
variable {cs : List (RawConstraint (ConicExpr ℝ ConicRef))}

/-- Affine constraints become their rows, whose multipliers are their duals up to the signs of the
rows. -/
private theorem lists_foldlM_addConstraint {draft : Draft ℝ}
    (haffine : ∀ c ∈ m.constraints, c.expression.normed? = none)
    (hrun : m.constraints.foldlM (addConstraint m) ⟨ConeRows.empty, m.numVariables, some []⟩ =
      .ok draft) :
    draft.rows.Lists m.numVariables (m.constraints.map (·.toRawConstraint)) ∧
      draft.numColumns = m.numVariables ∧
        draft.dualRows? = some (m.constraints.zipIdx.map fun p => (p.2, p.1.sense.rowSign)) := by
  refine foldlM_prefix (I := fun ps (d : Draft ℝ) =>
    d.rows.Lists m.numVariables (ps.map (·.toRawConstraint)) ∧ d.numColumns = m.numVariables ∧
      d.dualRows? = some (ps.zipIdx.map fun p => (p.2, p.1.sense.rowSign))) ?_
    ⟨.empty _, rfl, rfl⟩ hrun
  rintro ps c rest d d' hps ⟨hlists, hcolumns, hduals⟩ hstep
  have hc : c.expression.normed? = none := haffine c (hps ▸ by simp)
  simp only [addConstraint, hc, bind_eq_ok_iff, pure_eq_ok_iff] at hstep
  obtain ⟨⟨rows, sign⟩, hadd, rfl⟩ := hstep
  obtain ⟨row, hrow, rfl, rfl⟩ := addAffine_eq_ok hadd
  refine ⟨?_, hcolumns, ?_⟩
  · rw [List.map_append, List.map_singleton]
    exact hlists.push (rowOf_eq_ok hrow).1 (slack_eq hrow)
  · rw [hduals, hlists.numRows, List.length_map, List.zipIdx_append]
    simp

private theorem lists_addBounds (h : r.Lists n cs) {v : ConicRef} (hv : v.slot < n)
    (b : Bounds ℝ) : (addBounds r v.slot b).Lists n (cs ++ b.rows v) := by
  have hrow : ∀ c : ℝ, Row.Within [(v.slot, c)] n := fun c => .cons hv fun _ hp => nomatch hp
  have hlower : ∀ {r : ConeRows ℝ} {cs}, r.Lists n cs → ∀ l : ℝ,
      (r.pushLinear [(v.slot, -1)] (-l) .nonnegative).Lists n
        (cs ++ [⟨.geq, .ofAffine ⟨-l, .var v⟩⟩]) := by
    refine fun h l => h.push (c := ⟨.geq, .ofAffine ⟨-l, .var v⟩⟩) (hrow (-1)) fun z => ?_
    simp [ConstraintSense.rowSign, ConicExpr.ofAffine, AffineExpr.eval, bySlot]
  have hupper : ∀ {r : ConeRows ℝ} {cs}, r.Lists n cs → ∀ u : ℝ,
      (r.pushLinear [(v.slot, 1)] u .nonnegative).Lists n
        (cs ++ [⟨.leq, .ofAffine ⟨-u, .var v⟩⟩]) := by
    refine fun h u => h.push (c := ⟨.leq, .ofAffine ⟨-u, .var v⟩⟩) (hrow 1) fun z => ?_
    simp [ConstraintSense.rowSign, ConicExpr.ofAffine, AffineExpr.eval, bySlot]
    ring
  unfold addBounds Bounds.rows
  cases b.lower? with
  | none =>
    cases b.upper? with
    | none => simpa using h
    | some u => exact hupper h u
  | some l =>
    cases b.upper? with
    | none => simpa using hlower h l
    | some u => simpa using hupper (hlower h l) u

private theorem lists_foldl_addBounds (h : r.Lists m.numVariables cs)
    {vs : List (ConicVariable ℝ × ℕ)} (hvs : ∀ p ∈ vs, p.2 < m.numVariables) :
    (vs.foldl (fun rows (v, column) => addBounds rows column v.bounds) r).Lists m.numVariables
      (cs ++ vs.flatMap fun p => p.1.bounds.rows (m.vars.handleFor p.2)) := by
  induction vs generalizing r cs with
  | nil => simpa using h
  | cons p vs ih =>
    rw [List.forall_mem_cons] at hvs
    rw [List.foldl_cons, List.flatMap_cons, ← List.append_assoc]
    exact ih (lists_addBounds (v := m.vars.handleFor p.2) h hvs.1 p.1.bounds) hvs.2

/-- The rows of the standard form of an affine model are those of its constraints and bounds. -/
theorem lists_ofModel (haffine : ∀ c ∈ m.constraints, c.expression.normed? = none)
    (hrun : ofModel m = .ok f) : f.rows.Lists m.numVariables m.region ∧
      f.numColumns = m.numVariables ∧
        f.dualRows? = some (m.constraints.zipIdx.map fun p => (p.2, p.1.sense.rowSign)) := by
  obtain ⟨draft, hdraft, -, hcolumns, hduals, hrows, -⟩ := ofModel_eq_ok hrun
  obtain ⟨hlists, hsize, hdraftDuals⟩ := lists_foldlM_addConstraint haffine hdraft
  have hentries : (m.vars.entries.flatMap fun e => e.2.bounds.rows e.1) =
      m.vars.items.zipIdx.flatMap fun p => p.1.bounds.rows (m.vars.handleFor p.2) := by
    rw [Store.entries, List.flatMap_map]
  refine ⟨?_, hcolumns.trans hsize, hduals.trans hdraftDuals⟩
  rw [hrows, ConicModel.region, hentries]
  exact lists_foldl_addBounds hlists fun p hp => List.snd_lt_of_mem_zipIdx hp

/-- The standard form of a model with one objective has that objective. -/
theorem objectives_ofModel {o : ConicObjective ℝ} (ho : m.objectives = [o])
    (hrun : ofModel m = .ok f) : ∃ row, rowOf m o.expression 1 = .ok row ∧
      f.objectives = [⟨o.sense, row, o.expression.constant⟩] := by
  obtain ⟨-, -, -, -, -, -, hobjectives⟩ := ofModel_eq_ok hrun
  rw [ho] at hobjectives
  obtain ⟨_, _, ⟨row, hrow, rfl⟩, hnil, hobjectives⟩ := List.forall₂_cons_left_iff.1 hobjectives
  obtain rfl := List.forall₂_nil_left_iff.1 hnil
  exact ⟨row, hrow, hobjectives⟩

/-! ## Stationary multipliers -/

/-- Multipliers of linear rows that the cones allow and that leave no cost on any column. -/
structure Stationary (f : StandardForm ℝ) (y : List ℝ) : Prop where
  length : y.length = f.rows.numRows
  /-- Those of inequalities are not negative. -/
  nonneg : ∀ i, (Cone.rowKinds f.rows.cones)[i]? = some (some .nonnegative) → 0 ≤ entryAt y i
  /-- They cancel the costs of all columns. -/
  columns : ∀ j : Fin f.numColumns, entryAt (costs f.numColumns f.objectives.head?) j +
    Matrix.vecMul (fun i : Fin f.rows.numRows => entryAt y i) (f.rows.matrix f.numColumns) j = 0

private theorem sum_foldl_modify (row : Row ℝ) (sign : ℝ) {q : List ℝ} (hrow : row.Within q.length)
    (z : ℕ → ℝ) : ∑ j ∈ Finset.range q.length, entryAt (row.foldl (fun q (column, c) =>
        q.modify column (· + sign * c)) q) j * z j =
      ∑ j ∈ Finset.range q.length, entryAt q j * z j + sign * row.eval z := by
  induction row generalizing q with
  | nil => simp
  | cons p row ih =>
    obtain ⟨hp, hrow⟩ := List.forall_mem_cons.1 hrow
    have hfirst := sum_getD_modify (fun x : ℝ => x) 0 hp (f := (· + sign * p.2)) (fun _ => rfl) z
    have hrest := ih (q := q.modify p.1 (· + sign * p.2)) (by rwa [List.length_modify])
    rw [List.length_modify] at hrest
    rw [List.foldl_cons, hrest, Row.eval_cons]
    simp only [entryAt, hfirst]
    ring

/-- The costs of all columns at column values are the signed objective without its constant. -/
theorem sum_costs {o : ColumnObjective ℝ} (ho : Row.Within o.coefficients n) (z : ℕ → ℝ) :
    ∑ j ∈ Finset.range n, entryAt (costs n (some o)) j * z j =
      o.sense.sign * Row.eval o.coefficients z := by
  have hsum := sum_foldl_modify o.coefficients o.sense.sign (q := List.replicate n 0)
    (by rwa [List.length_replicate]) z
  rw [List.length_replicate] at hsum
  have hzero : ∀ j, entryAt (List.replicate n 0) j = 0 := fun j => by simp [entryAt]
  rw [costs, hsum]
  simp [hzero]

end StandardForm

/-- The pairing of listed vectors is their product. -/
theorem pairing_ofFn {n : ℕ} (a b : Fin n → ℝ) :
    pairing (List.ofFn a) (List.ofFn b) = a ⬝ᵥ b := by
  induction n with
  | zero => simp
  | succ n ih => rw [List.ofFn_succ, List.ofFn_succ, pairing_cons_cons, ih, dotProduct, dotProduct,
    Fin.sum_univ_succ]

/-- Multipliers of rows, paired with what the rows leave of their right hand sides. -/
theorem ConeRows.Fits.pairing_slacks {r : ConeRows ℝ} {n : ℕ} {y : List ℝ} (h : r.Fits n)
    (hy : y.length = r.numRows) (z : ℕ → ℝ) :
    pairing r.rhs y - pairing y (r.slacks z) =
      ∑ j : Fin n, Matrix.vecMul (fun i : Fin r.numRows => entryAt y i) (r.matrix n) j * z j := by
  have hlist : y = List.ofFn fun i : Fin r.numRows => entryAt y i := by
    refine List.ext_getElem (by simp [hy]) fun i hi _ => ?_
    simp [entryAt, List.getD_eq_getElem?_getD, hi]
  have hrhs : pairing r.rhs y =
      (fun i : Fin r.numRows => r.rhs.get i) ⬝ᵥ fun i => entryAt y i := by
    conv_lhs => rw [hlist, ← List.ofFn_get r.rhs]
    exact pairing_ofFn _ _
  have hslacks : pairing y (r.slacks z) = (fun i : Fin r.numRows => entryAt y i) ⬝ᵥ
      ((fun i : Fin r.numRows => r.rhs.get i) - (r.matrix n).mulVec fun j => z j) := by
    conv_lhs => rw [hlist, h.slacks_eq]
    exact pairing_ofFn _ _
  rw [hrhs, hslacks, dotProduct_sub, dotProduct_comm, Matrix.dotProduct_mulVec, sub_sub_cancel]
  rfl

/-! ## Multipliers as duals -/

/-- Bounds are affine, so the region of an affine model is. -/
theorem ConicModel.affine_of_mem_region {m : ConicModel ℝ}
    (haffine : ∀ c ∈ m.constraints, c.expression.normed? = none) :
    ∀ c ∈ m.region, c.expression.normed? = none := by
  refine List.forall_mem_append.2 ⟨List.forall_mem_map.2 haffine, fun c hc => ?_⟩
  obtain ⟨e, -, hc⟩ := List.mem_flatMap.1 hc
  rw [← Bounds.map_snd_ledger] at hc
  obtain ⟨p, hp, rfl⟩ := List.mem_map.1 hc
  obtain ⟨b, hb⟩ := Bounds.exists_of_mem_ledger hp
  rw [hb]
  rfl

section Duals

variable {cs : List (RawConstraint (ConicExpr ℝ ConicRef))} {y : List ℝ}

/-- Multipliers of the rows of affine constraints, as duals of the constraints. -/
noncomputable def signedDuals (cs : List (RawConstraint (ConicExpr ℝ ConicRef))) (y : List ℝ) :
    List Dual :=
  List.zipWith (fun c x => ⟨c.sense.rowSign * x, []⟩) cs y

/-- The weighted constraints are the multipliers times the slacks, but for the sign. -/
theorem weightedSum_signedDuals (haffine : ∀ c ∈ cs, c.expression.normed? = none) (y : List ℝ)
    (z : ℕ → ℝ) : weightedSum cs (signedDuals cs y) z =
      -pairing y (cs.map fun c => -(c.sense.rowSign * c.expression.affine.eval (bySlot z))) := by
  induction cs generalizing y with
  | nil => simp
  | cons c cs ih =>
    obtain ⟨hc, hcs⟩ := List.forall_mem_cons.1 haffine
    cases y with
    | nil => simp [signedDuals, weightedSum]
    | cons x y =>
      have hrows : c.rows = [] := by rw [RawConstraint.rows, hc, Option.elim]
      have hfirst : signedDuals (c :: cs) (x :: y) =
          ⟨c.sense.rowSign * x, []⟩ :: signedDuals cs y := rfl
      rw [hfirst, weightedSum_cons, Pi.add_apply, ih hcs, List.map_cons, pairing_cons_cons,
        RawConstraint.weighted, hrows, List.map_nil, pairing_nil]
      ring

/-- Multipliers that the cones of the rows allow are admissible duals. -/
theorem ConeRows.Lists.admitsDuals {r : ConeRows ℝ} {n : ℕ} (h : r.Lists n cs)
    (haffine : ∀ c ∈ cs, c.expression.normed? = none) (hlength : y.length = r.numRows)
    (hy : ∀ i, (Cone.rowKinds r.cones)[i]? = some (some .nonnegative) → 0 ≤ entryAt y i) :
    AdmitsDuals cs (signedDuals cs y) := by
  rw [h.numRows] at hlength
  refine List.forall₂_iff_get.2 ⟨by simp [signedDuals, hlength], fun i hi hi' => ?_⟩
  have hiy : i < y.length := hlength ▸ hi
  have hc : cs[i].expression.normed? = none := haffine _ (List.getElem_mem hi)
  have hnonneg : cs[i].sense.rowCone = .nonnegative → 0 ≤ y[i] := fun hcone => by
    simpa [entryAt, List.getD_eq_getElem?_getD, hiy] using
      hy i (by rw [h.kinds]; simp [hi, hcone])
  simp only [signedDuals, List.get_eq_getElem, List.getElem_zipWith]
  refine ⟨?_, by rw [RawConstraint.rows, hc]; rfl, fun n hn => by simp [hc] at hn⟩
  cases hsense : cs[i].sense with
  | leq =>
    simpa [ConstraintSense.rowSign] using hnonneg (by rw [hsense]; rfl)
  | geq =>
    simpa [ConstraintSense.rowSign] using hnonneg (by rw [hsense]; rfl)
  | eq => exact ConstraintSense.admits_dualBounds_eq

/-- The values of these duals are the multipliers with the signs of the rows. -/
theorem values_signedDuals (cs : List (RawConstraint (ConicExpr ℝ ConicRef))) (y : List ℝ) :
    (signedDuals cs y).flatMap (·.values) =
      List.zipWith (fun c x => c.sense.rowSign * x) cs y := by
  rw [signedDuals, ← List.map_uncurry_zip_eq_zipWith, ← List.map_uncurry_zip_eq_zipWith,
    List.flatMap_map, List.map_eq_flatMap]
  rfl

end Duals

/-- Stationary multipliers of the rows of an affine model certify a value of its objective. -/
theorem StandardForm.Stationary.valid {m : ConicModel ℝ} {f : StandardForm ℝ}
    {o : ConicObjective ℝ} {y : List ℝ} (hy : f.Stationary y)
    (haffine : ∀ c ∈ m.constraints, c.expression.normed? = none) (ho : m.objectives = [o])
    (hrun : StandardForm.ofModel m = .ok f) :
    (Certificate.mk (signedDuals m.region y)
      (o.sense.sign * o.expression.constant - pairing f.rows.rhs y)).Valid m.region
        fun u => o.sense.sign * o.expression.eval (bySlot u) := by
  obtain ⟨hlists, hcolumns, -⟩ := lists_ofModel haffine hrun
  obtain ⟨row, hrow, hobjectives⟩ := objectives_ofModel ho hrun
  obtain ⟨hwithin, heval⟩ := rowOf_eq_ok hrow
  have hregion := m.affine_of_mem_region haffine
  refine ⟨hlists.admitsDuals hregion hy.length hy.nonneg, fun u => ?_⟩
  -- No column has a cost left, so neither have all columns together.
  have hcosts := sum_costs (o := ⟨o.sense, row, o.expression.constant⟩) hwithin u
  have hslacks := (hlists.within.toFits).pairing_slacks hy.length u
  have hzero : ∑ j : Fin f.numColumns, (entryAt (costs f.numColumns f.objectives.head?) j +
      Matrix.vecMul (fun i : Fin f.rows.numRows => entryAt y i) (f.rows.matrix f.numColumns) j) *
        u j = 0 := Finset.sum_eq_zero fun j _ => by rw [hy.columns j, zero_mul]
  rw [hcolumns, hobjectives, List.head?_cons] at hzero
  simp only [add_mul, Finset.sum_add_distrib, ← hslacks] at hzero
  rw [← Finset.sum_range fun j => entryAt _ j * u j, hcosts, heval] at hzero
  rw [weightedSum_signedDuals hregion, ← hlists.slacks, AffineExpr.eval]
  linarith

/-! ## Variables of the dual -/

namespace ConicModel

variable {m d : ConicModel ℝ}

/-- What the variables of a dual are the duals of. -/
def roles (d : ConicModel ℝ) : List (Option DualInformation) := d.vars.items.map (·.dualOf?)

private theorem roles_addConstraint {d d' : DualDraft ℝ} {c : ConicConstraint ℝ} {position : ℕ}
    (hc : c.expression.normed? = none)
    (hrun : DualDraft.addConstraint m d c position = .ok d') :
    d'.dual.roles = d.dual.roles ++ [some (.constraint position)] := by
  obtain ⟨d₁, hrow, hrest⟩ := bind_eq_ok_iff.1 hrun
  rw [hc, pure_eq_ok_iff] at hrest
  rw [← hrest, (DualDraft.addRow_eq_ok hrow).1]
  exact List.map_append

private theorem roles_addBound {h : ConicRef} {v : ConicVariable ℝ} {d d' : DualDraft ℝ}
    {p : DualInformation × RawConstraint (ConicExpr ℝ ConicRef)}
    (hrun : DualDraft.addBound h v d p = .ok d') :
    d'.dual.roles = d.dual.roles ++ [some p.1] := by
  obtain ⟨l, -, hd'⟩ := bind_eq_ok_iff.1 hrun
  rw [← pure_eq_ok_iff.1 hd']
  exact List.map_append

private theorem roles_addBounds {h : ConicRef} {v : ConicVariable ℝ} {d d' : DualDraft ℝ}
    (hrun : DualDraft.addBounds d h v = .ok d') :
    d'.dual.roles = d.dual.roles ++ (v.bounds.ledger h).map fun p => some p.1 := by
  rw [DualDraft.addBounds_eq_foldlM] at hrun
  rw [List.map_eq_flatMap]
  exact foldlM_appends (fun d => d.dual.roles) (fun p => [some p.1])
    (fun _ _ _ _ hstep => roles_addBound hstep) hrun

/-- The dual of an affine model has a variable for each entry of the ledger, in the same order. -/
theorem roles_of_dualize {owner : OwnerId}
    (haffine : ∀ c ∈ m.constraints, c.expression.normed? = none)
    (hrun : m.dualize owner = .ok d) : d.roles = m.ledger.map fun p => some p.1 := by
  obtain ⟨-, -, o, d₁, d₂, l, -, hconstraints, hbounds, -, rfl⟩ := dualize_steps hrun
  have hfirst := foldlM_appends (fun d => d.dual.roles)
    (fun p : ConicConstraint ℝ × ℕ => [some (.constraint p.2)]) (fun p hp d d' hstep =>
      roles_addConstraint (haffine _ (List.fst_mem_of_mem_zipIdx hp)) hstep) hconstraints
  have hsecond := foldlM_appends (fun d => d.dual.roles)
    (fun e : ConicRef × ConicVariable ℝ => (e.2.bounds.ledger e.1).map fun p => some p.1)
    (fun _ _ _ _ hstep => roles_addBounds hstep) hbounds
  have hlast := (addsConstraints_foldl (fun x => s!"DVar_{x.1.name}")
    (fun x => (x.2.relateValue .eq 0).toConic) (m.vars.items.zip l.residuals) d₂.dual).vars
  have hempty : (new s!"{m.name}Dual" owner : ConicModel ℝ).roles = [] := rfl
  rw [roles, addObjective, hlast, ← roles, hsecond, hfirst, hempty, List.nil_append, ledger,
    List.map_append, List.map_map, List.map_flatMap, List.map_eq_flatMap]
  rfl

/-- The row of the standard form that belongs to a constraint or a bound. -/
noncomputable def rowNumber (m : ConicModel ℝ) (info : DualInformation) : ℕ :=
  (m.ledger.map Prod.fst).idxOf info

/-- No constraint and no bound is named twice. -/
theorem nodup_ledger (m : ConicModel ℝ) : (m.ledger.map Prod.fst).Nodup := by
  have hkeys : m.vars.entries.Pairwise fun e e' => e.1 ≠ e'.1 := by
    rw [← List.pairwise_map, ← List.Nodup, m.vars.map_fst_entries]
    exact m.vars.nodup_handles
  rw [ledger, List.map_append, List.map_map, List.map_flatMap]
  refine List.nodup_append'.2 ⟨?_, List.nodup_flatMap.2 ⟨fun e _ => ?_, hkeys.imp ?_⟩, ?_⟩
  · have hnames : m.constraints.zipIdx.map (Prod.fst ∘ fun p =>
        (DualInformation.constraint p.2, p.1.toRawConstraint)) =
          (m.constraints.zipIdx.map Prod.snd).map .constraint := by
      rw [List.map_map]
      rfl
    rw [hnames, List.zipIdx_map_snd]
    exact List.Nodup.map (fun _ _ h => DualInformation.constraint.inj h) List.nodup_range'
  · unfold Bounds.ledger
    cases e.2.bounds.lower? <;> cases e.2.bounds.upper? <;> simp
  · intro e e' hne info hinfo hinfo'
    obtain ⟨p, hp, rfl⟩ := List.mem_map.1 hinfo
    obtain ⟨p', hp', hpp'⟩ := List.mem_map.1 hinfo'
    obtain ⟨_, rfl | rfl⟩ := Bounds.of_mem_ledger hp <;>
      obtain ⟨_, rfl | rfl⟩ := Bounds.of_mem_ledger hp' <;> simp_all
  · intro info hinfo hinfo'
    obtain ⟨p, -, rfl⟩ := List.mem_map.1 hinfo
    obtain ⟨e, -, he⟩ := List.mem_flatMap.1 hinfo'
    obtain ⟨p', hp', hpp'⟩ := List.mem_map.1 he
    obtain ⟨_, rfl | rfl⟩ := Bounds.of_mem_ledger hp' <;> simp at hpp'

/-- The row of an entry of the ledger is the one at its position. -/
theorem rowNumber_getElem_ledger {i : ℕ} (hi : i < m.ledger.length) :
    m.rowNumber m.ledger[i].1 = i := by
  rw [← List.getElem_map Prod.fst (h := by simpa using hi)]
  exact m.nodup_ledger.idxOf_getElem i _

/-- The value of the dual of a constraint or bound: what is reported for the constraint, and the
multiplier of the row of the bound, negative for a lower one. -/
noncomputable def multiplierOf (m : ConicModel ℝ) (duals y : List ℝ) : DualInformation → ℝ
  | .constraint position => entryAt duals position
  | .row _ _ => 0
  | .lowerBound h => -entryAt y (m.rowNumber (.lowerBound h))
  | .upperBound h => entryAt y (m.rowNumber (.upperBound h))

/-- The variables of a dual take the values of what they are the duals of. -/
noncomputable def dualValues (m d : ConicModel ℝ) (duals y : List ℝ) (v : ConicRef) : ℝ :=
  ((d.vars.items[v.slot]?).bind (·.dualOf?)).elim 0 (m.multiplierOf duals y)

/-- These values are the multipliers with the signs of the rows. -/
theorem map_multiplierOf {duals y : List ℝ} (hlength : y.length = m.ledger.length)
    (hduals : duals = m.constraints.zipIdx.map fun p => p.1.sense.rowSign * entryAt y p.2) :
    m.ledger.map (fun p => m.multiplierOf duals y p.1) =
      List.zipWith (fun p x => p.2.sense.rowSign * x) m.ledger y := by
  refine List.ext_getElem (by simp [hlength]) fun i hi _ => ?_
  rw [List.length_map] at hi
  have hy : entryAt y i = y[i] := by
    simp [entryAt, List.getD_eq_getElem?_getD, hlength, hi]
  have hrow := rowNumber_getElem_ledger hi
  rw [List.getElem_map, List.getElem_zipWith]
  by_cases hc : i < m.constraints.length
  · have hentry : m.ledger[i] = (.constraint i, m.constraints[i].toRawConstraint) := by
      simp [ledger, List.getElem_append_left, hc]
    have hdual : entryAt duals i = m.constraints[i].sense.rowSign * entryAt y i := by
      simp [hduals, entryAt, List.getD_eq_getElem?_getD, hc]
    rw [hentry, multiplierOf, hdual, hy]
  · have hmem : m.ledger[i] ∈ m.vars.entries.flatMap fun e => e.2.bounds.ledger e.1 := by
      simp only [ledger]
      rw [List.getElem_append_right (by simpa using hc)]
      exact List.getElem_mem _
    obtain ⟨e, -, he⟩ := List.mem_flatMap.1 hmem
    obtain ⟨c, hentry | hentry⟩ := Bounds.of_mem_ledger he <;> rw [hentry] at hrow
    · simp [hentry, multiplierOf, hrow, hy, ConstraintSense.rowSign]
    · simp [hentry, multiplierOf, hrow, hy, ConstraintSense.rowSign]

private theorem values_dualValues {duals y : List ℝ}
    (hroles : d.roles = m.ledger.map fun p => some p.1) :
    d.values (m.dualValues d duals y) = m.ledger.map fun p => m.multiplierOf duals y p.1 := by
  have hmap : d.values (m.dualValues d duals y) =
      d.roles.map fun info? => info?.elim 0 (m.multiplierOf duals y) := by
    refine List.ext_getElem (by simp [values, roles, Store.handles, Store.size]) fun i hi hi' => ?_
    have hlt : i < d.vars.items.length := by simpa [roles] using hi'
    simp [values, roles, Store.handles, Store.handleFor, dualValues, hlt]
  rw [hmap, hroles, List.map_map]
  rfl

private theorem duals_solve {f : StandardForm ℝ} {x : ColumnObjective ℝ}
    {settings : SolverSettings ℝ} {solver : SingleSolver ℝ} (hx : f.objectives = [x])
    (hsolved : (solver settings f.numColumns f.rows
      (StandardForm.costs f.numColumns (some x))).status = .solved) :
    (f.solve solver settings).duals? = f.dualRows?.map (·.map fun p => p.2 *
      entryAt (solver settings f.numColumns f.rows
        (StandardForm.costs f.numColumns (some x))).multipliers p.1) := by
  simp [StandardForm.solve, StandardForm.passes, hx, hsolved, entryAt,
    List.getD_eq_getElem?_getD]

/-- An affine model with one objective has a dual exactly when the backend takes it. -/
theorem exists_dualize_iff {o : ConicObjective ℝ} (owner : OwnerId)
    (haffine : ∀ c ∈ m.constraints, c.expression.normed? = none) (ho : m.objectives = [o]) :
    (∃ d, m.dualize owner = .ok d) ↔ m.Assemblable := by
  have hobjective : m.objective = .ok o := by rw [objective, ho]
  constructor
  · rintro ⟨d, hd⟩
    obtain ⟨hcontinuous, hgroups, -⟩ := dualize_steps hd
    obtain ⟨o', -, ho', hown, hobj, -⟩ := dualize_eq_ok hd
    obtain rfl : o = o' := Except.ok.inj (hobjective.symm.trans ho')
    refine ⟨fun v hv => of_decide_eq_true (List.all_eq_true.1 hcontinuous v hv), hgroups,
      fun c hc => ⟨hown c hc, fun hn => absurd (haffine c hc) hn⟩, ?_⟩
    rw [ho]
    exact List.forall_mem_singleton.2 hobj
  · intro hm
    obtain ⟨d, hd, -⟩ := dualize_yields owner
      (List.all_eq_true.2 fun v hv => decide_eq_true (hm.continuous v hv)) hm.groups hobjective
      (fun c hc => (hm.constraints c hc).vars) (hm.objectives o (by rw [ho]; exact .head _))
    exact ⟨d, hd⟩

/-- The backend and the dual of an affine model with one objective agree on signs. The rows of the
standard form and the variables of the dual belong to the same constraints and bounds, one by one.
Whatever stationary multipliers a solver gives to the rows, the duals that are reported for the
constraints and the multipliers of the bounds, negative for lower ones, satisfy the dual, whose
objective is then the negative pairing of multipliers and right hand sides, with the sign of the
sense, plus the constant of the objective. -/
theorem multipliers_satisfy_dual {o : ConicObjective ℝ} (owner : OwnerId)
    (haffine : ∀ c ∈ m.constraints, c.expression.normed? = none) (ho : m.objectives = [o]) :
    ((∃ d, m.dualize owner = .ok d) ↔ m.Assemblable) ∧
      ∀ d, m.dualize owner = .ok d → ∃ f, StandardForm.ofModel m = .ok f ∧
        f.rows.Lists f.numColumns (m.ledger.map Prod.snd) ∧
        d.roles = m.ledger.map (fun p => some p.1) ∧
        ∀ solver settings s, solver settings f.numColumns f.rows
            (StandardForm.costs f.numColumns f.objectives.head?) = s → s.status = .solved →
          f.Stationary s.multipliers → ∃ duals, (f.solve solver settings).duals? = some duals ∧
            d.Feasible (m.dualValues d duals s.multipliers) ∧ ∃ o', d.objective = .ok o' ∧
              o'.expression.value (.total (m.dualValues d duals s.multipliers)) =
                .ok (o.sense.sign * -pairing f.rows.rhs s.multipliers + o.expression.constant) := by
  refine ⟨exists_dualize_iff owner haffine ho, fun d hd => ?_⟩
  obtain ⟨f, hf⟩ := StandardForm.exists_ofModel ((exists_dualize_iff owner haffine ho).1 ⟨d, hd⟩)
  obtain ⟨hlists, hcolumns, hrows⟩ := StandardForm.lists_ofModel haffine hf
  have hroles := roles_of_dualize haffine hd
  rw [← hcolumns, ← map_snd_ledger] at hlists
  refine ⟨f, hf, hlists, hroles, fun solver settings s hs hsolved hy => ?_⟩
  let duals := m.constraints.zipIdx.map fun p => p.1.sense.rowSign * entryAt s.multipliers p.2
  have hduals : (f.solve solver settings).duals? = some duals := by
    obtain ⟨row, -, hobjectives⟩ := StandardForm.objectives_ofModel ho hf
    rw [hobjectives, List.head?_cons] at hs
    rw [duals_solve hobjectives (by rw [hs, hsolved]), hs, hrows, Option.map_some, List.map_map]
    rfl
  obtain ⟨o', e, ho', -, -, happends, hobjectives⟩ := dualize_eq_ok hd
  obtain rfl : o = o' := by
    rw [objective, ho] at ho'
    exact Except.ok.inj ho'
  have hlength : s.multipliers.length = m.ledger.length := by
    rw [hy.length, hlists.numRows, List.length_map]
  have hvalues : d.values (m.dualValues d duals s.multipliers) =
      (signedDuals m.region s.multipliers).flatMap (·.values) := by
    rw [values_dualValues hroles, map_multiplierOf hlength rfl, values_signedDuals,
      ← map_snd_ledger, List.zipWith_map_left]
  obtain ⟨hfeasible, hvalue⟩ := feasible_of_values happends (hy.valid haffine ho hf) hvalues
  refine ⟨duals, hduals, hfeasible, _, by rw [objective, hobjectives], ?_⟩
  rw [AffineExpr.value_total]
  cases hsense : o.sense with
  | minimize =>
    simp only [Objective.new, hvalue, hsense, ObjectiveSense.sign]
    congr 1
    ring
  | maximize =>
    simp only [Objective.new, AffineExpr.eval_negate, hvalue, hsense, ObjectiveSense.sign]
    congr 1
    ring

/-- Minimizing `x + 1` for a variable that is not negative and equal to one. -/
noncomputable def pinned : ConicModel ℝ :=
  ⟨"pinned", ⟨⟨0⟩, 0, [⟨"x", .atLeast 0, .continuous, none, none⟩]⟩,
    [.named "pin" ⟨.eq, .ofAffine ⟨-1, .var ⟨⟨0⟩, 0, 0⟩⟩⟩], [],
    [.new .minimize ⟨1, .var ⟨⟨0⟩, 0, 0⟩⟩]⟩

private theorem rowOf_pinned (k factor : ℝ) :
    StandardForm.rowOf pinned ⟨k, .var ⟨⟨0⟩, 0, 0⟩⟩ factor = .ok [(0, factor)] := by
  have hterms : (LinearExpr.var ⟨⟨0⟩, 0, 0⟩ : LinearExpr ℝ ConicRef).simplify.terms =
      [⟨1, ⟨⟨0⟩, 0, 0⟩⟩] := by
    simp [LinearExpr.var, LinearExpr.term, LinearExpr.simplify, LinearExpr.merged,
      LinearExpr.mergeTerm]
  simp [StandardForm.rowOf, hterms]
  rfl

/-- The standard form: a row for the equation and one for the lower bound. -/
noncomputable def pinnedForm : StandardForm ℝ :=
  ⟨1, 1, ⟨[⟨0, 0, -1⟩, ⟨1, 0, -1⟩], [-1, -0], [.zero 1, .nonnegative 1]⟩,
    [⟨.minimize, [(0, 1)], 1⟩], some [(0, -1)]⟩

private theorem ofModel_pinned : StandardForm.ofModel pinned = .ok pinnedForm := by
  let pin : ConicConstraint ℝ := .named "pin" ⟨.eq, .ofAffine ⟨-1, .var ⟨⟨0⟩, 0, 0⟩⟩⟩
  let goal : ConicObjective ℝ := .new .minimize ⟨1, .var ⟨⟨0⟩, 0, 0⟩⟩
  have haffine : StandardForm.addAffine pinned pin .empty = (do
      return (ConeRows.empty.pushLinear (← StandardForm.rowOf pinned pin.expression.affine (-1))
        (-1) .zero, -1)) := rfl
  have hconstraint : StandardForm.addConstraint pinned ⟨.empty, 1, some []⟩ pin = (do
      let (rows, sign) ← StandardForm.addAffine pinned pin .empty
      return ⟨rows, 1, some [(0, sign)]⟩) := rfl
  have hmodel : StandardForm.ofModel pinned = (do
      let draft ← [pin].foldlM (StandardForm.addConstraint pinned) ⟨.empty, 1, some []⟩
      let objectives ← [goal].mapM fun o =>
        return ⟨o.sense, ← StandardForm.rowOf pinned o.expression 1, o.expression.constant⟩
      return ⟨1, draft.numColumns, StandardForm.addBounds draft.rows 0 (.atLeast 0), objectives,
        draft.dualRows?⟩) := rfl
  have hgoal : StandardForm.rowOf pinned goal.expression 1 = .ok [(0, 1)] := rowOf_pinned 1 1
  have hpin : StandardForm.rowOf pinned pin.expression.affine (-1) = .ok [(0, -1)] :=
    rowOf_pinned (-1) (-1)
  rw [hpin] at haffine
  rw [hmodel, List.foldlM_cons, hconstraint, haffine, List.mapM_cons, hgoal]
  rfl

private theorem stationary_pinned : pinnedForm.Stationary [1, 0] := by
  refine ⟨rfl, fun i _ => ?_, fun j => ?_⟩
  · rcases i with _ | _ | i <;> simp [entryAt]
  · obtain ⟨_ | j, hj⟩ := j
    swap
    · exact absurd hj (by simp [pinnedForm])
    change entryAt [0 + 1 * 1] 0 +
      ∑ i : Fin 2, entryAt [1, 0] i * ConeRows.cell pinnedForm.rows i 0 = 0
    simp [Fin.sum_univ_two, entryAt, ConeRows.cell, pinnedForm]

/-- The multipliers of the pinned variable satisfy the dual, at the optimal value two. -/
theorem multipliers_satisfy_dual_pinned : ∃ d duals o',
    pinned.dualize ⟨1⟩ = .ok d ∧ StandardForm.ofModel pinned = .ok pinnedForm ∧
      (pinnedForm.solve (fun _ _ _ _ => ⟨.solved, [1], [1, 0], 0⟩)
        ⟨none, none, false, 0, 0⟩).duals? = some duals ∧
      d.Feasible (pinned.dualValues d duals [1, 0]) ∧ d.objective = .ok o' ∧
        o'.expression.value (.total (pinned.dualValues d duals [1, 0])) = .ok 2 := by
  obtain ⟨d, hd⟩ : ∃ d, pinned.dualize ⟨1⟩ = .ok d := ⟨_, rfl⟩
  obtain ⟨f, hf, -, -, hall⟩ := (multipliers_satisfy_dual ⟨1⟩
    (by simp [pinned, Constraint.named, ConicExpr.ofAffine]) rfl).2 d hd
  rw [ofModel_pinned, Except.ok.injEq] at hf
  subst hf
  obtain ⟨duals, hduals, hfeasible, o', ho', hvalue⟩ := hall
    (fun _ _ _ _ => ⟨.solved, [1], [1, 0], 0⟩) ⟨none, none, false, 0, 0⟩ _ rfl rfl stationary_pinned
  refine ⟨d, duals, o', hd, ofModel_pinned, hduals, hfeasible, ho', ?_⟩
  rw [hvalue]
  norm_num [pairing, ObjectiveSense.sign, Objective.new, pinnedForm]

end ConicModel

end AdjustableRobust
