import AdjustableRobust.Proofs.Conic.Extension
import AdjustableRobust.Proofs.Solver.ConeRows

/-!
# Feasible sets of standard forms

Assembling appends rows, and columns that only help to state them. What appended rows demand is
stated without the columns that were appended with them: they can be satisfied exactly when a
condition on the columns of the model holds. Demands of consecutive parts add up, so those of a
model are its bounds and constraints.
-/

namespace AdjustableRobust

/-- Model operations succeed alike as solver operations. -/
theorem SolverError.liftM_eq_ok_iff {α β : Type} {x : Except (ModelError α) β} {b : β} :
    (liftM x : Except (SolverError α) β) = .ok b ↔ x = .ok b := by
  cases x with
  | error e => simp [liftM, monadLift, MonadLift.monadLift]
  | ok a => simp [liftM, monadLift, MonadLift.monadLift]

/-- An infinity norm takes the largest magnitude of at least one entry. -/
def NormedVector.NonemptyMax {V : Type} (v : NormedVector ℝ V) : Prop :=
  v.norm = .infinity → v.rows ≠ []

namespace ConeRows

/-- The rows appended to the first ones can be satisfied, by values of the columns appended with
them, exactly when a condition holds of the first `k` columns. -/
structure Demands (k : ℕ) (r : ConeRows ℝ) (n : ℕ) (r' : ConeRows ℝ) (n' : ℕ)
    (P : (ℕ → ℝ) → Prop) : Prop where
  within : r'.Within n'
  le : n ≤ n'
  /-- The condition looks at the first columns only. -/
  congr : ∀ z z', (∀ j < k, z' j = z j) → P z → P z'
  /-- The condition holds wherever the rows are satisfied. -/
  sound : ∀ z, r'.Satisfied z → r.Satisfied z ∧ P z
  /-- Where the condition holds, the added columns have values that satisfy the rows. -/
  complete : ∀ z, r.Satisfied z → P z → ∃ z', (∀ j < n, z' j = z j) ∧ r'.Satisfied z'

variable {k n n₁ n₂ : ℕ} {r r₁ r₂ : ConeRows ℝ} {row : Row ℝ} {b : ℝ} {P Q : (ℕ → ℝ) → Prop}

namespace Demands

/-- No rows demand nothing. -/
theorem refl (h : r.Within n) : Demands k r n r n fun _ => True :=
  ⟨h, le_rfl, fun _ _ _ _ => trivial, fun _ hz => ⟨hz, trivial⟩, fun z hz _ =>
    ⟨z, fun _ _ => rfl, hz⟩⟩

/-- A condition may be replaced by an equivalent one. -/
theorem of_iff (h : Demands k r n r₁ n₁ P) (hiff : ∀ z, P z ↔ Q z) : Demands k r n r₁ n₁ Q := by
  obtain rfl : P = Q := funext fun z => propext (hiff z)
  exact h

/-- Demands of consecutive rows add up. -/
theorem seq (hk : k ≤ n) (h₁ : Demands k r n r₁ n₁ P) (h₂ : Demands k r₁ n₁ r₂ n₂ Q) :
    Demands k r n r₂ n₂ fun z => P z ∧ Q z := by
  refine ⟨h₂.within, h₁.le.trans h₂.le, fun z z' hz ⟨hP, hQ⟩ => ⟨h₁.congr z z' hz hP,
    h₂.congr z z' hz hQ⟩, fun z hz => ?_, fun z hz ⟨hP, hQ⟩ => ?_⟩
  · obtain ⟨hz₁, hQ⟩ := h₂.sound z hz
    obtain ⟨hz₀, hP⟩ := h₁.sound z hz₁
    exact ⟨hz₀, hP, hQ⟩
  · -- Columns of the second part are chosen last; the first part does not look at them.
    obtain ⟨z₁, hz₁, hs₁⟩ := h₁.complete z hz hP
    obtain ⟨z₂, hz₂, hs₂⟩ := h₂.complete z₁ hs₁ (h₂.congr z z₁
      (fun j hj => hz₁ j (hj.trans_le hk)) hQ)
    exact ⟨z₂, fun j hj => (hz₂ j (hj.trans_le h₁.le)).trans (hz₁ j hj), hs₂⟩

end Demands

/-- A linear row demands that its cone admits its slack. -/
theorem demands_pushLinear (h : r.Within n) (hk : k ≤ n) (hrow : row.Within k) (b : ℝ)
    (kind : LinearCone) :
    Demands k r n (r.pushLinear row b kind) n fun z => kind.Admits (b - row.eval z) :=
  ⟨h.pushLinear (hrow.mono hk) kind, le_rfl, fun z z' hz hP => by rwa [hrow.eval_congr hz],
    fun _ => (h.satisfied_pushLinear_iff kind).1,
    fun z hz hP => ⟨z, fun _ _ => rfl, (h.satisfied_pushLinear_iff kind).2 ⟨hz, hP⟩⟩⟩

/-- The rows of a second order cone demand that the slack of the first one is at least the length
of the others. -/
theorem demands_pushSecondOrder {head : Row ℝ × ℝ} {rows : List (Row ℝ × ℝ)} (h : r.Within n)
    (hk : k ≤ n) (hhead : Row.Within head.1 k) (hrows : ∀ p ∈ rows, Row.Within p.1 k) :
    Demands k r n (r.pushSecondOrder (head :: rows)) n fun z =>
      NormKind.two.apply (rows.map fun p => p.2 - p.1.eval z) ≤ head.2 - head.1.eval z := by
  have hiff : ∀ z, (r.pushSecondOrder (head :: rows)).Satisfied z ↔ r.Satisfied z ∧
      NormKind.two.apply (rows.map fun p => p.2 - p.1.eval z) ≤ head.2 - head.1.eval z := by
    intro z
    rw [h.satisfied_pushSecondOrder_iff (hhead.mono hk) fun p hp => (hrows p hp).mono hk,
      NormKind.apply_two]
  refine ⟨?_, le_rfl, fun z z' hz hP => ?_, fun z => (hiff z).1,
    fun z hz hP => ⟨z, fun _ _ => rfl, (hiff z).2 ⟨hz, hP⟩⟩⟩
  · refine h.pushSecondOrder (List.forall_mem_cons.2 ⟨hhead.mono hk, fun p hp => ?_⟩)
    exact (hrows p hp).mono hk
  · have hslacks : (rows.map fun p => p.2 - p.1.eval z') = rows.map fun p => p.2 - p.1.eval z :=
      List.map_congr_left fun p hp => by rw [(hrows p hp).eval_congr hz]
    rwa [hslacks, hhead.eval_congr hz]

/-- Values of the first columns satisfy the condition exactly when they can be extended to all
columns such that `b - A x` lies in the product of the cones. -/
theorem Demands.iff_exists_residual (h : Demands k empty k r n P) {xs : List ℝ}
    (hxs : xs.length = k) : P (entryAt xs) ↔ ∃ aux : List ℝ, (xs ++ aux).length = n ∧
      Cone.InProduct r.cones (r.residual (xs ++ aux)) := by
  have hfirst : ∀ aux : List ℝ, ∀ j < k, entryAt (xs ++ aux) j = entryAt xs j := by
    intro aux j hj
    rw [entryAt, entryAt, List.getD_eq_getElem?_getD, List.getD_eq_getElem?_getD,
      List.getElem?_append_left (hj.trans_eq hxs.symm)]
  constructor
  · intro hP
    obtain ⟨z, hz, hs⟩ := h.complete _ (satisfied_empty _) hP
    -- The values of the added columns, listed.
    let aux := (List.range' k (n - k)).map z
    have hlength : (xs ++ aux).length = n := by
      rw [List.length_append, List.length_map, List.length_range', hxs]
      exact Nat.add_sub_cancel' h.le
    have hvalues : ∀ j < n, entryAt (xs ++ aux) j = z j := by
      intro j hj
      rcases lt_or_ge j k with hlt | hge
      · rw [hfirst aux j hlt, hz j hlt]
      · have hsub : j - k < n - k := by omega
        simp [entryAt, List.getD_eq_getElem?_getD, List.getElem?_append_right, hxs, hge, aux, hsub]
    refine ⟨aux, hlength, (h.within.inProduct_residual_iff hlength).2 ?_⟩
    exact (h.within.satisfied_congr hvalues).2 hs
  · rintro ⟨aux, hlength, hproduct⟩
    have hs := (h.within.inProduct_residual_iff hlength).1 hproduct
    exact h.congr _ _ (fun j hj => (hfirst aux j hj).symm) (h.sound _ hs).2

end ConeRows

/-! ## Signs of rows -/

namespace ConstraintSense

/-- The sign of the row of a constraint of this sense. -/
def rowSign : ConstraintSense → ℝ
  | .leq => 1
  | .geq | .eq => -1

/-- The cone of the row of a constraint of this sense. -/
def rowCone : ConstraintSense → LinearCone
  | .leq | .geq => .nonnegative
  | .eq => .zero

/-- The cone admits the slack of the row exactly when the constraint holds. -/
theorem admits_rowCone_iff (s : ConstraintSense) (x : ℝ) :
    s.rowCone.Admits (-(s.rowSign * x)) ↔ s.Holds x := by
  cases s <;> simp [rowCone, rowSign, LinearCone.Admits, Holds]

end ConstraintSense

namespace StandardForm

open ConeRows

variable {m : ConicModel ℝ} {e : AffineExpr ℝ ConicRef} {factor : ℝ} {row : Row ℝ}
variable {r : ConeRows ℝ} {n : ℕ}

/-- An accepted expression becomes a row of columns of the model with its value, whatever cancels in
it. -/
theorem rowOf_eq_ok (h : rowOf m e factor = .ok row) :
    row.Within m.numVariables ∧ ∀ z, row.eval z = factor * e.linear.eval (bySlot z) := by
  have hterms : List.Forall₂ (fun (t : Term ℝ ConicRef) p => t.var.slot < m.numVariables ∧
      (t.var.slot, factor * t.scale) = p) e.linear.simplify.terms row := by
    refine (mapM_eq_ok_iff.1 h).imp fun t p hp => ?_
    simp only [bind_eq_ok_iff, pure_eq_ok_iff, SolverError.liftM_eq_ok_iff] at hp
    obtain ⟨v, hv, rfl⟩ := hp
    have hget := ((Store.get_eq_ok_iff _ _ _).1 (liftM_eq_ok_iff.1 hv)).2.2
    exact ⟨(List.getElem?_eq_some_iff.1 hget).1, rfl⟩
  obtain ⟨hslots, hmap⟩ := (List.forall₂_and_left _ _).1 hterms
  have hrow : e.linear.simplify.terms.map (fun t => (t.var.slot, factor * t.scale)) = row := by
    rw [← List.forall₂_eq_eq_eq, List.forall₂_map_left_iff]
    exact hmap
  subst hrow
  refine ⟨?_, fun z => ?_⟩
  · intro p hp
    obtain ⟨t, ht, rfl⟩ := List.mem_map.1 hp
    exact hslots t ht
  · rw [← LinearExpr.eval_simplify, LinearExpr.eval, Row.eval, List.map_map,
      ← List.sum_map_mul_left]
    congr 1
    exact List.map_congr_left fun t _ => mul_assoc _ _ _

/-- The value of an accepted expression depends on the columns of the model only. -/
theorem eval_congr_of_rowOf (h : rowOf m e 1 = .ok row) {z z' : ℕ → ℝ}
    (hz : ∀ j < m.numVariables, z' j = z j) : e.eval (bySlot z') = e.eval (bySlot z) := by
  obtain ⟨hwithin, heval⟩ := rowOf_eq_ok h
  have hlinear := hwithin.eval_congr hz
  rw [heval, heval, one_mul, one_mul] at hlinear
  rw [AffineExpr.eval, AffineExpr.eval, hlinear]

/-! ## Affine constraints and bounds -/

/-- An affine constraint becomes one row, with the sign of its sense, whose multiplier has the same
sign. -/
theorem addAffine_eq_ok {c : ConicConstraint ℝ} {r' : ConeRows ℝ} {sign : ℝ}
    (hrun : addAffine m c r = .ok (r', sign)) :
    ∃ row, rowOf m c.expression.affine c.sense.rowSign = .ok row ∧
      r' = r.pushLinear row (-(c.sense.rowSign * c.expression.affine.constant)) c.sense.rowCone ∧
        sign = c.sense.rowSign := by
  unfold addAffine at hrun
  cases hsense : c.sense <;>
    simp only [hsense, bind_eq_ok_iff, pure_eq_ok_iff, Prod.mk.injEq] at hrun <;>
    obtain ⟨row, hrow, rfl, rfl⟩ := hrun <;>
    exact ⟨row, hrow, by simp [ConstraintSense.rowSign, ConstraintSense.rowCone], rfl⟩

/-- The slack of the row of an affine expression. -/
theorem slack_eq (hrow : rowOf m e factor = .ok row) (z : ℕ → ℝ) :
    -(factor * e.constant) - row.eval z = -(factor * e.eval (bySlot z)) := by
  rw [(rowOf_eq_ok hrow).2, AffineExpr.eval]
  ring

/-- An affine constraint becomes a row that demands it. -/
theorem demands_addAffine {c : ConicConstraint ℝ} {r' : ConeRows ℝ} {sign : ℝ} (h : r.Within n)
    (hn : m.numVariables ≤ n) (haffine : c.expression.normed? = none)
    (hrun : addAffine m c r = .ok (r', sign)) :
    Demands m.numVariables r n r' n fun z => c.toRawConstraint.Holds (bySlot z) := by
  obtain ⟨row, hrow, rfl, -⟩ := addAffine_eq_ok hrun
  refine (demands_pushLinear h hn (rowOf_eq_ok hrow).1 _ _).of_iff fun z => ?_
  rw [slack_eq hrow, ConstraintSense.admits_rowCone_iff, RawConstraint.Holds, ConicExpr.eval,
    haffine, Option.elim, zero_add]

/-- Bounds become rows that demand them. -/
theorem demands_addBounds {k column : ℕ} (b : Bounds ℝ) (h : r.Within n) (hk : k ≤ n)
    (hcolumn : column < k) :
    Demands k r n (addBounds r column b) n fun z => b.admits (z column) = true := by
  have hrow : ∀ c : ℝ, Row.Within [(column, c)] k := fun c => .cons hcolumn fun _ hp => nomatch hp
  have hlower : ∀ l, Demands k r n (r.pushLinear [(column, -1)] (-l) .nonnegative) n
      fun z => l ≤ z column := by
    intro l
    refine (demands_pushLinear h hk (hrow (-1)) (-l) .nonnegative).of_iff fun z => ?_
    simp [LinearCone.Admits]
  have hupper : ∀ {r₁ : ConeRows ℝ}, r₁.Within n → ∀ u,
      Demands k r₁ n (r₁.pushLinear [(column, 1)] u .nonnegative) n fun z => z column ≤ u := by
    intro r₁ h₁ u
    refine (demands_pushLinear h₁ hk (hrow 1) u .nonnegative).of_iff fun z => ?_
    simp [LinearCone.Admits]
  obtain ⟨_ | l, _ | u, hordered⟩ := b
  · exact (Demands.refl h).of_iff fun z => by simp [Bounds.admits_iff]
  · exact (hupper h u).of_iff fun z => by simp [Bounds.admits_iff]
  · exact (hlower l).of_iff fun z => by simp [Bounds.admits_iff]
  · exact ((hlower l).seq hk (hupper (hlower l).within u)).of_iff
      fun z => by simp [Bounds.admits_iff]

/-- The bounds of all variables become rows that demand them. -/
theorem demands_foldl_addBounds {k : ℕ} {vs : List (ConicVariable ℝ × ℕ)} (h : r.Within n)
    (hk : k ≤ n) (hvs : ∀ p ∈ vs, p.2 < k) :
    Demands k r n (vs.foldl (fun rows (v, column) => addBounds rows column v.bounds) r) n
      fun z => ∀ p ∈ vs, p.1.bounds.admits (z p.2) = true := by
  induction vs generalizing r with
  | nil => exact (Demands.refl h).of_iff (by simp)
  | cons p vs ih =>
    rw [List.forall_mem_cons] at hvs
    have hfirst := demands_addBounds p.1.bounds h hk hvs.1
    exact (hfirst.seq hk (ih hfirst.within hvs.2)).of_iff fun z => by rw [List.forall_mem_cons]

/-! ## Norms -/

variable {v : NormedVector ℝ ConicRef} {bound : Row ℝ} {c : ℝ} {r' : ConeRows ℝ} {n' : ℕ}

private theorem slacks_body {es : List (AffineExpr ℝ ConicRef)} {body : List (Row ℝ × ℝ)}
    (h : List.Forall₂ (fun e p => ∃ row, rowOf m e (-1) = .ok row ∧ (row, e.constant) = p)
      es body) :
    (∀ p ∈ body, Row.Within p.1 m.numVariables) ∧
      ∀ z, (body.map fun p => p.2 - p.1.eval z) = es.map (·.eval (bySlot z)) := by
  induction h with
  | nil => exact ⟨by simp, fun z => rfl⟩
  | cons hrow _ ih =>
    obtain ⟨row, hrow, rfl⟩ := hrow
    obtain ⟨hwithin, heval⟩ := rowOf_eq_ok hrow
    refine ⟨List.forall_mem_cons.2 ⟨hwithin, ih.1⟩, fun z => ?_⟩
    rw [List.map_cons, List.map_cons, ih.2, heval, AffineExpr.eval, neg_one_mul, sub_neg_eq_add]

private theorem demands_addNorm_two (h : r.Within n) (hn : m.numVariables ≤ n)
    (hbound : bound.Within m.numVariables) (hnorm : v.norm = .two)
    (hrun : addNorm m v bound c r n = .ok (r', n')) :
    Demands m.numVariables r n r' n' fun z => v.eval (bySlot z) ≤ -(bound.eval z + c) := by
  simp only [addNorm, hnorm, bind_eq_ok_iff, pure_eq_ok_iff, Prod.mk.injEq, mapM_eq_ok_iff] at hrun
  obtain ⟨body, hbody, rfl, rfl⟩ := hrun
  obtain ⟨hwithin, hslacks⟩ := slacks_body hbody
  have hhead : Row.Within (bound, -c).1 m.numVariables := hbound
  refine (demands_pushSecondOrder h hn hhead hwithin).of_iff fun z => ?_
  rw [hslacks, NormedVector.eval, hnorm, neg_add_rev, sub_eq_add_neg]

private theorem admits_pair_iff (hrow : rowOf m e 1 = .ok row) (bound : Row ℝ) (c : ℝ)
    (z : ℕ → ℝ) :
    LinearCone.nonnegative.Admits (-c - e.constant - (bound ++ row).eval z) ∧
        LinearCone.nonnegative.Admits (-c + e.constant - (bound ++ opposite row).eval z) ↔
      |e.eval (bySlot z)| ≤ -(bound.eval z + c) := by
  simp only [LinearCone.Admits, Row.eval_append, Row.eval_opposite, (rowOf_eq_ok hrow).2,
    AffineExpr.eval, abs_le]
  constructor
  · rintro ⟨h₁, h₂⟩
    constructor <;> linarith
  · rintro ⟨h₁, h₂⟩
    constructor <;> linarith

private theorem demands_addNorm_infinity (h : r.Within n) (hn : m.numVariables ≤ n)
    (hbound : bound.Within m.numVariables) (hnorm : v.norm = .infinity)
    (hrun : addNorm m v bound c r n = .ok (r', n')) :
    Demands m.numVariables r n r' n' fun z =>
      ∀ e ∈ v.rows, |e.eval (bySlot z)| ≤ -(bound.eval z + c) := by
  simp only [addNorm, hnorm, bind_eq_ok_iff, pure_eq_ok_iff, Prod.mk.injEq] at hrun
  obtain ⟨r'', hrun, rfl, rfl⟩ := hrun
  refine foldlM_prefix (I := fun ps r'' => Demands m.numVariables r n r'' n fun z =>
      ∀ e ∈ ps, |e.eval (bySlot z)| ≤ -(bound.eval z + c)) ?_ ?_ hrun
  · intro ps e _ r₁ r₂ _ ih hstep
    simp only [bind_eq_ok_iff, pure_eq_ok_iff] at hstep
    obtain ⟨row, hrow, rfl⟩ := hstep
    obtain ⟨hwithin, -⟩ := rowOf_eq_ok hrow
    have hminus := demands_pushLinear ih.within hn (hbound.append hwithin) (-c - e.constant)
      .nonnegative
    have hplus := demands_pushLinear hminus.within hn (hbound.append hwithin.opposite)
      (-c + e.constant) .nonnegative
    refine ((ih.seq hn hminus).seq hn hplus).of_iff fun z => ?_
    rw [and_assoc, admits_pair_iff hrow, List.forall_mem_append, List.forall_mem_singleton]
  · exact (Demands.refl h).of_iff (by simp)

/-- Rows with one new column for each of the expressions, and a row that adds the new columns to the
first one: the columns can be as small as the magnitudes of the expressions, but not smaller. -/
private structure Magnitudes (m : ConicModel ℝ) (bound : Row ℝ) (r : ConeRows ℝ) (n : ℕ)
    (es : List (AffineExpr ℝ ConicRef)) (s : ConeRows ℝ × Row ℝ × ℕ) : Prop where
  within : s.1.Within s.2.2
  total : s.2.1.Within s.2.2
  le : n ≤ s.2.2
  congr : ∀ z z', (∀ j < m.numVariables, z' j = z j) →
    ∀ e ∈ es, e.eval (bySlot z') = e.eval (bySlot z)
  /-- The new columns are at least as large as the magnitudes. -/
  sound : ∀ z, s.1.Satisfied z → r.Satisfied z ∧
    bound.eval z + (es.map fun e => |e.eval (bySlot z)|).sum ≤ s.2.1.eval z
  /-- The new columns can be the magnitudes. -/
  complete : ∀ z, r.Satisfied z → ∃ z', (∀ j < n, z' j = z j) ∧ s.1.Satisfied z' ∧
    s.2.1.eval z' = bound.eval z + (es.map fun e => |e.eval (bySlot z)|).sum

private theorem satisfied_magnitude_iff {r₁ : ConeRows ℝ} {aux : ℕ} (h : r₁.Within aux)
    (haux : m.numVariables ≤ aux) (hrow : rowOf m e 1 = .ok row) :
    ((r₁.pushLinear ((aux, -1) :: row) (-e.constant) .nonnegative).pushLinear
        ((aux, -1) :: opposite row) e.constant .nonnegative).Within (aux + 1) ∧
      ∀ z, ((r₁.pushLinear ((aux, -1) :: row) (-e.constant) .nonnegative).pushLinear
        ((aux, -1) :: opposite row) e.constant .nonnegative).Satisfied z ↔
          r₁.Satisfied z ∧ |e.eval (bySlot z)| ≤ z aux := by
  have hrow' : row.Within (aux + 1) := (rowOf_eq_ok hrow).1.mono (haux.trans (Nat.le_succ _))
  have h₁ : r₁.Within (aux + 1) := h.mono (Nat.le_succ _)
  have hminus := h₁.pushLinear (b := -e.constant) (.cons (Nat.lt_succ_self aux) hrow' : Row.Within
    ((aux, -1) :: row) _) .nonnegative
  refine ⟨hminus.pushLinear (.cons (Nat.lt_succ_self aux) hrow'.opposite) .nonnegative,
    fun z => ?_⟩
  have hpair := admits_pair_iff hrow [(aux, -1)] 0 z
  rw [neg_zero, zero_sub, zero_add, add_zero] at hpair
  rw [hminus.satisfied_pushLinear_iff, h₁.satisfied_pushLinear_iff, and_assoc]
  refine and_congr_right fun _ => hpair.trans ?_
  rw [Row.eval_cons, Row.eval_nil, neg_one_mul, add_zero, neg_neg]

private theorem Magnitudes.step {es : List (AffineExpr ℝ ConicRef)} {r₁ : ConeRows ℝ}
    {total : Row ℝ} {aux : ℕ} (h : Magnitudes m bound r n es (r₁, total, aux))
    (hn : m.numVariables ≤ n)
    (hrow : rowOf m e 1 = .ok row) :
    Magnitudes m bound r n (es ++ [e])
      ((r₁.pushLinear ((aux, -1) :: row) (-e.constant) .nonnegative).pushLinear
        ((aux, -1) :: opposite row) e.constant .nonnegative, total ++ [(aux, 1)], aux + 1) := by
  have haux : m.numVariables ≤ aux := hn.trans h.le
  obtain ⟨hwithin, hsatisfied⟩ := satisfied_magnitude_iff h.within haux hrow
  refine ⟨hwithin, ?_, h.le.trans (Nat.le_succ _), fun z z' hz => ?_, fun z hz => ?_,
    fun z hz => ?_⟩
  · exact (h.total.mono (Nat.le_succ _)).append
      (.cons (Nat.lt_succ_self aux) fun _ hp => absurd hp List.not_mem_nil)
  · rw [List.forall_mem_append, List.forall_mem_singleton]
    exact ⟨h.congr z z' hz, eval_congr_of_rowOf hrow hz⟩
  · obtain ⟨hz₁, hle⟩ := (hsatisfied z).1 hz
    obtain ⟨hz₀, hsum⟩ := h.sound z hz₁
    refine ⟨hz₀, ?_⟩
    simp only [List.map_append, List.sum_append, List.map_singleton, List.sum_singleton,
      Row.eval_append, Row.eval_cons, Row.eval_nil]
    linarith
  · -- The new column is set to the magnitude; no earlier row looks at it.
    obtain ⟨z', hz', hs', htotal⟩ := h.complete z hz
    have hold : ∀ j < aux, Function.update z' aux |e.eval (bySlot z)| j = z' j :=
      fun j hj => Function.update_of_ne hj.ne _ _
    refine ⟨Function.update z' aux |e.eval (bySlot z)|, fun j hj => ?_, ?_, ?_⟩
    · rw [hold j (hj.trans_le h.le), hz' j hj]
    · rw [hsatisfied, h.within.satisfied_congr hold, Function.update_self]
      refine ⟨hs', le_of_eq ?_⟩
      rw [eval_congr_of_rowOf hrow fun j hj =>
        (hold j (hj.trans_le haux)).trans (hz' j (hj.trans_le hn))]
    · simp only [List.map_append, List.sum_append, List.map_singleton, List.sum_singleton,
        Row.eval_append, Row.eval_cons, Row.eval_nil, Function.update_self, h.total.eval_congr hold,
        htotal]
      ring

private theorem demands_addNorm_one (h : r.Within n) (hn : m.numVariables ≤ n)
    (hbound : bound.Within m.numVariables) (hnorm : v.norm = .one)
    (hrun : addNorm m v bound c r n = .ok (r', n')) :
    Demands m.numVariables r n r' n' fun z => v.eval (bySlot z) ≤ -(bound.eval z + c) := by
  simp only [addNorm, hnorm, bind_eq_ok_iff, pure_eq_ok_iff, Prod.mk.injEq] at hrun
  obtain ⟨⟨r₁, total, aux⟩, hfold, rfl, rfl⟩ := hrun
  have hsum : Magnitudes m bound r n v.rows (r₁, total, aux) := by
    refine foldlM_prefix (I := Magnitudes m bound r n) ?_ ?_ hfold
    · rintro ps e _ ⟨r₁, total, aux⟩ s _ ih hstep
      simp only [bind_eq_ok_iff, pure_eq_ok_iff] at hstep
      obtain ⟨row, hrow, rfl⟩ := hstep
      exact ih.step hn hrow
    · exact ⟨h, hbound.mono hn, le_rfl, by simp, fun z hz => ⟨hz, by simp⟩,
        fun z hz => ⟨z, fun _ _ => rfl, hz, by simp⟩⟩
  have heval : ∀ z, v.eval (bySlot z) = (v.rows.map fun e => |e.eval (bySlot z)|).sum := by
    intro z
    rw [NormedVector.eval, hnorm, NormKind.apply_one, List.map_map]
    rfl
  have hsatisfied : ∀ z, (r₁.pushLinear total (-c) .nonnegative).Satisfied z ↔
      r₁.Satisfied z ∧ total.eval z ≤ -c := by
    intro z
    rw [hsum.within.satisfied_pushLinear_iff, LinearCone.Admits, sub_nonneg]
  refine ⟨hsum.within.pushLinear hsum.total .nonnegative, hsum.le, fun z z' hz hP => ?_,
    fun z hz => ?_, fun z hz hP => ?_⟩
  · have hentries : v.rows.map (·.eval (bySlot z')) = v.rows.map (·.eval (bySlot z)) :=
      List.map_congr_left (hsum.congr z z' hz)
    rwa [NormedVector.eval, hentries, hbound.eval_congr hz]
  · obtain ⟨hz₁, hle⟩ := (hsatisfied z).1 hz
    obtain ⟨hz₀, hmagnitudes⟩ := hsum.sound z hz₁
    refine ⟨hz₀, ?_⟩
    rw [heval]
    linarith
  · obtain ⟨z', hz', hs', htotal⟩ := hsum.complete z hz
    refine ⟨z', hz', (hsatisfied z').2 ⟨hs', ?_⟩⟩
    rw [htotal, ← heval]
    linarith

/-- A norm below a bound becomes rows that demand it, unless it is the largest magnitude of no
entries. -/
theorem demands_addNorm (h : r.Within n) (hn : m.numVariables ≤ n)
    (hbound : bound.Within m.numVariables) (hrun : addNorm m v bound c r n = .ok (r', n')) :
    Demands m.numVariables r n r' n' fun z =>
      v.NonemptyMax → v.eval (bySlot z) ≤ -(bound.eval z + c) := by
  cases hnorm : v.norm with
  | one =>
    exact (demands_addNorm_one h hn hbound hnorm hrun).of_iff
      (by simp [NormedVector.NonemptyMax, hnorm])
  | two =>
    exact (demands_addNorm_two h hn hbound hnorm hrun).of_iff
      (by simp [NormedVector.NonemptyMax, hnorm])
  | infinity =>
    refine (demands_addNorm_infinity h hn hbound hnorm hrun).of_iff fun z => ?_
    rw [NormedVector.NonemptyMax, NormedVector.eval, hnorm, NormKind.apply_infinity_le_iff,
      List.forall_mem_map]
    constructor
    · intro hall hrows
      obtain ⟨e, he⟩ := List.exists_mem_of_ne_nil _ (hrows rfl)
      exact ⟨(abs_nonneg _).trans (hall e he), hall⟩
    · intro hall e he
      exact (hall fun _ => List.ne_nil_of_mem he).2 e he

/-! ## Models -/

/-- A constraint becomes rows that demand it, unless it bounds the largest magnitude of no entries.
-/
theorem demands_addConstraint {d d' : Draft ℝ} {con : ConicConstraint ℝ}
    (h : d.rows.Within d.numColumns) (hn : m.numVariables ≤ d.numColumns)
    (hrun : addConstraint m d con = .ok d') :
    Demands m.numVariables d.rows d.numColumns d'.rows d'.numColumns fun z =>
      (∀ v ∈ con.expression.normed?, v.NonemptyMax) → con.toRawConstraint.Holds (bySlot z) := by
  unfold addConstraint at hrun
  cases hnormed : con.expression.normed? with
  | none =>
    simp only [hnormed, bind_eq_ok_iff, pure_eq_ok_iff] at hrun
    obtain ⟨⟨rows, sign⟩, haffine, rfl⟩ := hrun
    exact (demands_addAffine h hn hnormed haffine).of_iff (by simp)
  | some v =>
    simp only [hnormed] at hrun
    by_cases hsense : con.sense = .leq
    · simp only [hsense, ne_eq, not_true_eq_false, if_false, bind_eq_ok_iff, pure_eq_ok_iff] at hrun
      obtain ⟨bound, hbound, ⟨rows, numColumns⟩, hnorm, rfl⟩ := hrun
      obtain ⟨hwithin, heval⟩ := rowOf_eq_ok hbound
      refine (demands_addNorm h hn hwithin hnorm).of_iff fun z => ?_
      simp only [Option.mem_def, Option.some.injEq, forall_eq', RawConstraint.Holds, hsense,
        ConstraintSense.Holds, ConicExpr.eval, hnormed, Option.elim, AffineExpr.eval, heval]
      refine imp_congr_right fun _ => ?_
      constructor <;> intro <;> linarith
    · simp [hsense, bind_eq_ok_iff, throw_ne_ok] at hrun

/-- The standard form has the rows of the constraints, then those of the bounds, and the objectives
of the model. -/
theorem ofModel_eq_ok {f : StandardForm ℝ} (hrun : ofModel m = .ok f) :
    ∃ draft, m.constraints.foldlM (addConstraint m) ⟨empty, m.numVariables, some []⟩ = .ok draft ∧
      f.numVariables = m.numVariables ∧ f.numColumns = draft.numColumns ∧
      f.dualRows? = draft.dualRows? ∧
      f.rows = m.vars.items.zipIdx.foldl (fun rows (v, column) => addBounds rows column v.bounds)
        draft.rows ∧
      List.Forall₂ (fun (o : ConicObjective ℝ) (o' : ColumnObjective ℝ) => ∃ row,
        rowOf m o.expression 1 = .ok row ∧ o' = ⟨o.sense, row, o.expression.constant⟩)
        m.objectives f.objectives := by
  unfold ofModel at hrun
  have hcontinuous : m.isContinuous = true := by
    by_contra h
    rw [Bool.not_eq_true] at h
    simp only [h, Bool.not_false, if_true, bind_eq_ok_iff, throw_ne_ok, false_and, exists_false]
      at hrun
  have hgroups : m.exclusiveGroups.isEmpty = true := by
    by_contra h
    rw [Bool.not_eq_true] at h
    simp only [hcontinuous, h, Bool.not_true, Bool.false_eq_true, if_false, Bool.not_false, if_true,
      bind_eq_ok_iff, throw_ne_ok, false_and, exists_false] at hrun
  simp only [hcontinuous, hgroups, Bool.not_true, Bool.false_eq_true, if_false, bind_eq_ok_iff,
    pure_eq_ok_iff] at hrun
  obtain ⟨draft, hdraft, objectives, hobjectives, rfl⟩ := hrun
  refine ⟨draft, hdraft, rfl, rfl, rfl, rfl, (mapM_eq_ok_iff.1 hobjectives).imp fun o o' ho => ?_⟩
  obtain ⟨row, hrow, ho⟩ := bind_eq_ok_iff.1 ho
  exact ⟨row, hrow, (pure_eq_ok_iff.1 ho).symm⟩

/-- A model becomes rows that demand its bounds and its constraints, those aside that bound the
largest magnitude of no entries. -/
theorem demands_ofModel {f : StandardForm ℝ} (hrun : ofModel m = .ok f) :
    Demands m.numVariables empty m.numVariables f.rows f.numColumns fun z =>
      (∀ con ∈ m.constraints, (∀ v ∈ con.expression.normed?, v.NonemptyMax) →
        con.toRawConstraint.Holds (bySlot z)) ∧
      ∀ p ∈ m.vars.items.zipIdx, p.1.bounds.admits (z p.2) = true := by
  obtain ⟨draft, hdraft, -, hcolumns, -, hrows, -⟩ := ofModel_eq_ok hrun
  rw [hcolumns, hrows]
  have hconstraints : Demands m.numVariables empty m.numVariables draft.rows draft.numColumns
      fun z =>
      ∀ con ∈ m.constraints, (∀ v ∈ con.expression.normed?, v.NonemptyMax) →
        con.toRawConstraint.Holds (bySlot z) := by
    refine foldlM_prefix (I := fun ps (d : Draft ℝ) => Demands m.numVariables empty m.numVariables
      d.rows d.numColumns fun z => ∀ con ∈ ps, (∀ v ∈ con.expression.normed?, v.NonemptyMax) →
        con.toRawConstraint.Holds (bySlot z)) ?_ ?_ hdraft
    · intro ps con _ d d' _ ih hstep
      refine (ih.seq le_rfl (demands_addConstraint ih.within ih.le hstep)).of_iff fun z => ?_
      rw [List.forall_mem_append, List.forall_mem_singleton]
    · exact (Demands.refl (within_empty _)).of_iff (by simp)
  have hslots : ∀ p ∈ m.vars.items.zipIdx, p.2 < m.numVariables :=
    fun p hp => List.snd_lt_of_mem_zipIdx hp
  have hbounds := demands_foldl_addBounds hconstraints.within hconstraints.le hslots
  exact hconstraints.seq le_rfl hbounds

/-- Feasible values, by position, satisfy all constraints and bounds. -/
theorem feasible_bySlot_iff {z : ℕ → ℝ} : m.Feasible (bySlot z) ↔
    (∀ con ∈ m.constraints, con.toRawConstraint.Holds (bySlot z)) ∧
      ∀ p ∈ m.vars.items.zipIdx, p.1.bounds.admits (z p.2) = true := by
  have hbounds : (∀ e ∈ m.vars.entries, e.2.bounds.admits (bySlot z e.1) = true) ↔
      ∀ p ∈ m.vars.items.zipIdx, p.1.bounds.admits (z p.2) = true := List.forall_mem_map
  constructor
  · intro h
    exact ⟨fun con hcon => Constraint.feasible_total_iff.1 (h.constraints con hcon),
      hbounds.1 h.bounds⟩
  · rintro ⟨hconstraints, h⟩
    exact ⟨hbounds.2 h, fun con hcon => Constraint.feasible_total_iff.2 (hconstraints con hcon)⟩

/-- The standard form of a model has the feasible set of the model, as long as no constraint bounds
the largest magnitude of no entries: the cones take up all rows, and values of the variables are
feasible exactly when they can be extended to all columns such that `b - A x` lies in the product of
the cones. -/
theorem feasible_iff_exists_residual {f : StandardForm ℝ} (hrun : ofModel m = .ok f)
    (hrows : ∀ con ∈ m.constraints, ∀ v ∈ con.expression.normed?, v.NonemptyMax) :
    (f.rows.cones.map Cone.dimension).sum = f.rows.numRows ∧
      ∀ xs : List ℝ, xs.length = m.numVariables →
        (m.Feasible (bySlot (entryAt xs)) ↔ ∃ aux : List ℝ, (xs ++ aux).length = f.numColumns ∧
          Cone.InProduct f.rows.cones (f.rows.residual (xs ++ aux))) := by
  have hdemands : Demands m.numVariables empty m.numVariables f.rows f.numColumns
      fun z => m.Feasible (bySlot z) := by
    refine (demands_ofModel hrun).of_iff fun z => ?_
    rw [feasible_bySlot_iff]
    exact and_congr_left' ⟨fun h con hcon => h con hcon (hrows con hcon),
      fun h con hcon _ => h con hcon⟩
  exact ⟨hdemands.within.dimensions, fun xs hxs => hdemands.iff_exists_residual hxs⟩

/-- The variable of the model below, plus a norm, is at most one. -/
noncomputable def cap (norm : NormKind) (entries : List ConicRef) : ConicConstraint ℝ :=
  .named "cap" ⟨.leq, (ConicExpr.normOf norm entries).addAffine ⟨-1, .var ⟨⟨0⟩, 0, 0⟩⟩⟩

/-- One variable between zero and five whose sum with a norm is at most one. -/
noncomputable def capped (norm : NormKind) (entries : List ConicRef) : ConicModel ℝ :=
  ⟨"capped", ⟨⟨0⟩, 0, [⟨"x", ⟨some 0, some 5, by simp⟩, .continuous, none, none⟩]⟩,
    [cap norm entries], [], []⟩

private theorem rowOf_capped (norm : NormKind) (entries : List ConicRef) (k factor : ℝ) :
    rowOf (capped norm entries) ⟨k, .var ⟨⟨0⟩, 0, 0⟩⟩ factor = .ok [(0, factor)] := by
  have hterms : (LinearExpr.var ⟨⟨0⟩, 0, 0⟩ : LinearExpr ℝ ConicRef).simplify.terms =
      [⟨1, ⟨⟨0⟩, 0, 0⟩⟩] := by
    simp [LinearExpr.var, LinearExpr.term, LinearExpr.simplify, LinearExpr.merged,
      LinearExpr.mergeTerm]
  simp [rowOf, hterms]
  rfl

private theorem exists_ofModel_capped (norm : NormKind) (entries : List ConicRef)
    (hnorm : ∃ s, addNorm (capped norm entries) (.ofVariables norm entries) [(0, 1)] (0 + -1)
      empty 1 = .ok s) : ∃ f, ofModel (capped norm entries) = .ok f := by
  obtain ⟨⟨rows, n⟩, hnorm⟩ := hnorm
  have hconstraint : addConstraint (capped norm entries) ⟨empty, 1, some []⟩ (cap norm entries) =
      (do
        let bound ← rowOf (capped norm entries) ⟨0 + -1, .var ⟨⟨0⟩, 0, 0⟩⟩ 1
        let (rows, n) ← addNorm (capped norm entries) (.ofVariables norm entries) bound
          (0 + -1) empty 1
        return ⟨rows, n, none⟩) := rfl
  have hstep : addConstraint (capped norm entries) ⟨empty, 1, some []⟩ (cap norm entries) =
      .ok ⟨rows, n, none⟩ := by
    rw [hconstraint, rowOf_capped, bind_eq_ok_iff]
    exact ⟨_, rfl, bind_eq_ok_iff.2 ⟨_, hnorm, rfl⟩⟩
  have hmodel : ofModel (capped norm entries) = (do
      let draft ← [cap norm entries].foldlM (addConstraint (capped norm entries))
        ⟨empty, 1, some []⟩
      return ⟨1, draft.numColumns, addBounds draft.rows 0 ⟨some 0, some 5, by simp⟩, [],
        draft.dualRows?⟩) := rfl
  rw [hmodel, List.foldlM_cons, hstep]
  exact ⟨_, rfl⟩

private theorem feasible_capped_iff {norm : NormKind} {entries : List ConicRef} {z : ℕ → ℝ} :
    (capped norm entries).Feasible (bySlot z) ↔
      norm.apply (entries.map (bySlot z)) + (-1 + z 0) ≤ 0 ∧ 0 ≤ z 0 ∧ z 0 ≤ 5 := by
  rw [feasible_bySlot_iff]
  simp [capped, cap, Constraint.named, RawConstraint.Holds, ConstraintSense.Holds, ConicExpr.eval,
    ConicExpr.addAffine, ConicExpr.normOf, AffineExpr.eval, AffineExpr.add, AffineExpr.zero,
    Bounds.admits_iff, bySlot]

/-- The value one half, whose magnitude is below the cap, has auxiliary values that satisfy all
cones. -/
theorem feasible_iff_exists_residual_capped : ∃ f, ofModel (capped .one [⟨⟨0⟩, 0, 0⟩]) = .ok f ∧
    ∃ aux : List ℝ, ([1 / 2] ++ aux).length = f.numColumns ∧
      Cone.InProduct f.rows.cones (f.rows.residual ([1 / 2] ++ aux)) := by
  obtain ⟨f, hf⟩ := exists_ofModel_capped .one [⟨⟨0⟩, 0, 0⟩] (by
    simp only [addNorm, NormedVector.ofVariables, List.map_cons, List.map_nil, List.foldlM_cons,
      AffineExpr.var, rowOf_capped]
    exact ⟨_, rfl⟩)
  refine ⟨f, hf, ((feasible_iff_exists_residual hf ?_).2 [1 / 2] rfl).1 ?_⟩
  · simp [capped, cap, Constraint.named, ConicExpr.addAffine, ConicExpr.normOf,
      NormedVector.ofVariables, NormedVector.NonemptyMax]
  · rw [feasible_capped_iff]
    norm_num [NormKind.apply_one, bySlot, entryAt]

/-- A bound of the largest magnitude of no entries is lost: two is no value of the variable of the
model, but satisfies all rows of the standard form. -/
theorem exists_residual_capped_infinity : ∃ f, ofModel (capped .infinity []) = .ok f ∧
    ¬(capped .infinity []).Feasible (bySlot (entryAt [2])) ∧
      ∃ aux : List ℝ, ([2] ++ aux).length = f.numColumns ∧
        Cone.InProduct f.rows.cones (f.rows.residual ([2] ++ aux)) := by
  obtain ⟨f, hf⟩ := exists_ofModel_capped .infinity [] ⟨_, rfl⟩
  have hempty : NormKind.infinity.apply ([] : List ℝ) = 0 :=
    NormKind.apply_replicate_zero .infinity 0
  refine ⟨f, hf, ?_, ((demands_ofModel hf).iff_exists_residual rfl).1 ⟨?_, ?_⟩⟩
  · rw [feasible_capped_iff]
    norm_num [entryAt, hempty]
  · simp [capped, cap, Constraint.named, ConicExpr.addAffine, ConicExpr.normOf,
      NormedVector.ofVariables, NormedVector.NonemptyMax]
  · norm_num [capped, Bounds.admits_iff, entryAt]

end StandardForm

end AdjustableRobust
