import AdjustableRobust.Conic.Dual
import AdjustableRobust.Proofs.Conic.Extension
import AdjustableRobust.Proofs.Duality.Penalty
import Mathlib.Data.List.GetD

/-!
# Lagrangians as functions

A Lagrangian stands for a function of the primal values: its objective plus each residual times the
value of its variable. Adding a row with its dual adds the product of both to this function, so
dualizing a constraint adds exactly its penalty.
-/

namespace AdjustableRobust

/-- A change of one entry of a list adds to a weighted sum over the list. -/
theorem sum_getD_modify {α : Type} (value : α → ℝ) (fallback : α) {xs : List α} {k : ℕ}
    (hk : k < xs.length) {f : α → α} {d : ℝ} (hf : ∀ x, value (f x) = value x + d) (u : ℕ → ℝ) :
    ∑ i ∈ Finset.range xs.length, value ((xs.modify k f).getD i fallback) * u i =
      ∑ i ∈ Finset.range xs.length, value (xs.getD i fallback) * u i + d * u k := by
  have hterm : ∀ i ∈ Finset.range xs.length, value ((xs.modify k f).getD i fallback) * u i =
      value (xs.getD i fallback) * u i + if i = k then d * u i else 0 := by
    intro i hi
    have hlt := Finset.mem_range.1 hi
    simp only [List.getD_eq_getElem?_getD, List.getElem?_modify, List.getElem?_eq_getElem hlt,
      Option.getD_some]
    by_cases hik : k = i
    · subst hik
      simp only [ite_true, Option.map_eq_map, Option.map_some, Option.getD_some, hf]
      ring
    · simp [hik, Ne.symm hik]
  rw [Finset.sum_congr rfl hterm, Finset.sum_add_distrib, Finset.sum_ite_eq',
    if_pos (Finset.mem_range.2 hk)]

namespace Lagrangian

/-- The function of the realization that the Lagrangian stands for. -/
noncomputable def valueAt (l : Lagrangian ℝ) (ω : ConicRef → ℝ) (u : ℕ → ℝ) : ℝ :=
  l.objective.eval ω
    + ∑ i ∈ Finset.range l.residuals.length, (l.residuals.getD i .zero).eval ω * u i

/-- The function depends on variables of the model only. -/
def LocalTo (l : Lagrangian ℝ) (m : ConicModel ℝ) : Prop :=
  ∀ ω ω', m.Agree ω ω' → l.valueAt ω' = l.valueAt ω

/-- Nothing added yet. -/
@[simp] theorem valueAt_zero (n : ℕ) (ω : ConicRef → ℝ) : (zero n).valueAt ω = 0 := by
  funext u
  simp only [valueAt, zero, AffineExpr.eval_zero, zero_add, Pi.zero_apply]
  refine Finset.sum_eq_zero fun i hi => ?_
  rw [List.getD_eq_getElem _ _ (Finset.mem_range.1 hi), List.getElem_replicate,
    AffineExpr.eval_zero, zero_mul]

/-- A term of the objective adds to the function. -/
theorem valueAt_addObjective (l : Lagrangian ℝ) (c : ℝ) (v : ConicRef) (ω : ConicRef → ℝ)
    (u : ℕ → ℝ) : (l.addObjective c v).valueAt ω u = l.valueAt ω u + c * ω v := by
  simp only [valueAt, addObjective, AffineExpr.eval_addTerm]
  ring

/-- A constant of the objective adds to the function. -/
theorem valueAt_addConstant (l : Lagrangian ℝ) (c : ℝ) (ω : ConicRef → ℝ) (u : ℕ → ℝ) :
    (l.addConstant c).valueAt ω u = l.valueAt ω u + c := by
  simp only [valueAt, addConstant, AffineExpr.eval_addConstant]
  ring

variable {κ : EntityKind} {l l' : Lagrangian ℝ} {h : Handle κ}

/-- A residual is changed when its position exists, by what the change adds to it. -/
theorem modifyResidual_eq_ok {f : AffineExpr ℝ ConicRef → AffineExpr ℝ ConicRef}
    {δ : (ConicRef → ℝ) → ℝ} (hf : ∀ e ω, (f e).eval ω = e.eval ω + δ ω)
    (hrun : l.modifyResidual h f = .ok l') :
    h.slot < l.residuals.length ∧ l'.residuals.length = l.residuals.length ∧
      ∀ ω u, l'.valueAt ω u = l.valueAt ω u + δ ω * u h.slot := by
  simp only [modifyResidual, bind_eq_ok_iff, pure_eq_ok_iff] at hrun
  obtain ⟨_, hlook, rfl⟩ := hrun
  have hlt : h.slot < l.residuals.length := by
    by_contra hge
    rw [Handle.lookup, List.getElem?_eq_none (not_lt.1 hge)] at hlook
    cases hlook
  refine ⟨hlt, List.length_modify _ _ _, fun ω u => ?_⟩
  simp only [valueAt]
  rw [List.length_modify, sum_getD_modify (fun e => e.eval ω) .zero hlt (fun e => hf e ω) u,
    add_assoc]

/-- Adding a term to a residual. -/
theorem addResidual_eq_ok {c : ℝ} {v : ConicRef} (hrun : l.addResidual h c v = .ok l') :
    h.slot < l.residuals.length ∧ l'.residuals.length = l.residuals.length ∧
      ∀ ω u, l'.valueAt ω u = l.valueAt ω u + c * ω v * u h.slot :=
  modifyResidual_eq_ok (fun e ω => AffineExpr.eval_addTerm e c v ω) hrun

/-- Adding a constant to a residual. -/
theorem addResidualConstant_eq_ok {c : ℝ} (hrun : l.addResidualConstant h c = .ok l') :
    h.slot < l.residuals.length ∧ l'.residuals.length = l.residuals.length ∧
      ∀ ω u, l'.valueAt ω u = l.valueAt ω u + c * u h.slot :=
  modifyResidual_eq_ok (fun e ω => AffineExpr.eval_addConstant e c ω) hrun

/-- The objective is the value at the origin. -/
theorem valueAt_origin (l : Lagrangian ℝ) (ω : ConicRef → ℝ) :
    l.valueAt ω 0 = l.objective.eval ω := by
  simp [valueAt]

private theorem valueAt_single (l : Lagrangian ℝ) (ω : ConicRef → ℝ) {k : ℕ}
    (hk : k < l.residuals.length) :
    l.valueAt ω (fun i => if i = k then 1 else 0) =
      l.objective.eval ω + l.residuals[k].eval ω := by
  simp [valueAt, hk]

/-- The function is constant exactly when all residuals vanish. -/
theorem forall_valueAt_eq_iff (l : Lagrangian ℝ) (ω : ConicRef → ℝ) :
    (∀ u, l.valueAt ω u = l.valueAt ω 0) ↔ ∀ e ∈ l.residuals, e.eval ω = 0 := by
  constructor
  · intro hv e he
    obtain ⟨k, hk, rfl⟩ := List.getElem_of_mem he
    have hunit := hv fun i => if i = k then 1 else 0
    rw [valueAt_single l ω hk, valueAt_origin] at hunit
    linarith
  · intro hres u
    rw [valueAt_origin, valueAt, Finset.sum_eq_zero, add_zero]
    intro i hi
    rw [List.getD_eq_getElem _ _ (Finset.mem_range.1 hi), hres _ (List.getElem_mem _), zero_mul]

/-- A demand on the residuals, one for each entry of another list. -/
theorem forall_mem_zip_residuals_iff {β : Type} {xs : List β} (h : l.residuals.length = xs.length)
    {P : AffineExpr ℝ ConicRef → Prop} :
    (∀ x ∈ xs.zip l.residuals, P x.2) ↔ ∀ e ∈ l.residuals, P e := by
  conv_rhs => rw [← List.map_snd_zip h.le, List.forall_mem_map]

namespace LocalTo

variable {m : ConicModel ℝ} {ω ω' : ConicRef → ℝ}

end LocalTo

/-! ## Growth -/

/-- What adding a part does: residuals are neither added nor removed, and the function grows by the
value of the part. -/
def GrowsBy (l l' : Lagrangian ℝ) (f : (ConicRef → ℝ) → (ℕ → ℝ) → ℝ) : Prop :=
  l'.residuals.length = l.residuals.length ∧ ∀ ω u, l'.valueAt ω u = l.valueAt ω u + f ω u

/-- What is added to a Lagrangian is affine, as the difference of two affine functions. -/
theorem GrowsBy.affine {f : (ConicRef → ℝ) → (ℕ → ℝ) → ℝ} (h : l.GrowsBy l' f) (ω : ConicRef → ℝ) :
    ∃ (a : ℝ) (d : ℕ → ℝ), ∀ u, f ω u = a + ∑ i ∈ Finset.range l.residuals.length, d i * u i := by
  obtain ⟨hlen, hval⟩ := h
  refine ⟨l'.objective.eval ω - l.objective.eval ω,
    fun i => (l'.residuals.getD i .zero).eval ω - (l.residuals.getD i .zero).eval ω, fun u => ?_⟩
  have hdiff : f ω u = l'.valueAt ω u - l.valueAt ω u := by
    rw [hval]
    ring
  rw [hdiff, valueAt, valueAt, hlen]
  simp only [sub_mul, Finset.sum_sub_distrib]
  ring

/-- One part after the other. -/
theorem GrowsBy.trans {l₁ : Lagrangian ℝ} {f g k : (ConicRef → ℝ) → (ℕ → ℝ) → ℝ}
    (h : l.GrowsBy l₁ f) (h' : l₁.GrowsBy l' g) (hsum : ∀ ω u, f ω u + g ω u = k ω u) :
    l.GrowsBy l' k :=
  ⟨h'.1.trans h.1, fun ω u => by rw [h'.2, h.2, add_assoc, hsum]⟩

/-- A fold over terms adds the sum of what each term adds. -/
theorem growsBy_of_foldlM {V ε : Type} {step : Lagrangian ℝ → Term ℝ V → Except ε (Lagrangian ℝ)}
    {n : ℕ} (good : V → Prop) (value : V → (ConicRef → ℝ) → (ℕ → ℝ) → ℝ)
    (hstep : ∀ l t l', l.residuals.length = n → step l t = .ok l' →
      good t.var ∧ l.GrowsBy l' fun ω u => t.scale * value t.var ω u)
    {e : LinearExpr ℝ V} (hl : l.residuals.length = n) (hrun : e.terms.foldlM step l = .ok l') :
    (∀ v ∈ e.vars, good v) ∧ l.GrowsBy l' fun ω u => e.eval fun v => value v ω u := by
  unfold LinearExpr.vars LinearExpr.eval
  generalize e.terms = ts at hrun
  induction ts generalizing l with
  | nil =>
    rw [List.foldlM_nil, pure_eq_ok_iff] at hrun
    subst hrun
    simp [GrowsBy]
  | cons t ts ih =>
    rw [List.foldlM_cons, bind_eq_ok_iff] at hrun
    obtain ⟨l₁, hfirst, hrest⟩ := hrun
    obtain ⟨hgood, hgrows⟩ := hstep _ _ _ hl hfirst
    obtain ⟨hgoods, hgrows'⟩ := ih (hgrows.1.trans hl) hrest
    refine ⟨List.forall_mem_cons.2 ⟨hgood, hgoods⟩, hgrows.trans hgrows' fun ω u => ?_⟩
    rw [List.map_cons, List.sum_cons]

/-- A term of the objective. -/
theorem growsBy_addObjective (l : Lagrangian ℝ) (c : ℝ) (v : ConicRef) :
    l.GrowsBy (l.addObjective c v) fun ω _ => c * ω v :=
  ⟨rfl, l.valueAt_addObjective c v⟩

/-- A constant of the objective. -/
theorem growsBy_addConstant (l : Lagrangian ℝ) (c : ℝ) :
    l.GrowsBy (l.addConstant c) fun _ _ => c :=
  ⟨rfl, l.valueAt_addConstant c⟩

/-! ## Rows with their duals -/

/-- Rows have been added with their duals: the variables that occur have residuals, and the function
grows by the rows times their duals. -/
structure Gains (l l' : Lagrangian ℝ) (rows : List (AffineExpr ℝ (Handle κ)))
    (duals : List ConicRef) : Prop where
  length : duals.length = rows.length
  slots : ∀ row ∈ rows, ∀ v ∈ row.vars, v.slot < l.residuals.length
  /-- The rows times their duals are added. -/
  growth : l.GrowsBy l' fun ω u => pairing (duals.map ω) (rows.map (·.eval (bySlot u)))

namespace Gains

variable {l₁ : Lagrangian ℝ} {rows rows' : List (AffineExpr ℝ (Handle κ))}
variable {duals duals' : List ConicRef}

/-- No rows, no change. -/
theorem nil (l : Lagrangian ℝ) : l.Gains l ([] : List (AffineExpr ℝ (Handle κ))) [] :=
  ⟨rfl, by simp, rfl, by simp⟩

/-- Some rows after the other. -/
theorem append (h : l.Gains l₁ rows duals) (h' : l₁.Gains l' rows' duals') :
    l.Gains l' (rows ++ rows') (duals ++ duals') where
  length := by rw [List.length_append, List.length_append, h.length, h'.length]
  slots := List.forall_mem_append.2 ⟨h.slots, h.growth.1 ▸ h'.slots⟩
  growth := h.growth.trans h'.growth fun ω u => by
    rw [List.map_append, List.map_append, pairing_append (by simp [h.length])]

end Gains

/-- A row is added by its constant in the objective and its terms in the residuals. -/
theorem gains_of_foldlM {ε : Type} {l₁ : Lagrangian ℝ} {row : AffineExpr ℝ (Handle κ)}
    {dv : ConicRef} {step : Lagrangian ℝ → Term ℝ (Handle κ) → Except ε (Lagrangian ℝ)}
    (hstep : ∀ l t l', step l t = .ok l' → l.addResidual t.var t.scale dv = .ok l')
    (hconstant : l.GrowsBy l₁ fun ω _ => row.constant * ω dv)
    (hrun : row.linear.terms.foldlM step l₁ = .ok l') : l.Gains l' [row] [dv] := by
  obtain ⟨hslots, hgrows⟩ := growsBy_of_foldlM (fun v => v.slot < l.residuals.length)
    (fun v ω u => bySlot u v * ω dv) (fun l₂ t l₃ hl₂ ht => by
      obtain ⟨hslot, hlen, hval⟩ := addResidual_eq_ok (hstep _ _ _ ht)
      refine ⟨hl₂ ▸ hslot, hlen, fun ω u => ?_⟩
      simp only [hval, bySlot]
      ring) hconstant.1 hrun
  refine ⟨rfl, List.forall_mem_singleton.2 hslots, hconstant.trans hgrows fun ω u => ?_⟩
  have hterms : (row.linear.eval fun v => bySlot u v * ω dv) =
      row.linear.eval (bySlot u) * ω dv := by
    rw [LinearExpr.eval, LinearExpr.eval, ← List.sum_map_mul_right]
    simp only [mul_assoc]
  rw [hterms, List.map_singleton, List.map_singleton, pairing_cons_cons, pairing_nil,
    AffineExpr.eval]
  ring

/-- A bound is a row with a single term. -/
theorem gains_bound {l₁ : Lagrangian ℝ} {h : Handle κ} {b : ℝ} {dv : ConicRef}
    (hconstant : l.GrowsBy l₁ fun ω _ => -b * ω dv) (hrun : l₁.addResidual h 1 dv = .ok l') :
    l.Gains l' [⟨-b, .var h⟩] [dv] :=
  gains_of_foldlM (fun _ _ _ ht => ht) hconstant
    (by simpa [LinearExpr.var, LinearExpr.term] using hrun)

end Lagrangian

end AdjustableRobust
