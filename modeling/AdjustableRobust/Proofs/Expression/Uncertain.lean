import AdjustableRobust.Proofs.Expression.Substitution

/-!
# Substitution in uncertain expressions

Decisions are replaced by decisions and uncertainties by affine expressions; a product of both
becomes a decision term and products again. The result has the value that the expression has at the
values of what its variables are replaced by.
-/

namespace AdjustableRobust

/-- Renaming succeeds when every variable has a new name, and keeps the value. -/
theorem LinearExpr.rename_eq_ok {V W : Type} {f : V → Except (ModelError ℝ) W}
    {e : LinearExpr ℝ V} {g : LinearExpr ℝ W} (hrun : e.rename f = .ok g) :
    (∀ v ∈ e.vars, ∃ w, f v = .ok w) ∧
      ∀ (ω : W → ℝ) (ξ : V → ℝ), (∀ v w, f v = .ok w → ω w = ξ v) → g.eval ω = e.eval ξ := by
  simp only [rename, bind_eq_ok_iff, pure_eq_ok_iff] at hrun
  obtain ⟨ts, hts, rfl⟩ := hrun
  unfold vars eval
  generalize e.terms = terms at hts
  rw [mapM_eq_ok_iff] at hts
  induction hts with
  | nil => simp
  | cons ht _ ih =>
    rw [bind_eq_ok_iff] at ht
    obtain ⟨w, hw, ht⟩ := ht
    rw [pure_eq_ok_iff] at ht
    subst ht
    obtain ⟨hresolves, heval⟩ := ih
    refine ⟨List.forall_mem_cons.2 ⟨⟨w, hw⟩, hresolves⟩, fun ω ξ hξ => ?_⟩
    rw [List.map_cons, List.sum_cons, List.map_cons, List.sum_cons, heval ω ξ hξ, hξ _ w hw]

namespace UncertainExpr

/-- An uncertain expression in new variables is the image of one in old variables. -/
structure IsImage (f : DecisionRef → Except (ModelError ℝ) DecisionRef)
    (g : UncertaintyRef → Except (ModelError ℝ) (AffineExpr ℝ UncertaintyRef))
    (e image : UncertainExpr ℝ) : Prop where
  mode : image.mode = e.mode
  uncertainties : ∀ v ∈ e.uncertainties.vars, ∃ i, g v = .ok i
  decisions : ∀ v ∈ e.decisions.vars, ∃ d, f v = .ok d
  products : ∀ v ∈ e.products.vars,
    (∃ i, g v.uncertainty = .ok i) ∧ ∃ d, f v.decision = .ok d
  /-- The value of the image is that of the expression at the values of the images. -/
  eval : ∀ (U u : UncertaintyRef → ℝ) (δ d : DecisionRef → ℝ),
    (∀ v i, g v = .ok i → i.eval U = u v) → (∀ v w, f v = .ok w → δ w = d v) →
      image.eval U δ = e.eval u d

variable {e e' : UncertainExpr ℝ}

private theorem eval_expandProduct (c : ℝ) (d : DecisionRef) (i : AffineExpr ℝ UncertaintyRef)
    (e : UncertainExpr ℝ) (U : UncertaintyRef → ℝ) (δ : DecisionRef → ℝ) :
    (expandProduct c d i e).mode = e.mode ∧
      (expandProduct c d i e).eval U δ = e.eval U δ + c * (i.eval U * δ d) := by
  have hterms : ∀ (ts : List (Term ℝ UncertaintyRef)) (e : UncertainExpr ℝ),
      let e' := ts.foldl (fun e t => e.addProduct (c * t.scale) t.var d) e
      e'.mode = e.mode ∧
        e'.eval U δ = e.eval U δ + c * ((ts.map fun t => t.scale * U t.var).sum * δ d) := by
    intro ts
    induction ts with
    | nil => simp
    | cons t ts ih =>
      intro e
      obtain ⟨hmode, heval⟩ := ih (e.addProduct (c * t.scale) t.var d)
      refine ⟨hmode, ?_⟩
      rw [List.foldl_cons, heval, List.map_cons, List.sum_cons]
      simp only [addProduct, UncertainExpr.eval, LinearExpr.eval_addTerm]
      ring
  have hconstant : ∀ x : ℝ,
      let e' := if x == 0 then e else e.addDecision (c * x) d
      e'.mode = e.mode ∧ e'.eval U δ = e.eval U δ + c * (x * δ d) := by
    intro x
    by_cases hx : x = 0
    · simp [hx]
    · simp only [Scalar.beq_real, hx, decide_false, Bool.false_eq_true, ite_false]
      refine ⟨rfl, ?_⟩
      simp only [addDecision, UncertainExpr.eval, LinearExpr.eval_addTerm]
      ring
  obtain ⟨hmode, heval⟩ := hconstant i.constant
  obtain ⟨hmode', heval'⟩ := hterms i.linear.terms
    (if i.constant == 0 then e else e.addDecision (c * i.constant) d)
  refine ⟨hmode'.trans hmode, heval'.trans ?_⟩
  rw [heval, AffineExpr.eval, LinearExpr.eval]
  ring

private theorem foldlM_expandProduct_eq_ok
    {f : DecisionRef → Except (ModelError ℝ) DecisionRef}
    {g : UncertaintyRef → Except (ModelError ℝ) (AffineExpr ℝ UncertaintyRef)}
    {ts : List (Term ℝ Product)}
    (hrun : ts.foldlM (fun result t => do
      let d ← f t.var.decision
      let image ← g t.var.uncertainty
      return expandProduct t.scale d image result) e = .ok e') :
    e'.mode = e.mode ∧
      (∀ t ∈ ts, (∃ i, g t.var.uncertainty = .ok i) ∧ ∃ d, f t.var.decision = .ok d) ∧
      ∀ (U u : UncertaintyRef → ℝ) (δ d : DecisionRef → ℝ),
        (∀ v i, g v = .ok i → i.eval U = u v) → (∀ v w, f v = .ok w → δ w = d v) →
          e'.eval U δ = e.eval U δ +
            (ts.map fun t => t.scale * (u t.var.uncertainty * d t.var.decision)).sum := by
  induction ts generalizing e with
  | nil =>
    rw [List.foldlM_nil, pure_eq_ok_iff] at hrun
    subst hrun
    simp
  | cons t ts ih =>
    simp only [List.foldlM_cons, bind_eq_ok_iff, pure_eq_ok_iff] at hrun
    obtain ⟨_, ⟨d, hd, i, hi, rfl⟩, hrest⟩ := hrun
    obtain ⟨hmode, hresolves, heval⟩ := ih hrest
    have hexpand := eval_expandProduct t.scale d i e
    refine ⟨hmode.trans (hexpand 0 0).1, List.forall_mem_cons.2 ⟨⟨⟨i, hi⟩, d, hd⟩, hresolves⟩,
      fun U u δ η hu hη => ?_⟩
    rw [heval U u δ η hu hη, (hexpand U δ).2, hu _ i hi, hη _ d hd, List.map_cons, List.sum_cons,
      add_assoc]

/-- Substituting in an uncertain expression. -/
theorem substitute_eq_ok {f : DecisionRef → Except (ModelError ℝ) DecisionRef}
    {g : UncertaintyRef → Except (ModelError ℝ) (AffineExpr ℝ UncertaintyRef)}
    (hrun : e.substitute f g = .ok e') : IsImage f g e e' := by
  simp only [substitute, bind_eq_ok_iff] at hrun
  obtain ⟨ds, hds, us, hus, hfold⟩ := hrun
  obtain ⟨hdecisions, hdecided⟩ := LinearExpr.rename_eq_ok hds
  have huncertain := LinearExpr.substitute_eq_ok hus
  obtain ⟨hmode, hproducts, heval⟩ := foldlM_expandProduct_eq_ok hfold
  refine ⟨hmode, huncertain.resolves, hdecisions, ?_, fun U u δ d hu hd => ?_⟩
  · intro v hv
    obtain ⟨t, ht, rfl⟩ := List.mem_map.1 hv
    exact hproducts t ht
  · have hsum : (e.products.terms.map fun t =>
        t.scale * (u t.var.uncertainty * d t.var.decision)).sum =
          e.products.eval fun p => u p.uncertainty * d p.decision := rfl
    rw [heval U u δ d hu hd, hsum, UncertainExpr.eval, UncertainExpr.eval, hdecided δ d hd,
      ← huncertain.eval U u hu, LinearExpr.eval_zero, AffineExpr.eval]
    ring

private theorem foldlM_toConic_eq_ok
    {f : DecisionRef → Except (ModelError ℝ) (AffineExpr ℝ ConicRef)}
    {a : Assignment ℝ UncertaintyRef} {u : UncertaintyRef → ℝ} {I : ConicRef → Prop}
    (hf : ∀ v g, f v = .ok g → ∀ w ∈ g.vars, I w) {ts : List (Term ℝ Product)}
    (hts : ∀ t ∈ ts, a t.var.uncertainty = .ok (u t.var.uncertainty) ∧
      ∃ g, f t.var.decision = .ok g) {start : AffineExpr ℝ ConicRef}
    (hstart : ∀ w ∈ start.vars, I w) :
    ∃ g, ts.foldlM (fun result t => do
        let factor := t.scale * (← a t.var.uncertainty)
        return result.add ((← f t.var.decision).scale factor)) start =
          (.ok g : Except (ModelError ℝ) _) ∧ (∀ w ∈ g.vars, I w) ∧
      ∀ (ω : ConicRef → ℝ) (δ : DecisionRef → ℝ),
        (∀ v g, f v = .ok g → g.eval ω = δ v) → g.eval ω = start.eval ω +
        (ts.map fun t => t.scale * (u t.var.uncertainty * δ t.var.decision)).sum := by
  induction ts generalizing start with
  | nil => exact ⟨start, rfl, hstart, by simp⟩
  | cons t ts ih =>
    obtain ⟨⟨hu, h, hh⟩, hts⟩ := List.forall_mem_cons.1 hts
    have hnext : ∀ w ∈ (start.add (h.scale (t.scale * u t.var.uncertainty))).vars, I w := by
      rw [AffineExpr.vars_add, AffineExpr.vars_scale]
      exact List.forall_mem_append.2 ⟨hstart, hf _ h hh⟩
    obtain ⟨g, hg, hvars, heval⟩ := ih hts hnext
    refine ⟨g, ?_, hvars, fun ω δ hδ => ?_⟩
    · rw [List.foldlM_cons]
      exact bind_eq_ok_iff.2 ⟨_, by rw [hu, hh]; rfl, hg⟩
    · rw [heval ω δ hδ, AffineExpr.eval_add, AffineExpr.eval_scale, hδ _ h hh, List.map_cons,
        List.sum_cons]
      ring

/-- Fixing the uncertainties and putting affine expressions for the decisions succeeds when all of
them are there, and gives an affine expression in their variables with the value of the
expression. -/
theorem substituteToConic_eq_ok {f : DecisionRef → Except (ModelError ℝ) (AffineExpr ℝ ConicRef)}
    {a : Assignment ℝ UncertaintyRef} {u : UncertaintyRef → ℝ} {I : ConicRef → Prop}
    (ha : a.Within u) (hf : ∀ v g, f v = .ok g → ∀ w ∈ g.vars, I w)
    (huncertainties : ∀ v ∈ e.uncertainties.vars, a v = .ok (u v))
    (hdecisions : ∀ v ∈ e.decisions.vars, ∃ g, f v = .ok g)
    (hproducts : ∀ v ∈ e.products.vars, a v.uncertainty = .ok (u v.uncertainty) ∧
      ∃ g, f v.decision = .ok g) :
    ∃ g, e.substituteToConic f a = .ok g ∧ (∀ w ∈ g.vars, I w) ∧
      ∀ (ω : ConicRef → ℝ) (δ : DecisionRef → ℝ),
        (∀ v g, f v = .ok g → g.eval ω = δ v) → g.eval ω = e.eval u δ := by
  obtain ⟨ds, hds⟩ := LinearExpr.exists_substitute_eq_ok hdecisions
  have himage := LinearExpr.substitute_eq_ok hds
  have hfixed := (LinearExpr.value_eq_ok_iff ha).2 ⟨huncertainties, rfl⟩
  have hstart : ∀ w ∈ (ds.addConstant (e.constant + e.uncertainties.eval u)).vars, I w := by
    intro w hw
    rw [AffineExpr.vars_addConstant] at hw
    obtain ⟨v, -, g, hg, hw⟩ := himage.vars w hw
    exact hf v g hg w hw
  obtain ⟨g, hg, hvars, heval⟩ := foldlM_toConic_eq_ok hf
    (fun t ht => hproducts _ (List.mem_map_of_mem ht)) hstart
  refine ⟨g, ?_, hvars, fun ω δ hδ => ?_⟩
  · exact bind_eq_ok_iff.2 ⟨ds, hds, bind_eq_ok_iff.2 ⟨_, hfixed, hg⟩⟩
  · have hsum : (e.products.terms.map fun t =>
        t.scale * (u t.var.uncertainty * δ t.var.decision)).sum =
          e.products.eval fun p => u p.uncertainty * δ p.decision := rfl
    rw [heval ω δ hδ, hsum, AffineExpr.eval_addConstant, himage.eval ω δ hδ, UncertainExpr.eval]
    ring

end UncertainExpr

end AdjustableRobust
