import AdjustableRobust.Proofs.Expression.Uncertain

/-!
# Evaluation after substitution

Substituting and then evaluating is evaluating where every variable has the value of its image.
Evaluation may refuse a variable, and the order of the terms is kept, so both evaluations also
refuse the same variable first. Only an uncertain expression may evaluate more often after
substitution than before: a product whose uncertainty becomes zero loses its decision.
-/

namespace AdjustableRobust

variable {V W : Type}

namespace Assignment

/-- Every variable has the value of its image. -/
noncomputable def through (a : Assignment ℝ W) (f : V → Except (ModelError ℝ) (AffineExpr ℝ W)) :
    Assignment ℝ V := fun v => do (← f v).value a

/-- Every variable has the value of its new name. -/
def renamed (a : Assignment ℝ W) (h : V → Except (ModelError ℝ) W) : Assignment ℝ V :=
  fun v => do a (← h v)

end Assignment

/-! ## Sums and multiples -/

namespace LinearExpr

private theorem foldlM_value_start (a : Assignment ℝ V) (ts : List (Term ℝ V)) (s : ℝ) :
    ts.foldlM (fun total t => return total + (← t.value a)) s =
      (do return s + (← (⟨ts⟩ : LinearExpr ℝ V).value a) : Except (ModelError ℝ) ℝ) := by
  induction ts generalizing s with
  | nil => simp [value]
  | cons t ts ih =>
    simp only [value, List.foldlM_cons, bind_assoc, pure_bind] at ih ⊢
    refine bind_congr fun x => ?_
    rw [ih (s + x), ih (0 + x)]
    simp only [bind_assoc, pure_bind, zero_add, add_assoc]

/-- The empty sum is zero. -/
theorem value_nil (a : Assignment ℝ V) : (⟨[]⟩ : LinearExpr ℝ V).value a = pure 0 := rfl

/-- The first term is evaluated first. -/
theorem value_cons (t : Term ℝ V) (ts : List (Term ℝ V)) (a : Assignment ℝ V) :
    (⟨t :: ts⟩ : LinearExpr ℝ V).value a =
      (do return (← t.value a) + (← (⟨ts⟩ : LinearExpr ℝ V).value a)) := by
  rw [value]
  simp only [List.foldlM_cons, bind_assoc, pure_bind]
  refine bind_congr fun x => ?_
  rw [foldlM_value_start, zero_add]

/-- A fold whose steps add the values of terms adds the value of the expression. -/
theorem value_of_foldlM {β : Type} {step : β → Term ℝ V → Except (ModelError ℝ) β}
    {valueOf : β → Except (ModelError ℝ) ℝ} {a : Assignment ℝ V} {ts : List (Term ℝ V)} {b c : β}
    (hstep : ∀ t ∈ ts, ∀ b c, step b t = .ok c →
      valueOf c = (do return (← valueOf b) + (← t.value a))) (hrun : ts.foldlM step b = .ok c) :
    valueOf c = (do return (← valueOf b) + (← (⟨ts⟩ : LinearExpr ℝ V).value a)) := by
  induction ts generalizing b with
  | nil =>
    rw [List.foldlM_nil, pure_eq_ok_iff] at hrun
    subst hrun
    simp only [value_nil, pure_bind, add_zero, bind_pure]
  | cons t ts ih =>
    obtain ⟨hfirst, hrest⟩ := List.forall_mem_cons.1 hstep
    rw [List.foldlM_cons, bind_eq_ok_iff] at hrun
    obtain ⟨b', hb', hrun⟩ := hrun
    rw [ih hrest hrun, hfirst b b' hb', value_cons]
    simp only [bind_assoc, pure_bind, add_assoc]

/-- The summands are evaluated one after the other. -/
theorem value_add (e f : LinearExpr ℝ V) (a : Assignment ℝ V) :
    (e.add f).value a = (do return (← e.value a) + (← f.value a)) := by
  obtain ⟨ts⟩ := e
  induction ts with
  | nil => simp only [add, List.nil_append, value_nil, pure_bind, zero_add, bind_pure]
  | cons t ts ih =>
    simp only [add, List.cons_append, value_cons] at ih ⊢
    rw [ih]
    simp only [bind_assoc, pure_bind, add_assoc]

/-- An appended term is evaluated last. -/
theorem value_addTerm (e : LinearExpr ℝ V) (c : ℝ) (v : V) (a : Assignment ℝ V) :
    (e.addTerm c v).value a = (do return (← e.value a) + c * (← a v)) := by
  have hterm : (term c v).value a = (do return c * (← a v)) := by
    rw [term, value_cons, Term.value]
    simp only [value_nil, bind_assoc, pure_bind, add_zero]
  have hsum : e.addTerm c v = e.add (term c v) := rfl
  rw [hsum, value_add, hterm]
  simp only [bind_assoc, pure_bind]

/-- A multiple has a multiple of the value. -/
theorem value_scale (e : LinearExpr ℝ V) (c : ℝ) (a : Assignment ℝ V) :
    (e.scale c).value a = (do return (← e.value a) * c) := by
  obtain ⟨ts⟩ := e
  induction ts with
  | nil => simp [scale, value_nil]
  | cons t ts ih =>
    simp only [scale, List.map_cons, value_cons, Term.value] at ih ⊢
    rw [ih]
    simp only [bind_assoc, pure_bind, add_mul, mul_right_comm]

/-- A variable that occurs has a value where the expression does. -/
theorem exists_of_value_eq_ok {e : LinearExpr ℝ V} {a : Assignment ℝ V} {x : ℝ}
    (hvalue : e.value a = .ok x) : ∀ v ∈ e.vars, ∃ y, a v = .ok y := by
  have hwithin : a.Within fun v => (a v).toOption.getD 0 := by
    intro v y hv
    simp [hv, Except.toOption]
  exact fun v hv => ⟨_, ((value_eq_ok_iff hwithin).1 hvalue).1 v hv⟩

end LinearExpr

namespace AffineExpr

/-- The zero expression is zero. -/
theorem value_zero (a : Assignment ℝ V) : (zero : AffineExpr ℝ V).value a = pure 0 := by
  simp only [zero, value, LinearExpr.zero, LinearExpr.value_nil, pure_bind, add_zero]

/-- The summands are evaluated one after the other. -/
theorem value_add (e f : AffineExpr ℝ V) (a : Assignment ℝ V) :
    (e.add f).value a = (do return (← e.value a) + (← f.value a)) := by
  simp only [add, value, LinearExpr.value_add, bind_assoc, pure_bind, add_add_add_comm]

/-- A multiple has a multiple of the value. -/
theorem value_scale (e : AffineExpr ℝ V) (c : ℝ) (a : Assignment ℝ V) :
    (e.scale c).value a = (do return (← e.value a) * c) := by
  simp only [scale, value, LinearExpr.value_scale, bind_assoc, pure_bind, add_mul]

/-- A constant is added to the value. -/
theorem value_addConstant (e : AffineExpr ℝ V) (c : ℝ) (a : Assignment ℝ V) :
    (e.addConstant c).value a = (do return (← e.value a) + c) := by
  simp only [addConstant, value, bind_assoc, pure_bind, add_right_comm]

end AffineExpr

/-! ## Substitution -/

section Substitution

variable {f : V → Except (ModelError ℝ) (AffineExpr ℝ W)}

private theorem addImage_value {t : Term ℝ V} {b c : AffineExpr ℝ W}
    (hstep : (do return b.add ((← f t.var).scale t.scale)) = (.ok c : Except (ModelError ℝ) _))
    (a : Assignment ℝ W) : c.value a = (do return (← b.value a) + (← t.value (a.through f))) := by
  simp only [bind_eq_ok_iff, pure_eq_ok_iff] at hstep
  obtain ⟨i, hi, rfl⟩ := hstep
  have hterm : t.value (a.through f) = (do return t.scale * (← i.value a)) := by
    rw [Term.value, Assignment.through, hi]
    rfl
  rw [AffineExpr.value_add, AffineExpr.value_scale, hterm]
  simp only [bind_assoc, pure_bind, mul_comm t.scale]

/-- The image of a linear expression has its value at the values of the images. -/
theorem LinearExpr.value_of_substitute {e : LinearExpr ℝ V} {g : AffineExpr ℝ W}
    (hrun : e.substitute f = .ok g) (a : Assignment ℝ W) : g.value a = e.value (a.through f) := by
  rw [value_of_foldlM (fun _ _ _ _ hstep => addImage_value hstep a) hrun, AffineExpr.value_zero]
  simp only [pure_bind, zero_add, bind_pure]

/-- The image of an affine expression has its value at the values of the images. -/
theorem AffineExpr.value_of_substitute {e : AffineExpr ℝ V} {g : AffineExpr ℝ W}
    (hrun : e.substitute f = .ok g) (a : Assignment ℝ W) : g.value a = e.value (a.through f) := by
  simp only [substitute, bind_eq_ok_iff, pure_eq_ok_iff] at hrun
  obtain ⟨l, hl, rfl⟩ := hrun
  rw [value_addConstant, LinearExpr.value_of_substitute hl, value]
  simp only [add_comm]

private theorem mapM_value_of_substitute {es : List (AffineExpr ℝ V)} {gs : List (AffineExpr ℝ W)}
    (hrun : es.mapM (·.substitute f) = .ok gs) (a : Assignment ℝ W) :
    gs.mapM (·.value a) = es.mapM (·.value (a.through f)) := by
  rw [mapM_eq_ok_iff] at hrun
  induction hrun with
  | nil => rfl
  | cons hrow _ ih => rw [List.mapM_cons, List.mapM_cons, AffineExpr.value_of_substitute hrow, ih]

/-- The image of the norm of a vector has its value at the values of the images. -/
theorem NormedVector.value_of_substitute {n : NormedVector ℝ V} {g : NormedVector ℝ W}
    (hrun : n.substitute f = .ok g) (a : Assignment ℝ W) : g.value a = n.value (a.through f) := by
  simp only [substitute, bind_eq_ok_iff, pure_eq_ok_iff] at hrun
  obtain ⟨rows, hrows, rfl⟩ := hrun
  rw [value, value, mapM_value_of_substitute hrows]

/-- The image of a conic expression has its value at the values of the images. -/
theorem ConicExpr.value_of_substitute {e : ConicExpr ℝ V} {g : ConicExpr ℝ W}
    (hrun : e.substitute f = .ok g) (a : Assignment ℝ W) : g.value a = e.value (a.through f) := by
  obtain ⟨normed?, affine⟩ := e
  simp only [substitute, bind_eq_ok_iff, pure_eq_ok_iff] at hrun
  obtain ⟨n?, hn, b, hb, rfl⟩ := hrun
  have haffine := AffineExpr.value_of_substitute hb a
  cases normed? with
  | none =>
    rw [Option.mapM_none, pure_eq_ok_iff] at hn
    subst hn
    simp only [value, haffine]
  | some n =>
    obtain ⟨m, hm, hn⟩ := bind_eq_ok_iff.1 (hn : (do return some (← n.substitute f)) = .ok n?)
    rw [pure_eq_ok_iff] at hn
    subst hn
    simp only [value, haffine, NormedVector.value_of_substitute hm a]

end Substitution

/-! ## Renaming -/

section Renaming

variable {h : V → Except (ModelError ℝ) W}

/-- Images that are single variables. -/
noncomputable def singles (h : V → Except (ModelError ℝ) W) :
    V → Except (ModelError ℝ) (AffineExpr ℝ W) := fun v => return .var (← h v)

/-- The value of a single variable as an image is the value of the new name. -/
theorem Assignment.through_singles (a : Assignment ℝ W) : a.through (singles h) = a.renamed h := by
  funext v
  simp only [through, singles, renamed, bind_assoc, pure_bind, AffineExpr.value_var]

private theorem LinearExpr.rename_cons (t : Term ℝ V) (ts : List (Term ℝ V)) :
    (⟨t :: ts⟩ : LinearExpr ℝ V).rename h = (do
      let w ← h t.var
      return ⟨⟨t.scale, w⟩ :: (← (⟨ts⟩ : LinearExpr ℝ V).rename h).terms⟩) := by
  simp only [rename, List.mapM_cons, bind_assoc, pure_bind]

private theorem foldlM_singles (ts : List (Term ℝ V)) (start : AffineExpr ℝ W) :
    ts.foldlM (fun result t => return result.add ((← singles h t.var).scale t.scale)) start =
      (do return start.addLinear (← (⟨ts⟩ : LinearExpr ℝ V).rename h) :
        Except (ModelError ℝ) (AffineExpr ℝ W)) := by
  induction ts generalizing start with
  | nil => simp [LinearExpr.rename, AffineExpr.addLinear, LinearExpr.add]
  | cons t ts ih =>
    simp only [List.foldlM_cons, LinearExpr.rename_cons, singles, bind_assoc, pure_bind] at ih ⊢
    refine bind_congr fun w => ?_
    rw [ih]
    simp [AffineExpr.addLinear, AffineExpr.add, AffineExpr.scale, AffineExpr.var, LinearExpr.add,
      LinearExpr.scale, LinearExpr.var, LinearExpr.term]

/-- Renaming a linear expression substitutes single variables, without a constant. -/
theorem LinearExpr.substitute_singles (e : LinearExpr ℝ V) :
    e.substitute (singles h) = (do return ⟨0, ← e.rename h⟩) := by
  rw [substitute, foldlM_singles]
  rfl

/-- Renaming an affine expression substitutes single variables. -/
theorem AffineExpr.substitute_singles (e : AffineExpr ℝ V) :
    e.substitute (singles h) = e.rename h := by
  simp only [substitute, rename, LinearExpr.substitute_singles, bind_assoc, pure_bind, addConstant,
    zero_add]

/-- Renaming the norm of a vector substitutes single variables. -/
theorem NormedVector.substitute_singles (n : NormedVector ℝ V) :
    n.substitute (singles h) = n.rename h := by
  simp only [substitute, rename, AffineExpr.substitute_singles]

/-- Renaming a conic expression substitutes single variables. -/
theorem ConicExpr.substitute_singles (e : ConicExpr ℝ V) :
    e.substitute (singles h) = e.rename h := by
  simp only [substitute, rename, AffineExpr.substitute_singles, NormedVector.substitute_singles]

/-- A renamed linear expression has its value at the values of the new names. -/
theorem LinearExpr.value_of_rename {e : LinearExpr ℝ V} {g : LinearExpr ℝ W}
    (hrun : e.rename h = .ok g) (a : Assignment ℝ W) : g.value a = e.value (a.renamed h) := by
  have hsubstitute : e.substitute (singles h) = .ok ⟨0, g⟩ := by
    rw [substitute_singles, hrun]
    rfl
  rw [← Assignment.through_singles, ← value_of_substitute hsubstitute, AffineExpr.value]
  simp only [zero_add, bind_pure]

/-- A renamed affine expression has its value at the values of the new names. -/
theorem AffineExpr.value_of_rename {e : AffineExpr ℝ V} {g : AffineExpr ℝ W}
    (hrun : e.rename h = .ok g) (a : Assignment ℝ W) : g.value a = e.value (a.renamed h) := by
  rw [← substitute_singles] at hrun
  rw [value_of_substitute hrun, Assignment.through_singles]

/-- The renamed norm of a vector has its value at the values of the new names. -/
theorem NormedVector.value_of_rename {n : NormedVector ℝ V} {g : NormedVector ℝ W}
    (hrun : n.rename h = .ok g) (a : Assignment ℝ W) : g.value a = n.value (a.renamed h) := by
  rw [← substitute_singles] at hrun
  rw [value_of_substitute hrun, Assignment.through_singles]

/-- A renamed conic expression has its value at the values of the new names. -/
theorem ConicExpr.value_of_rename {e : ConicExpr ℝ V} {g : ConicExpr ℝ W}
    (hrun : e.rename h = .ok g) (a : Assignment ℝ W) : g.value a = e.value (a.renamed h) := by
  rw [← substitute_singles] at hrun
  rw [value_of_substitute hrun, Assignment.through_singles]

end Renaming

/-! ## Uncertain expressions -/

namespace UncertainExpr

section Products

variable {u : Assignment ℝ UncertaintyRef} {d : Assignment ℝ DecisionRef} {δ : DecisionRef} {z : ℝ}

private theorem value_addDecision (hz : d δ = .ok z) (e : UncertainExpr ℝ) (c : ℝ) :
    (e.addDecision c δ).value u d = (do return (← e.value u d) + c * z) := by
  have hd : d δ = pure z := hz
  simp only [addDecision, value, LinearExpr.value_addTerm, hd, bind_assoc, pure_bind]
  simp only [add_right_comm _ _ (c * z), ← add_assoc]

private theorem value_addProduct (hz : d δ = .ok z) (e : UncertainExpr ℝ) (c : ℝ)
    (v : UncertaintyRef) :
    (e.addProduct c v δ).value u d = (do return (← e.value u d) + c * (← u v) * z) := by
  have hd : d δ = pure z := hz
  simp only [addProduct, value, LinearExpr.value_addTerm, Product.assignment, hd, bind_assoc,
    pure_bind, ← add_assoc, ← mul_assoc]

private theorem value_foldl_addProduct (hz : d δ = .ok z) (c : ℝ)
    (ts : List (Term ℝ UncertaintyRef)) (e : UncertainExpr ℝ) :
    (ts.foldl (fun e t => e.addProduct (c * t.scale) t.var δ) e).value u d =
      (do return (← e.value u d) + c * (← (⟨ts⟩ : LinearExpr ℝ UncertaintyRef).value u) * z) := by
  induction ts generalizing e with
  | nil => simp only [List.foldl_nil, LinearExpr.value_nil, pure_bind, mul_zero, zero_mul, add_zero,
      bind_pure]
  | cons t ts ih =>
    rw [List.foldl_cons, ih, value_addProduct hz, LinearExpr.value_cons]
    simp only [Term.value, bind_assoc, pure_bind, add_assoc, mul_add, add_mul, mul_assoc]

private theorem value_expandProduct (hz : d δ = .ok z) (c : ℝ) (i : AffineExpr ℝ UncertaintyRef)
    (e : UncertainExpr ℝ) :
    (expandProduct c δ i e).value u d = (do return (← e.value u d) + c * ((← i.value u) * z)) := by
  have hconstant : (if i.constant == 0 then e else e.addDecision (c * i.constant) δ).value u d =
      (do return (← e.value u d) + c * i.constant * z) := by
    by_cases hi : i.constant = 0
    · simp [hi]
    · rw [if_neg (by simpa using hi), value_addDecision hz]
  rw [expandProduct, value_foldl_addProduct hz, hconstant, AffineExpr.value]
  simp only [bind_assoc, pure_bind, add_assoc, mul_add, add_mul, mul_assoc]

end Products

section Substitution

variable {e g : UncertainExpr ℝ} {ds : DecisionRef → Except (ModelError ℝ) DecisionRef}
variable {us : UncertaintyRef → Except (ModelError ℝ) (AffineExpr ℝ UncertaintyRef)}
variable {u : Assignment ℝ UncertaintyRef} {d : Assignment ℝ DecisionRef}

private theorem addExpanded_value {t : Term ℝ Product} {b c : UncertainExpr ℝ}
    (hstep : (do
      let δ ← ds t.var.decision
      let image ← us t.var.uncertainty
      return expandProduct t.scale δ image b) = .ok c)
    (ht : ∀ δ, ds t.var.decision = .ok δ → ∃ z, d δ = .ok z) :
    c.value u d = (do
      return (← b.value u d) + (← t.value (Product.assignment (u.through us) (d.renamed ds)))) := by
  simp only [bind_eq_ok_iff, pure_eq_ok_iff] at hstep
  obtain ⟨δ, hδ, i, hi, rfl⟩ := hstep
  obtain ⟨z, hz⟩ := ht δ hδ
  have hterm : t.value (Product.assignment (u.through us) (d.renamed ds)) =
      (do return t.scale * ((← i.value u) * z)) := by
    have hd : d.renamed ds t.var.decision = pure z := by
      rw [Assignment.renamed, hδ]
      exact hz
    have hu : u.through us t.var.uncertainty = i.value u := by
      rw [Assignment.through, hi]
      rfl
    simp only [Term.value, Product.assignment, hd, hu, bind_assoc, pure_bind]
  rw [value_expandProduct hz, hterm]
  simp only [bind_assoc, pure_bind]

/-- The image of an uncertain expression has its value at the values of the images, where the
decisions that products get have values. -/
theorem value_of_substitute (hrun : e.substitute ds us = .ok g)
    (hproducts : ∀ p ∈ e.products.vars, ∀ δ, ds p.decision = .ok δ → ∃ z, d δ = .ok z) :
    g.value u d = e.value (u.through us) (d.renamed ds) := by
  simp only [substitute, bind_eq_ok_iff] at hrun
  obtain ⟨l, hl, i, hi, hfold⟩ := hrun
  rw [LinearExpr.value_of_foldlM (fun t ht _ _ hstep => addExpanded_value hstep
      (hproducts t.var (List.mem_map_of_mem ht))) hfold, value, value,
    LinearExpr.value_of_rename hl, ← LinearExpr.value_of_substitute hi, AffineExpr.value]
  simp only [LinearExpr.zero, LinearExpr.value_nil, bind_assoc, pure_bind, add_zero]
  refine bind_congr fun x => bind_congr fun y => bind_congr fun z => congrArg pure ?_
  ring

/-- Where an expression has a value at the values of the images, its image has it. -/
theorem value_of_substitute_of_value (hrun : e.substitute ds us = .ok g) {x : ℝ}
    (hvalue : e.value (u.through us) (d.renamed ds) = .ok x) : g.value u d = .ok x := by
  rw [value_of_substitute hrun, hvalue]
  intro p hp δ hδ
  simp only [value, bind_eq_ok_iff] at hvalue
  obtain ⟨-, -, -, -, y, hy, -⟩ := hvalue
  obtain ⟨z, hz⟩ := LinearExpr.exists_of_value_eq_ok hy p hp
  simp only [Product.assignment, bind_eq_ok_iff] at hz
  obtain ⟨-, -, z, hz, -⟩ := hz
  rw [Assignment.renamed, hδ] at hz
  exact ⟨z, hz⟩

end Substitution

section Conic

variable {e : UncertainExpr ℝ} {ds : DecisionRef → Except (ModelError ℝ) (AffineExpr ℝ ConicRef)}
variable {r : Assignment ℝ UncertaintyRef}

private theorem addFixed_value {t : Term ℝ Product} {b c : AffineExpr ℝ ConicRef}
    (hstep : (do
      let factor := t.scale * (← r t.var.uncertainty)
      return b.add ((← ds t.var.decision).scale factor)) = .ok c)
    (a : Assignment ℝ ConicRef) :
    c.value a = (do
      return (← b.value a) + (← t.value (Product.assignment r (a.through ds)))) := by
  simp only [bind_eq_ok_iff, pure_eq_ok_iff] at hstep
  obtain ⟨x, hx, i, hi, rfl⟩ := hstep
  have hterm : t.value (Product.assignment r (a.through ds)) =
      (do return t.scale * (x * (← i.value a))) := by
    have hr : r t.var.uncertainty = pure x := hx
    have hd : a.through ds t.var.decision = i.value a := by
      rw [Assignment.through, hi]
      rfl
    simp only [Term.value, Product.assignment, hr, hd, bind_assoc, pure_bind]
  rw [AffineExpr.value_add, AffineExpr.value_scale, hterm]
  simp only [bind_assoc, pure_bind, mul_comm _ (t.scale * x), mul_assoc]

/-- With the uncertainties fixed, the image of an uncertain expression has its value at the values
of the images. -/
theorem value_of_substituteToConic {g : AffineExpr ℝ ConicRef}
    (hrun : e.substituteToConic ds r = .ok g) (a : Assignment ℝ ConicRef) :
    g.value a = e.value r (a.through ds) := by
  simp only [substituteToConic, bind_eq_ok_iff] at hrun
  obtain ⟨l, hl, y, hy, hfold⟩ := hrun
  have hfixed : e.uncertainties.value r = pure y := hy
  rw [LinearExpr.value_of_foldlM (fun _ _ _ _ hstep => addFixed_value hstep a) hfold,
    AffineExpr.value_addConstant, LinearExpr.value_of_substitute hl, value, hfixed]
  simp only [bind_assoc, pure_bind]
  refine bind_congr fun x => bind_congr fun z => congrArg pure ?_
  ring

end Conic

end UncertainExpr

/-! ## Expressions of all kinds -/

/-- What substituting affine expressions for variables yields has, at every assignment, the value of
the expression at the values of the images. -/
structure EvaluatesThrough (f : V → Except (ModelError ℝ) (AffineExpr ℝ W)) : Prop where
  linear : ∀ (e : LinearExpr ℝ V) g, e.substitute f = .ok g →
    ∀ a, g.value a = e.value (a.through f)
  affine : ∀ (e : AffineExpr ℝ V) g, e.substitute f = .ok g →
    ∀ a, g.value a = e.value (a.through f)
  normed : ∀ (n : NormedVector ℝ V) g, n.substitute f = .ok g →
    ∀ a, g.value a = n.value (a.through f)
  conic : ∀ (e : ConicExpr ℝ V) g, e.substitute f = .ok g →
    ∀ a, g.value a = e.value (a.through f)

/-- Renaming variables is substituting single variables for them, so the result has the value of
the expression at the values of the new names. -/
structure RenamesAsSingles (h : V → Except (ModelError ℝ) W) : Prop where
  linear : ∀ e : LinearExpr ℝ V, e.substitute (singles h) = (do return ⟨0, ← e.rename h⟩) ∧
    ∀ g, e.rename h = .ok g → ∀ a, g.value a = e.value (a.renamed h)
  affine : ∀ e : AffineExpr ℝ V, e.substitute (singles h) = e.rename h ∧
    ∀ g, e.rename h = .ok g → ∀ a, g.value a = e.value (a.renamed h)
  normed : ∀ n : NormedVector ℝ V, n.substitute (singles h) = n.rename h ∧
    ∀ g, n.rename h = .ok g → ∀ a, g.value a = n.value (a.renamed h)
  conic : ∀ e : ConicExpr ℝ V, e.substitute (singles h) = e.rename h ∧
    ∀ g, e.rename h = .ok g → ∀ a, g.value a = e.value (a.renamed h)

/-- What substituting decisions for decisions and affine expressions for uncertainties yields has
the mode of the expression, and its value at the values of the images. -/
structure UncertainExpr.EvaluatesThrough (ds : DecisionRef → Except (ModelError ℝ) DecisionRef)
    (us : UncertaintyRef → Except (ModelError ℝ) (AffineExpr ℝ UncertaintyRef)) : Prop where
  mode : ∀ e g, substitute e ds us = .ok g → g.mode = e.mode
  /-- The evaluations agree where no decision is refused that a product gets. -/
  value : ∀ e g, substitute e ds us = .ok g → ∀ u d,
    (∀ p ∈ e.products.vars, ∀ δ, ds p.decision = .ok δ → ∃ z, d δ = .ok z) →
      g.value u d = e.value (u.through us) (d.renamed ds)
  /-- A value that the expression has at the values of the images is that of the result. -/
  keeps : ∀ e g, substitute e ds us = .ok g → ∀ u d x,
    e.value (u.through us) (d.renamed ds) = .ok x → g.value u d = .ok x

/-- Expressions of every kind evaluate, after substitution, as they do at the values of the images
of their variables. Renaming is the special case of single variables, products of an uncertainty and
a decision are expanded, and uncertainties may also be fixed while decisions are replaced. -/
theorem evaluation_after_substitution :
    (∀ f : V → Except (ModelError ℝ) (AffineExpr ℝ W), EvaluatesThrough f) ∧
    (∀ h : V → Except (ModelError ℝ) W, RenamesAsSingles h) ∧
    (∀ ds us, UncertainExpr.EvaluatesThrough ds us) ∧
    ∀ (e : UncertainExpr ℝ) ds r g, e.substituteToConic ds r = .ok g →
      ∀ a, g.value a = e.value r (a.through ds) := by
  refine ⟨fun f => ?_, fun h => ?_, fun ds us => ?_, fun e ds r g hrun =>
    UncertainExpr.value_of_substituteToConic hrun⟩
  · exact {
      linear := fun _ _ hrun => LinearExpr.value_of_substitute hrun
      affine := fun _ _ hrun => AffineExpr.value_of_substitute hrun
      normed := fun _ _ hrun => NormedVector.value_of_substitute hrun
      conic := fun _ _ hrun => ConicExpr.value_of_substitute hrun }
  · exact {
      linear := fun e => ⟨e.substitute_singles, fun _ hrun => LinearExpr.value_of_rename hrun⟩
      affine := fun e => ⟨e.substitute_singles, fun _ hrun => AffineExpr.value_of_rename hrun⟩
      normed := fun n => ⟨n.substitute_singles, fun _ hrun => NormedVector.value_of_rename hrun⟩
      conic := fun e => ⟨e.substitute_singles, fun _ hrun => ConicExpr.value_of_rename hrun⟩ }
  · exact {
      mode := fun _ _ hrun => (UncertainExpr.substitute_eq_ok hrun).mode
      value := fun _ _ hrun _ _ hproducts => UncertainExpr.value_of_substitute hrun hproducts
      keeps := fun _ _ hrun _ _ _ => UncertainExpr.value_of_substitute_of_value hrun }

/-- `|1 - v₀ + v₁| + v₀`. -/
def bent : ConicExpr ℝ ℕ :=
  ⟨some ⟨.one, [⟨1, ⟨[⟨-1, 0⟩, ⟨1, 1⟩]⟩⟩]⟩, ⟨0, ⟨[⟨1, 0⟩]⟩⟩⟩

/-- `u + u x`, averaged. -/
noncomputable def mixed : UncertainExpr ℝ :=
  ⟨0, .zero, .var ⟨⟨0⟩, 0, 0⟩, .var ⟨⟨⟨0⟩, 0, 0⟩, ⟨⟨0⟩, 0, 0⟩⟩, .average⟩

/-- A norm is evaluated at shifted and at renamed variables. A product is expanded where its
uncertainty becomes a sum, and is scaled where it is fixed. -/
theorem evaluation_after_substitution_bent :
    (∃ g, bent.substitute (fun v => .ok ⟨3, .var v⟩) = .ok g ∧
      g.value (.total fun v : ℕ => (v : ℝ)) = .ok 5) ∧
    (∃ g, bent.rename (fun v => .ok (v + 1)) = .ok g ∧
      g.value (.total fun v : ℕ => (v : ℝ)) = .ok 3) ∧
    (∃ g, mixed.substitute .ok
        (fun _ => .ok ⟨-1, ⟨[⟨1, ⟨⟨0⟩, 0, 1⟩⟩, ⟨1, ⟨⟨0⟩, 0, 2⟩⟩]⟩⟩) = .ok g ∧
      g.mode = .average ∧ g.value (.total fun _ => 1 / 4) (.total fun _ => 3) = .ok (-2)) ∧
    ∃ g, mixed.substituteToConic (fun _ => .ok ⟨1, .term 2 ⟨⟨0⟩, 0, 0⟩⟩) (.total fun _ => 2) =
        .ok g ∧
      g.value (.total fun _ => 3) = .ok 16 := by
  obtain ⟨hsubstitute, hrename, huncertain, hconic⟩ :=
    evaluation_after_substitution (V := ℕ) (W := ℕ)
  refine ⟨?_, ?_, ?_, ?_⟩
  · obtain ⟨g, hg⟩ : ∃ g, bent.substitute (fun v => .ok ⟨3, .var v⟩) = .ok g := ⟨_, rfl⟩
    refine ⟨g, hg, ?_⟩
    rw [(hsubstitute _).conic _ _ hg]
    simp [bent, ConicExpr.value, NormedVector.value, AffineExpr.value, LinearExpr.value, Term.value,
      Assignment.through, LinearExpr.var, LinearExpr.term, Assignment.total, NormKind.apply_one,
      Bind.bind, Except.bind, pure, Except.pure]
    norm_num
  · obtain ⟨g, hg⟩ : ∃ g, bent.rename (fun v => .ok (v + 1)) = .ok g := ⟨_, rfl⟩
    refine ⟨g, hg, ?_⟩
    rw [((hrename _).conic _).2 _ hg]
    simp [bent, ConicExpr.value, NormedVector.value, AffineExpr.value, LinearExpr.value, Term.value,
      Assignment.renamed, Assignment.total, NormKind.apply_one, Bind.bind, Except.bind, pure,
      Except.pure]
    norm_num
  · obtain ⟨g, hg⟩ : ∃ g, mixed.substitute .ok
        (fun _ => .ok ⟨-1, ⟨[⟨1, ⟨⟨0⟩, 0, 1⟩⟩, ⟨1, ⟨⟨0⟩, 0, 2⟩⟩]⟩⟩) = .ok g := ⟨_, rfl⟩
    refine ⟨g, hg, (huncertain _ _).mode _ _ hg, (huncertain _ _).keeps _ _ hg _ _ _ ?_⟩
    simp [mixed, UncertainExpr.value, Product.assignment, AffineExpr.value, LinearExpr.value,
      Term.value, LinearExpr.zero, LinearExpr.var, LinearExpr.term, Assignment.renamed,
      Assignment.through, Assignment.total, Bind.bind, Except.bind, pure, Except.pure]
    norm_num
  · obtain ⟨g, hg⟩ : ∃ g, mixed.substituteToConic (fun _ => .ok ⟨1, .term 2 ⟨⟨0⟩, 0, 0⟩⟩)
        (.total fun _ => 2) = .ok g := ⟨_, rfl⟩
    refine ⟨g, hg, ?_⟩
    rw [hconic _ _ _ _ hg]
    simp [mixed, UncertainExpr.value, Product.assignment, AffineExpr.value, LinearExpr.value,
      Term.value, LinearExpr.zero, LinearExpr.var, LinearExpr.term, Assignment.through,
      Assignment.total, Bind.bind, Except.bind, pure, Except.pure]
    norm_num

end AdjustableRobust
