import AdjustableRobust.Expression.Conic
import AdjustableRobust.Expression.Uncertain
import AdjustableRobust.Proofs.Runs
import AdjustableRobust.Proofs.Scalar.Real

/-!
# Values of expressions

Evaluating an expression may fail at a handle that is refused. Here every expression gets a total
value over the reals, given values of all variables, and evaluation is shown to yield exactly that
value whenever none of the variables that occur is refused. What the operations on expressions do
is stated by these total values.
-/

namespace AdjustableRobust

variable {V W : Type}

namespace Assignment

/-- The assignment that refuses no variable. -/
def total (ω : V → ℝ) : Assignment ℝ V := fun v => .ok (ω v)

/-- The values that an assignment gives, where it gives any, are the given ones. -/
def Within (a : Assignment ℝ V) (ω : V → ℝ) : Prop := ∀ v x, a v = .ok x → x = ω v

/-- The total assignment gives the values it is made of. -/
theorem total_within (ω : V → ℝ) : (total ω).Within ω := by
  intro v x h
  exact (Except.ok.inj h).symm

/-- Every assignment gives values of some total one. -/
theorem exists_within (a : Assignment ℝ V) : ∃ ω, a.Within ω := by
  have hvalue : ∀ v, ∃ x, ∀ y, a v = .ok y → y = x := by
    intro v
    cases hv : a v with
    | error e => exact ⟨0, fun y hy => by cases hy⟩
    | ok x => exact ⟨x, fun y hy => (Except.ok.inj hy).symm⟩
  choose ω hω using hvalue
  exact ⟨ω, hω⟩

end Assignment

/-- Values of handles that are given by position. -/
def bySlot {κ : EntityKind} (u : ℕ → ℝ) (h : Handle κ) : ℝ := u h.slot

/-- The entries of a list by position, zero beyond its end. -/
def entryAt (r : List ℝ) (i : ℕ) : ℝ := r.getD i 0

/-- A table has what is at the position of the handle. -/
theorem Handle.lookup_eq_ok_iff {κ : EntityKind} {β : Type} {h : Handle κ} {table : List β}
    {x : β} : h.lookup table = .ok x ↔ table[h.slot]? = some x := by
  unfold lookup
  cases table[h.slot]? <;> simp

/-- A list of values gives a handle the entry at its position. -/
theorem Assignment.ofList_eq_ok_iff {κ : EntityKind} {r : List ℝ} {h : Handle κ} {x : ℝ} :
    Assignment.ofList r h = .ok x ↔ r[h.slot]? = some x := by
  unfold Assignment.ofList
  rw [liftM_eq_ok_iff, Handle.lookup_eq_ok_iff]

/-- A list of values gives entries by position. -/
theorem Assignment.ofList_within {κ : EntityKind} (r : List ℝ) :
    (Assignment.ofList r : Assignment ℝ (Handle κ)).Within (bySlot (entryAt r)) := by
  intro h x hx
  rw [ofList_eq_ok_iff] at hx
  simp [bySlot, entryAt, List.getD_eq_getElem?_getD, hx]

/-- A list of values refuses exactly the handles beyond its end. -/
theorem Assignment.ofList_eq_bySlot_iff {κ : EntityKind} {r : List ℝ} {h : Handle κ} :
    Assignment.ofList r h = .ok (bySlot (entryAt r) h) ↔ h.slot < r.length := by
  rw [ofList_eq_ok_iff, bySlot, entryAt, List.getD_eq_getElem?_getD]
  constructor
  · intro hx
    exact (List.getElem?_eq_some_iff.1 hx).1
  · intro hlt
    rw [List.getElem?_eq_getElem hlt, Option.getD_some]

/-! ## Linear expressions -/

namespace LinearExpr

/-- The variables that occur, in order. -/
def vars (e : LinearExpr ℝ V) : List V := e.terms.map (·.var)

/-- Total value. -/
def eval (e : LinearExpr ℝ V) (ω : V → ℝ) : ℝ := (e.terms.map fun t => t.scale * ω t.var).sum

@[simp] theorem eval_zero (ω : V → ℝ) : (zero : LinearExpr ℝ V).eval ω = 0 := rfl

@[simp] theorem eval_term (c : ℝ) (v : V) (ω : V → ℝ) : (term c v).eval ω = c * ω v := by
  simp [term, eval]

@[simp] theorem eval_var (v : V) (ω : V → ℝ) : (var v : LinearExpr ℝ V).eval ω = ω v := by
  simp [var]

@[simp] theorem eval_add (e f : LinearExpr ℝ V) (ω : V → ℝ) :
    (e.add f).eval ω = e.eval ω + f.eval ω := by
  simp [add, eval]

@[simp] theorem eval_addTerm (e : LinearExpr ℝ V) (c : ℝ) (v : V) (ω : V → ℝ) :
    (e.addTerm c v).eval ω = e.eval ω + c * ω v := by
  simp [addTerm, eval]

@[simp] theorem eval_scale (e : LinearExpr ℝ V) (c : ℝ) (ω : V → ℝ) :
    (e.scale c).eval ω = e.eval ω * c := by
  simp only [scale, eval, List.map_map, ← List.sum_map_mul_right]
  congr 1
  apply List.map_congr_left
  intro t _
  simp only [Function.comp]
  ring

@[simp] theorem vars_zero : (zero : LinearExpr ℝ V).vars = [] := rfl

@[simp] theorem vars_term (c : ℝ) (v : V) : (term c v).vars = [v] := rfl

@[simp] theorem vars_var (v : V) : (var v : LinearExpr ℝ V).vars = [v] := rfl

@[simp] theorem vars_add (e f : LinearExpr ℝ V) : (e.add f).vars = e.vars ++ f.vars := by
  simp [add, vars]

@[simp] theorem vars_addTerm (e : LinearExpr ℝ V) (c : ℝ) (v : V) :
    (e.addTerm c v).vars = e.vars ++ [v] := by
  simp [addTerm, vars]

@[simp] theorem vars_scale (e : LinearExpr ℝ V) (c : ℝ) : (e.scale c).vars = e.vars := by
  simp [scale, vars]

/-- Only the variables that occur matter. -/
theorem eval_congr {e : LinearExpr ℝ V} {ω ω' : V → ℝ} (h : ∀ v ∈ e.vars, ω v = ω' v) :
    e.eval ω = e.eval ω' := by
  unfold eval
  congr 1
  apply List.map_congr_left
  intro t ht
  rw [h t.var (List.mem_map_of_mem ht)]

section Merging

variable {α : Type} [Scalar α] [DecidableEq V]

/-- The last term is merged last. -/
theorem merged_concat (ts : List (Term α V)) (t : Term α V) :
    merged (ts ++ [t]) = mergeTerm t (merged ts) := by
  rw [merged, List.foldl_append, List.foldl_cons, List.foldl_nil, ← merged]

/-- A merged term brings in its variable at the end, unless it is there. -/
theorem map_var_mergeTerm (t : Term α V) (ms : List (Term α V)) :
    (mergeTerm t ms).map (·.var) =
      if t.var ∈ ms.map (·.var) then ms.map (·.var) else ms.map (·.var) ++ [t.var] := by
  induction ms with
  | nil => rfl
  | cons m ms ih =>
    rw [mergeTerm]
    by_cases hm : m.var = t.var
    · have hmem : t.var ∈ (m :: ms).map (·.var) := hm ▸ List.mem_cons_self
      rw [if_pos hm, if_pos hmem, List.map_cons, List.map_cons]
    · rw [if_neg hm, List.map_cons, ih]
      simp only [List.map_cons, List.mem_cons, Ne.symm hm, false_or]
      split <;> rfl

/-- Merging keeps the variables. -/
theorem mem_map_var_merged {ts : List (Term α V)} {v : V} :
    v ∈ (merged ts).map (·.var) ↔ v ∈ ts.map (·.var) := by
  induction ts using List.reverseRecOn with
  | nil => rfl
  | append_singleton ts t ih =>
    rw [merged_concat, map_var_mergeTerm, List.map_append, List.mem_append, ← ih,
      List.map_singleton, List.mem_singleton]
    split
    · next ht => exact ⟨.inl, fun hv => hv.elim id fun hvt => hvt ▸ ht⟩
    · rw [List.mem_append, List.mem_singleton]

end Merging

private theorem eval_mergeTerm [DecidableEq V] (t : Term ℝ V) (ms : List (Term ℝ V)) (ω : V → ℝ) :
    ((mergeTerm t ms).map fun t => t.scale * ω t.var).sum =
      (ms.map fun t => t.scale * ω t.var).sum + t.scale * ω t.var := by
  induction ms with
  | nil => simp [mergeTerm]
  | cons m ms ih =>
    rw [mergeTerm]
    split
    · next h =>
      simp only [List.map_cons, List.sum_cons, ← h]
      ring
    · simp only [List.map_cons, List.sum_cons, ih]
      ring

private theorem eval_merged [DecidableEq V] (ts : List (Term ℝ V)) (ω : V → ℝ) :
    ((merged ts).map fun t => t.scale * ω t.var).sum =
      (ts.map fun t => t.scale * ω t.var).sum := by
  induction ts using List.reverseRecOn with
  | nil => rfl
  | append_singleton ts t ih =>
    rw [merged_concat, eval_mergeTerm, ih, List.map_append, List.sum_append, List.map_singleton,
      List.sum_singleton]

/-- Merging terms and dropping zeros keeps the value. -/
@[simp] theorem eval_simplify [DecidableEq V] (e : LinearExpr ℝ V) (ω : V → ℝ) :
    e.simplify.eval ω = e.eval ω := by
  unfold eval
  rw [← eval_merged e.terms ω, simplify]
  induction merged e.terms with
  | nil => rfl
  | cons m ms ih =>
    rw [List.filter_cons]
    by_cases hm : m.scale = 0
    · simpa [hm] using ih
    · simpa [hm] using ih

/-- Merging terms brings in no variable. -/
theorem vars_simplify_subset [DecidableEq V] (e : LinearExpr ℝ V) : e.simplify.vars ⊆ e.vars := by
  intro v hv
  apply mem_map_var_merged.1
  obtain ⟨t, ht, rfl⟩ := List.mem_map.1 hv
  exact List.mem_map_of_mem (List.mem_filter.1 ht).1

/-- Merged terms have non-zero coefficients. -/
theorem scale_ne_zero_of_mem_simplify [DecidableEq V] {e : LinearExpr ℝ V} {t : Term ℝ V}
    (ht : t ∈ e.simplify.terms) : t.scale ≠ 0 := by
  have h := (List.mem_filter.1 ht).2
  simpa using h

/-- An expression in which every variable cancels has the value zero. -/
theorem eval_of_isZero [DecidableEq V] {e : LinearExpr ℝ V} (h : e.isZero = true) (ω : V → ℝ) :
    e.eval ω = 0 := by
  have hterms : e.simplify.terms = [] := List.isEmpty_iff.1 h
  rw [← eval_simplify, eval, hterms, List.map_nil, List.sum_nil]

private theorem foldlM_value_eq_ok_iff {a : Assignment ℝ V} {ω : V → ℝ} (h : a.Within ω)
    (ts : List (Term ℝ V)) (s x : ℝ) :
    ts.foldlM (fun total t => return total + (← t.value a)) s = .ok x ↔
      (∀ t ∈ ts, a t.var = .ok (ω t.var)) ∧
        s + (ts.map fun t => t.scale * ω t.var).sum = x := by
  induction ts generalizing s with
  | nil => simp [pure_eq_ok_iff]
  | cons t ts ih =>
    simp only [List.foldlM_cons, bind_eq_ok_iff, pure_eq_ok_iff, Term.value, List.forall_mem_cons,
      List.map_cons, List.sum_cons]
    constructor
    · rintro ⟨_, ⟨_, ⟨y, hy, rfl⟩, rfl⟩, hs⟩
      obtain ⟨hts, hx⟩ := (ih _).1 hs
      obtain rfl := h _ _ hy
      exact ⟨⟨hy, hts⟩, by rw [← hx]; ring⟩
    · rintro ⟨⟨hy, hts⟩, hx⟩
      exact ⟨_, ⟨_, ⟨_, hy, rfl⟩, rfl⟩, (ih _).2 ⟨hts, by rw [← hx]; ring⟩⟩

/-- Evaluation succeeds exactly when no variable that occurs is refused, with the total value. -/
theorem value_eq_ok_iff {e : LinearExpr ℝ V} {a : Assignment ℝ V} {ω : V → ℝ} {x : ℝ}
    (h : a.Within ω) :
    e.value a = .ok x ↔ (∀ v ∈ e.vars, a v = .ok (ω v)) ∧ e.eval ω = x := by
  unfold value
  rw [foldlM_value_eq_ok_iff h]
  simp [vars, eval]

/-- Where no variable is refused, evaluation yields the total value. -/
theorem value_total (e : LinearExpr ℝ V) (ω : V → ℝ) : e.value (.total ω) = .ok (e.eval ω) :=
  (value_eq_ok_iff (Assignment.total_within ω)).2 ⟨fun _ _ => rfl, rfl⟩

/-- Simplifying keeps the value. -/
theorem value_simplify [DecidableEq V] {e : LinearExpr ℝ V} {a : Assignment ℝ V} {x : ℝ}
    (h : e.value a = .ok x) : e.simplify.value a = .ok x := by
  obtain ⟨ω, hω⟩ := a.exists_within
  obtain ⟨hvars, hx⟩ := (value_eq_ok_iff hω).1 h
  exact (value_eq_ok_iff hω).2
    ⟨fun v hv => hvars v (vars_simplify_subset e hv), (eval_simplify e ω).trans hx⟩

end LinearExpr

/-! ## Affine expressions -/

namespace AffineExpr

/-- The variables that occur, in order. -/
def vars (e : AffineExpr ℝ V) : List V := e.linear.vars

/-- Total value. -/
def eval (e : AffineExpr ℝ V) (ω : V → ℝ) : ℝ := e.constant + e.linear.eval ω

@[simp] theorem eval_zero (ω : V → ℝ) : (zero : AffineExpr ℝ V).eval ω = 0 := by
  simp [zero, eval]

@[simp] theorem eval_const (c : ℝ) (ω : V → ℝ) : (const c : AffineExpr ℝ V).eval ω = c := by
  simp [const, eval]

@[simp] theorem eval_var (v : V) (ω : V → ℝ) : (var v : AffineExpr ℝ V).eval ω = ω v := by
  simp [var, eval]

@[simp] theorem eval_term (c : ℝ) (v : V) (ω : V → ℝ) : (term c v).eval ω = c * ω v := by
  simp [term, eval]

@[simp] theorem eval_add (e f : AffineExpr ℝ V) (ω : V → ℝ) :
    (e.add f).eval ω = e.eval ω + f.eval ω := by
  simp only [add, eval, LinearExpr.eval_add]
  ring

@[simp] theorem eval_addTerm (e : AffineExpr ℝ V) (c : ℝ) (v : V) (ω : V → ℝ) :
    (e.addTerm c v).eval ω = e.eval ω + c * ω v := by
  simp only [addTerm, eval, LinearExpr.eval_addTerm]
  ring

@[simp] theorem eval_addConstant (e : AffineExpr ℝ V) (c : ℝ) (ω : V → ℝ) :
    (e.addConstant c).eval ω = e.eval ω + c := by
  simp only [addConstant, eval]
  ring

@[simp] theorem eval_scale (e : AffineExpr ℝ V) (c : ℝ) (ω : V → ℝ) :
    (e.scale c).eval ω = e.eval ω * c := by
  simp only [scale, eval, LinearExpr.eval_scale]
  ring

@[simp] theorem eval_negate (e : AffineExpr ℝ V) (ω : V → ℝ) :
    e.negate.eval ω = -e.eval ω := by
  rw [negate, eval_scale]
  ring

@[simp] theorem eval_sub (e f : AffineExpr ℝ V) (ω : V → ℝ) :
    (e.sub f).eval ω = e.eval ω - f.eval ω := by
  rw [sub, eval_add, eval_negate]
  ring

@[simp] theorem vars_zero : (zero : AffineExpr ℝ V).vars = [] := rfl

@[simp] theorem vars_const (c : ℝ) : (const c : AffineExpr ℝ V).vars = [] := rfl

@[simp] theorem vars_var (v : V) : (var v : AffineExpr ℝ V).vars = [v] := rfl

@[simp] theorem vars_term (c : ℝ) (v : V) : (term c v).vars = [v] := rfl

@[simp] theorem vars_add (e f : AffineExpr ℝ V) : (e.add f).vars = e.vars ++ f.vars := by
  simp [add, vars]

@[simp] theorem vars_addTerm (e : AffineExpr ℝ V) (c : ℝ) (v : V) :
    (e.addTerm c v).vars = e.vars ++ [v] := by
  simp [addTerm, vars]

@[simp] theorem vars_addConstant (e : AffineExpr ℝ V) (c : ℝ) :
    (e.addConstant c).vars = e.vars := rfl

@[simp] theorem vars_scale (e : AffineExpr ℝ V) (c : ℝ) : (e.scale c).vars = e.vars := by
  simp [scale, vars]

@[simp] theorem vars_negate (e : AffineExpr ℝ V) : e.negate.vars = e.vars := by simp [negate]

@[simp] theorem vars_sub (e f : AffineExpr ℝ V) : (e.sub f).vars = e.vars ++ f.vars := by
  simp [sub]

/-- Only the variables that occur matter. -/
theorem eval_congr {e : AffineExpr ℝ V} {ω ω' : V → ℝ} (h : ∀ v ∈ e.vars, ω v = ω' v) :
    e.eval ω = e.eval ω' := by
  rw [eval, eval, LinearExpr.eval_congr h]

/-- Evaluation succeeds exactly when no variable that occurs is refused, with the total value. -/
theorem value_eq_ok_iff {e : AffineExpr ℝ V} {a : Assignment ℝ V} {ω : V → ℝ} {x : ℝ}
    (h : a.Within ω) :
    e.value a = .ok x ↔ (∀ v ∈ e.vars, a v = .ok (ω v)) ∧ e.eval ω = x := by
  simp only [value, bind_eq_ok_iff, LinearExpr.value_eq_ok_iff h, pure_eq_ok_iff, vars, eval]
  constructor
  · rintro ⟨_, ⟨hv, rfl⟩, rfl⟩
    exact ⟨hv, rfl⟩
  · rintro ⟨hv, rfl⟩
    exact ⟨_, ⟨hv, rfl⟩, rfl⟩

/-- Where no variable is refused, evaluation yields the total value. -/
theorem value_total (e : AffineExpr ℝ V) (ω : V → ℝ) : e.value (.total ω) = .ok (e.eval ω) :=
  (value_eq_ok_iff (Assignment.total_within ω)).2 ⟨fun _ _ => rfl, rfl⟩

/-- A single variable has its own value. -/
theorem value_var (v : V) (a : Assignment ℝ V) : (var v : AffineExpr ℝ V).value a = a v := by
  simp only [var, value, LinearExpr.var, LinearExpr.term, LinearExpr.value, Term.value,
    List.foldlM_cons, List.foldlM_nil, bind_assoc, pure_bind, one_mul, zero_add, bind_pure]

end AffineExpr

/-! ## Norms of affine vectors -/

namespace NormedVector

/-- The variables that occur, in order. -/
def vars (n : NormedVector ℝ V) : List V := n.rows.flatMap (·.vars)

/-- Total value. -/
noncomputable def eval (n : NormedVector ℝ V) (ω : V → ℝ) : ℝ :=
  n.norm.apply (n.rows.map (·.eval ω))

@[simp] theorem eval_ofVariables (k : NormKind) (vs : List V) (ω : V → ℝ) :
    (ofVariables k vs : NormedVector ℝ V).eval ω = k.apply (vs.map ω) := by
  simp [ofVariables, eval, Function.comp_def]

@[simp] theorem vars_ofVariables (k : NormKind) (vs : List V) :
    (ofVariables k vs : NormedVector ℝ V).vars = vs := by
  simp [ofVariables, vars, List.flatMap_map]

/-- Only the variables that occur matter. -/
theorem eval_congr {n : NormedVector ℝ V} {ω ω' : V → ℝ} (h : ∀ v ∈ n.vars, ω v = ω' v) :
    n.eval ω = n.eval ω' := by
  unfold eval
  congr 1
  apply List.map_congr_left
  intro row hrow
  apply AffineExpr.eval_congr
  intro v hv
  exact h v (List.mem_flatMap.2 ⟨row, hrow, hv⟩)

private theorem forall₂_value_iff {a : Assignment ℝ V} {ω : V → ℝ} (h : a.Within ω)
    (rows : List (AffineExpr ℝ V)) (xs : List ℝ) :
    List.Forall₂ (fun row x => AffineExpr.value row a = .ok x) rows xs ↔
      (∀ v ∈ rows.flatMap (·.vars), a v = .ok (ω v)) ∧ rows.map (·.eval ω) = xs := by
  induction rows generalizing xs with
  | nil => simp [eq_comm]
  | cons row rows ih =>
    simp only [List.flatMap_cons, List.mem_append, List.map_cons]
    constructor
    · rintro (_ | ⟨hx, hxs⟩)
      obtain ⟨hv, rfl⟩ := (AffineExpr.value_eq_ok_iff h).1 hx
      obtain ⟨hvs, rfl⟩ := (ih _).1 hxs
      exact ⟨fun v hm => hm.elim (hv v) (hvs v), rfl⟩
    · rintro ⟨hv, rfl⟩
      exact .cons ((AffineExpr.value_eq_ok_iff h).2 ⟨fun v hm => hv v (.inl hm), rfl⟩)
        ((ih _).2 ⟨fun v hm => hv v (.inr hm), rfl⟩)

/-- Evaluation succeeds exactly when no variable that occurs is refused, with the total value. -/
theorem value_eq_ok_iff {n : NormedVector ℝ V} {a : Assignment ℝ V} {ω : V → ℝ} {x : ℝ}
    (h : a.Within ω) :
    n.value a = .ok x ↔ (∀ v ∈ n.vars, a v = .ok (ω v)) ∧ n.eval ω = x := by
  simp only [value, bind_eq_ok_iff, mapM_eq_ok_iff, pure_eq_ok_iff, forall₂_value_iff h, vars, eval]
  constructor
  · rintro ⟨_, ⟨hv, rfl⟩, rfl⟩
    exact ⟨hv, rfl⟩
  · rintro ⟨hv, rfl⟩
    exact ⟨_, ⟨hv, rfl⟩, rfl⟩

end NormedVector

/-! ## Conic expressions -/

namespace ConicExpr

/-- The variables that occur, in order. -/
def vars (e : ConicExpr ℝ V) : List V := e.normed?.elim [] (·.vars) ++ e.affine.vars

/-- Total value. -/
noncomputable def eval (e : ConicExpr ℝ V) (ω : V → ℝ) : ℝ :=
  e.normed?.elim 0 (·.eval ω) + e.affine.eval ω

/-- Only the variables that occur matter. -/
theorem eval_congr {e : ConicExpr ℝ V} {ω ω' : V → ℝ} (h : ∀ v ∈ e.vars, ω v = ω' v) :
    e.eval ω = e.eval ω' := by
  obtain ⟨normed?, affine⟩ := e
  have ha : affine.eval ω = affine.eval ω' :=
    AffineExpr.eval_congr fun v hv => h v (List.mem_append_right _ hv)
  cases normed? with
  | none => simp [eval, ha]
  | some n =>
    have hn : n.eval ω = n.eval ω' :=
      NormedVector.eval_congr fun v hv => h v (List.mem_append_left _ hv)
    simp [eval, ha, hn]

/-- Evaluation succeeds exactly when no variable that occurs is refused, with the total value. -/
theorem value_eq_ok_iff {e : ConicExpr ℝ V} {a : Assignment ℝ V} {ω : V → ℝ} {x : ℝ}
    (h : a.Within ω) :
    e.value a = .ok x ↔ (∀ v ∈ e.vars, a v = .ok (ω v)) ∧ e.eval ω = x := by
  obtain ⟨normed?, affine⟩ := e
  cases normed? with
  | none =>
    simp only [value, bind_eq_ok_iff, pure_eq_ok_iff, AffineExpr.value_eq_ok_iff h, vars, eval,
      Option.elim, List.nil_append]
    constructor
    · rintro ⟨_, rfl, _, ⟨hv, rfl⟩, rfl⟩
      exact ⟨hv, rfl⟩
    · rintro ⟨hv, rfl⟩
      exact ⟨_, rfl, _, ⟨hv, rfl⟩, rfl⟩
  | some n =>
    simp only [value, bind_eq_ok_iff, pure_eq_ok_iff, AffineExpr.value_eq_ok_iff h,
      NormedVector.value_eq_ok_iff h, vars, eval, Option.elim, List.mem_append]
    constructor
    · rintro ⟨_, ⟨hn, rfl⟩, _, ⟨hv, rfl⟩, rfl⟩
      exact ⟨fun v hm => hm.elim (hn v) (hv v), rfl⟩
    · rintro ⟨hv, rfl⟩
      exact ⟨_, ⟨fun v hm => hv v (.inl hm), rfl⟩, _, ⟨fun v hm => hv v (.inr hm), rfl⟩, rfl⟩

end ConicExpr

/-! ## Uncertain expressions -/

namespace UncertainExpr

/-- Total value. -/
def eval (e : UncertainExpr ℝ) (u : UncertaintyRef → ℝ) (d : DecisionRef → ℝ) : ℝ :=
  e.constant + e.decisions.eval d + e.uncertainties.eval u
    + e.products.eval fun p => u p.uncertainty * d p.decision

@[simp] theorem eval_negate (e : UncertainExpr ℝ) (u : UncertaintyRef → ℝ) (d : DecisionRef → ℝ) :
    e.negate.eval u d = -e.eval u d := by
  simp only [negate, scale, eval, LinearExpr.eval_scale]
  ring

@[simp] theorem eval_simplify (e : UncertainExpr ℝ) (u : UncertaintyRef → ℝ)
    (d : DecisionRef → ℝ) : e.simplify.eval u d = e.eval u d := by
  simp only [simplify, eval, LinearExpr.eval_simplify]

/-- An expression in which everything cancels has the value zero. -/
theorem eval_of_isZero {e : UncertainExpr ℝ} (h : e.isZero = true) (u : UncertaintyRef → ℝ)
    (d : DecisionRef → ℝ) : e.eval u d = 0 := by
  simp only [isZero, Bool.and_eq_true, Scalar.beq_real, decide_eq_true_eq] at h
  obtain ⟨⟨⟨hc, hd⟩, hu⟩, hp⟩ := h
  rw [eval, hc, LinearExpr.eval_of_isZero hd, LinearExpr.eval_of_isZero hu,
    LinearExpr.eval_of_isZero hp]
  norm_num

private theorem product_within {u : Assignment ℝ UncertaintyRef} {d : Assignment ℝ DecisionRef}
    {μ : UncertaintyRef → ℝ} {δ : DecisionRef → ℝ} (hu : u.Within μ) (hd : d.Within δ) :
    (Product.assignment u d).Within fun p => μ p.uncertainty * δ p.decision := by
  intro p x h
  simp only [Product.assignment, bind_eq_ok_iff, pure_eq_ok_iff] at h
  obtain ⟨y, hy, z, hz, rfl⟩ := h
  rw [hu _ _ hy, hd _ _ hz]

/-- Evaluation succeeds with the total value when no variable that occurs is refused. -/
theorem value_eq_ok {e : UncertainExpr ℝ} {u : Assignment ℝ UncertaintyRef}
    {d : Assignment ℝ DecisionRef} {μ : UncertaintyRef → ℝ} {δ : DecisionRef → ℝ}
    (hu : u.Within μ) (hd : d.Within δ)
    (hus : ∀ v ∈ e.uncertainties.vars, u v = .ok (μ v))
    (hds : ∀ v ∈ e.decisions.vars, d v = .ok (δ v))
    (hps : ∀ p ∈ e.products.vars,
      u p.uncertainty = .ok (μ p.uncertainty) ∧ d p.decision = .ok (δ p.decision)) :
    e.value u d = .ok (e.eval μ δ) := by
  have hp : ∀ p ∈ e.products.vars,
      Product.assignment u d p = .ok (μ p.uncertainty * δ p.decision) := by
    intro p hp
    simp only [Product.assignment, bind_eq_ok_iff, pure_eq_ok_iff]
    exact ⟨_, (hps p hp).1, _, (hps p hp).2, rfl⟩
  simp only [value, bind_eq_ok_iff, pure_eq_ok_iff, LinearExpr.value_eq_ok_iff hd,
    LinearExpr.value_eq_ok_iff hu, LinearExpr.value_eq_ok_iff (product_within hu hd)]
  exact ⟨_, ⟨hds, rfl⟩, _, ⟨hus, rfl⟩, _, ⟨hp, rfl⟩, rfl⟩

end UncertainExpr

end AdjustableRobust
