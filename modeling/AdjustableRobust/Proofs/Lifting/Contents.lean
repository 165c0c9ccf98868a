import AdjustableRobust.Proofs.Lifting.Projection

/-!
# Contents of the lifted alternatives

A lifted alternative holds the fill constraints of all lifted axes, the base constraints on what is
retracted, the constraints of a box and the cuts across axes, in this order. Adding them leaves
everything else of the lifted model alone.
-/

namespace AdjustableRobust

/-- The constraints of an alternative without their names. -/
def ConstraintSet.raws (b : ConstraintSet ℝ) : List (RawConstraint (ConicExpr ℝ UncertaintyRef)) :=
  b.constraints.map (·.toRawConstraint)

/-! ## Gaining constraints -/

/-- Constraints of a single alternative, by position. -/
def atSlot {β : Type} (slot : ℕ) (xs : List β) (i : ℕ) : List β := if slot = i then xs else []

/-- No constraint at any position. -/
@[simp] theorem atSlot_nil {β : Type} (slot i : ℕ) : atSlot slot ([] : List β) i = [] := ite_self _

/-- Constraints at one position, one after the other. -/
@[simp] theorem atSlot_append {β : Type} (slot : ℕ) (xs ys : List β) (i : ℕ) :
    atSlot slot (xs ++ ys) i = atSlot slot xs i ++ atSlot slot ys i := by
  unfold atSlot
  split <;> simp

/-- The second model has further constraints in its alternatives, and else is the first one. -/
structure RobustModel.Gains (m m' : RobustModel ℝ)
    (gain : ℕ → List (RawConstraint (ConicExpr ℝ UncertaintyRef))) : Prop where
  rest : m' = { m with uncertainty := m'.uncertainty }
  vars : m'.uncertainty.vars = m.uncertainty.vars
  size : m'.uncertainty.alternatives.size = m.uncertainty.alternatives.size
  raws : ∀ i b', m'.uncertainty.alternatives.items[i]? = some b' →
    ∃ b, m.uncertainty.alternatives.items[i]? = some b ∧ b'.raws = b.raws ++ gain i

namespace RobustModel.Gains

variable {m m' m'' : RobustModel ℝ}
variable {gain gain' : ℕ → List (RawConstraint (ConicExpr ℝ UncertaintyRef))}

/-- No constraint. -/
theorem refl (m : RobustModel ℝ) : m.Gains m fun _ => [] :=
  ⟨rfl, rfl, rfl, fun _ b hb => ⟨b, hb, (List.append_nil _).symm⟩⟩

/-- Constraints are gained one after the other. -/
theorem trans (h : m.Gains m' gain) (h' : m'.Gains m'' gain') :
    m.Gains m'' fun i => gain i ++ gain' i where
  rest := by rw [h'.rest, h.rest]
  vars := h'.vars.trans h.vars
  size := h'.size.trans h.size
  raws i b'' hb'' := by
    obtain ⟨b', hb', hraws'⟩ := h'.raws i b'' hb''
    obtain ⟨b, hb, hraws⟩ := h.raws i b' hb'
    exact ⟨b, hb, by rw [hraws', hraws, List.append_assoc]⟩

/-- The gain may be written in another way. -/
theorem congr (h : m.Gains m' gain) (heq : ∀ i, gain i = gain' i) : m.Gains m' gain' :=
  funext heq ▸ h

/-- Decisions stay. -/
theorem decisions (h : m.Gains m' gain) : m'.decisions = m.decisions := by rw [h.rest]

/-- Constraints on decisions stay. -/
theorem constraints (h : m.Gains m' gain) : m'.constraints = m.constraints := by rw [h.rest]

/-- The objective stays. -/
theorem objective? (h : m.Gains m' gain) : m'.objective? = m.objective? := by rw [h.rest]

/-- The distribution stays. -/
theorem distribution? (h : m.Gains m' gain) : m'.distribution? = m.distribution? := by rw [h.rest]

/-- Every alternative of the first model is one of the second, with the gain. -/
theorem exists_raws (h : m.Gains m' gain) {i : ℕ} {b : ConstraintSet ℝ}
    (hb : m.uncertainty.alternatives.items[i]? = some b) :
    ∃ b', m'.uncertainty.alternatives.items[i]? = some b' ∧ b'.raws = b.raws ++ gain i := by
  have hi : i < m'.uncertainty.alternatives.items.length :=
    lt_of_lt_of_eq (List.getElem?_eq_some_iff.1 hb).1 h.size.symm
  obtain ⟨b₀, hb₀, hraws⟩ := h.raws i _ (List.getElem?_eq_getElem hi)
  obtain rfl := Option.some.inj (hb.symm.trans hb₀)
  exact ⟨_, List.getElem?_eq_getElem hi, hraws⟩

/-- Adding a constraint to an alternative. -/
theorem of_addUncertaintyConstraintTo {set : ConstraintSetRef} {name : String}
    {c : RawConstraint (ConicExpr ℝ UncertaintyRef)}
    (hrun : m.addUncertaintyConstraintTo set name c = .ok m') :
    m.Gains m' (atSlot set.slot [c]) := by
  rw [addUncertaintyConstraintTo_eq_ok hrun]
  refine ⟨rfl, rfl, List.length_modify _ _ _, fun i b' hb' => ?_⟩
  rw [List.getElem?_modify] at hb'
  obtain ⟨b, hb, rfl⟩ := Option.map_eq_some_iff.1 hb'
  refine ⟨b, hb, ?_⟩
  by_cases hi : set.slot = i
  · simp [atSlot, hi, ConstraintSet.raws, ConstraintSet.add, Constraint.named]
  · simp [atSlot, hi]

/-- Adding a constraint to the last alternative. -/
theorem of_addUncertaintyConstraint {name : String}
    {c : RawConstraint (ConicExpr ℝ UncertaintyRef)}
    (hrun : m.addUncertaintyConstraint name c = .ok m') :
    m.Gains m' (atSlot (m.uncertainty.alternatives.size - 1) [c]) := by
  obtain ⟨set, hslot, hadd⟩ := exists_addUncertaintyConstraintTo hrun
  exact hslot ▸ of_addUncertaintyConstraintTo hadd

/-- A fold gains what its steps gain. -/
theorem of_foldlM {α ε : Type} {f : RobustModel ℝ → α → Except ε (RobustModel ℝ)} {xs : List α}
    {P : α → (ℕ → List (RawConstraint (ConicExpr ℝ UncertaintyRef))) → Prop}
    (hstep : ∀ m, ∀ x ∈ xs, ∀ m', f m x = .ok m' → ∃ gain, P x gain ∧ Gains m m' gain)
    (hrun : xs.foldlM f m = .ok m') :
    ∃ gains, List.Forall₂ P xs gains ∧ m.Gains m' fun i => gains.flatMap (· i) := by
  induction xs generalizing m with
  | nil =>
    rw [List.foldlM_nil, pure_eq_ok_iff] at hrun
    exact hrun ▸ ⟨[], .nil, refl m⟩
  | cons x xs ih =>
    rw [List.foldlM_cons, bind_eq_ok_iff] at hrun
    obtain ⟨m₁, hfirst, hrest⟩ := hrun
    obtain ⟨gain, hgain, hm⟩ := hstep m x List.mem_cons_self m₁ hfirst
    obtain ⟨gains, hgains, hm'⟩ := ih (fun m y hy => hstep m y (List.mem_cons_of_mem x hy)) hrest
    exact ⟨gain :: gains, .cons hgain hgains, hm.trans hm'⟩

/-- A fold whose steps all add to one alternative adds to that alternative. -/
theorem of_foldlM_atSlot {α ε : Type} {f : RobustModel ℝ → α → Except ε (RobustModel ℝ)}
    {xs : List α} (slot : ℕ) {P : α → List (RawConstraint (ConicExpr ℝ UncertaintyRef)) → Prop}
    (hstep : ∀ m, ∀ x ∈ xs, ∀ m', f m x = .ok m' → ∃ cs, P x cs ∧ Gains m m' (atSlot slot cs))
    (hrun : xs.foldlM f m = .ok m') :
    ∃ css, List.Forall₂ P xs css ∧ m.Gains m' (atSlot slot css.flatten) := by
  obtain ⟨gains, hgains, hm⟩ := of_foldlM (P := fun x gain => ∃ cs, P x cs ∧ gain = atSlot slot cs)
    (fun m x hx m' hx' => by
      obtain ⟨cs, hcs, hm⟩ := hstep m x hx m' hx'
      exact ⟨_, ⟨cs, hcs, rfl⟩, hm⟩) hrun
  clear hrun hstep
  have hsplit : ∃ css, List.Forall₂ P xs css ∧ gains = css.map (atSlot slot) := by
    clear hm
    induction hgains with
    | nil => exact ⟨[], .nil, rfl⟩
    | cons hgain _ ih =>
      obtain ⟨cs, hcs, rfl⟩ := hgain
      obtain ⟨css, hcss, rfl⟩ := ih
      exact ⟨cs :: css, .cons hcs hcss, rfl⟩
  obtain ⟨css, hcss, rfl⟩ := hsplit
  refine ⟨css, hcss, hm.congr fun i => ?_⟩
  by_cases hi : slot = i
  · simp [atSlot, hi, List.flatMap_map, List.flatMap_id']
  · simp [atSlot, hi]

/-- A fold whose steps add known constraints to one alternative adds all of them. -/
theorem of_foldlM_flatMap {α ε : Type} {f : RobustModel ℝ → α → Except ε (RobustModel ℝ)}
    {xs : List α} {slot : ℕ} {cs : α → List (RawConstraint (ConicExpr ℝ UncertaintyRef))}
    (hstep : ∀ m, ∀ x ∈ xs, ∀ m', f m x = .ok m' → Gains m m' (atSlot slot (cs x)))
    (hrun : xs.foldlM f m = .ok m') : m.Gains m' (atSlot slot (xs.flatMap cs)) := by
  obtain ⟨css, hcss, hgains⟩ := of_foldlM_atSlot slot (P := fun x ds => ds = cs x)
    (fun m x hx m' hx' => ⟨_, rfl, hstep m x hx m' hx'⟩) hrun
  have hmap : css = xs.map cs := by
    rw [← List.forall₂_eq_eq_eq, List.forall₂_map_right_iff]
    exact hcss.flip
  rwa [hmap, ← List.flatMap_def] at hgains

/-- What the positions of a store gain, one after the other, each of them gains. -/
theorem flatMap_eq_of_zip_handles {κ : EntityKind} {β γ δ : Type} {P : β → List δ → Prop}
    {xs : List β} {s : Store κ γ} {gains : List (ℕ → List δ)}
    (hgains : List.Forall₂ (fun (p : β × Handle κ) gain => ∃ cs, P p.1 cs ∧
      gain = atSlot p.2.slot cs) (xs.zip s.handles) gains) {i : ℕ} {x : β} (hx : xs[i]? = some x)
    (hi : i < s.size) : ∃ cs, P x cs ∧ gains.flatMap (· i) = cs := by
  -- the handles of a tail start at a later position
  suffices h : ∀ k n, List.Forall₂ (fun (p : β × Handle κ) gain => ∃ cs, P p.1 cs ∧
      gain = atSlot p.2.slot cs) (xs.zip ((List.range' k n).map s.handleFor)) gains →
        (∀ i < k, gains.flatMap (· i) = []) ∧ ∀ i x, xs[i]? = some x → i < n →
          ∃ cs, P x cs ∧ gains.flatMap (· (k + i)) = cs by
    have hall := (h 0 s.size (by rwa [← List.range_eq_range'])).2 i x hx hi
    rwa [Nat.zero_add] at hall
  clear hgains hx hi
  intro k n hgains
  induction n generalizing k xs gains with
  | zero =>
    obtain rfl : gains = [] := by simpa using hgains
    exact ⟨fun _ _ => rfl, fun _ _ _ hi => absurd hi (Nat.not_lt_zero _)⟩
  | succ n ih =>
    cases xs with
    | nil =>
      obtain rfl : gains = [] := by simpa using hgains
      exact ⟨fun _ _ => rfl, fun _ _ hx => by simp at hx⟩
    | cons y ys =>
      rw [List.range'_succ, List.map_cons, List.zip_cons_cons] at hgains
      obtain ⟨gain, gains', ⟨cs, hcs, rfl⟩, hgains', rfl⟩ := List.forall₂_cons_left_iff.1 hgains
      obtain ⟨hbefore, hafter⟩ := ih (k + 1) hgains'
      refine ⟨fun i hi => ?_, fun i x hx hi => ?_⟩
      · rw [List.flatMap_cons, hbefore i (by omega)]
        simp [atSlot, Store.handleFor, (show k ≠ i by omega)]
      · cases i with
        | zero =>
          obtain rfl : y = x := by simpa using hx
          refine ⟨cs, hcs, ?_⟩
          rw [List.flatMap_cons, Nat.add_zero, hbefore k (Nat.lt_succ_self k)]
          simp [atSlot, Store.handleFor]
        | succ i =>
          obtain ⟨cs', hcs', hgain⟩ := hafter i x hx (by omega)
          refine ⟨cs', hcs', ?_⟩
          rw [List.flatMap_cons, show k + (i + 1) = k + 1 + i by omega, hgain]
          simp [atSlot, Store.handleFor, (show k ≠ k + 1 + i by omega)]

/-- When a step for each alternative adds to it, every alternative gains what its step adds. -/
theorem of_foldlM_zip_handles {κ : EntityKind} {β γ ε : Type}
    {f : RobustModel ℝ → β × Handle κ → Except ε (RobustModel ℝ)}
    {P : β → List (RawConstraint (ConicExpr ℝ UncertaintyRef)) → Prop} {xs : List β}
    {s : Store κ γ}
    (hstep : ∀ m, ∀ p ∈ xs.zip s.handles, ∀ m', f m p = .ok m' →
      ∃ cs, P p.1 cs ∧ Gains m m' (atSlot p.2.slot cs))
    (hrun : (xs.zip s.handles).foldlM f m = .ok m') :
    ∃ gain, m.Gains m' gain ∧ ∀ i x, xs[i]? = some x → i < s.size → P x (gain i) := by
  obtain ⟨gains, hgains, hm⟩ := of_foldlM
    (P := fun (p : β × Handle κ) gain => ∃ cs, P p.1 cs ∧ gain = atSlot p.2.slot cs)
    (fun m p hp m' hp' => by
      obtain ⟨cs, hcs, hgains⟩ := hstep m p hp m' hp'
      exact ⟨_, ⟨cs, hcs, rfl⟩, hgains⟩) hrun
  refine ⟨_, hm, fun i x hx hi => ?_⟩
  obtain ⟨cs, hcs, hgain⟩ := flatMap_eq_of_zip_handles hgains hx hi
  exact hgain ▸ hcs

end RobustModel.Gains

/-! ## Stages of the construction -/

/-- Each piece of an axis is filled at most to the fraction to which the piece before it is. -/
noncomputable def LiftedAxis.fills (axis : LiftedAxis ℝ) :
    List (RawConstraint (ConicExpr ℝ UncertaintyRef)) :=
  axis.series?.elim [] fun s => ((axis.vars.zip axis.vars.tail).zipIdx 1).map fun p =>
    (((AffineExpr.term (1 / s.pieceWidth p.2) p.1.2).addTerm (-1 / s.pieceWidth (p.2 - 1))
      p.1.1).relateValue .leq 0).toConic

/-- Fill constraints do not involve norms. -/
theorem LiftedAxis.affine_of_mem_fills {axis : LiftedAxis ℝ}
    {c : RawConstraint (ConicExpr ℝ UncertaintyRef)} (hc : c ∈ axis.fills) :
    c.expression.normed? = none := by
  rw [fills] at hc
  cases hs : axis.series? with
  | none =>
    rw [hs, Option.elim_none] at hc
    cases hc
  | some s =>
    rw [hs, Option.elim_some] at hc
    obtain ⟨p, -, rfl⟩ := List.mem_map.1 hc
    rfl

namespace LiftedModel

variable {model lifted lifted' : RobustModel ℝ} {axes : List (LiftedAxis ℝ)}
variable {retractions : List (AffineExpr ℝ UncertaintyRef)} {options : LiftingOptions}

/-- The base constraints on what is retracted. -/
def Images (model : RobustModel ℝ) (retractions : List (AffineExpr ℝ UncertaintyRef))
    (a : ConstraintSet ℝ) (cs : List (RawConstraint (ConicExpr ℝ UncertaintyRef))) : Prop :=
  List.Forall₂ (fun c c' => RawConstraint.sense c' = c.sense ∧
    c.expression.substitute (retract model retractions) = .ok c'.expression) a.raws cs

private theorem gains_of_addFill {set : ConstraintSetRef} {name : String}
    {axis : LiftedAxis ℝ} {s : BreakpointSeries ℝ} (hs : axis.series? = some s)
    (hrun : addFill lifted set name s axis = .ok lifted') :
    lifted.Gains lifted' (atSlot set.slot axis.fills) := by
  rw [LiftedAxis.fills, hs, Option.elim_some, List.map_eq_flatMap]
  exact .of_foldlM_flatMap (fun m p _ m' hstep => .of_addUncertaintyConstraintTo hstep) hrun

private theorem gains_of_addAlternative (hlength : axes.length = model.numUncertainties)
    {a : ConstraintSet ℝ} {set : ConstraintSetRef}
    (hrun : addAlternative model axes retractions lifted a set = .ok lifted') :
    ∃ cs, (∃ images, Images model retractions a images ∧
      cs = axes.flatMap (·.fills) ++ images) ∧ lifted.Gains lifted' (atSlot set.slot cs) := by
  rw [addAlternative, bind_eq_ok_iff] at hrun
  obtain ⟨filled, hfill, hrun⟩ := hrun
  have hall : (model.uncertainty.vars.items.zip axes).flatMap (fun p => p.2.fills) =
      axes.flatMap (·.fills) := by
    rw [← List.flatMap_map (f := Prod.snd), List.map_snd_zip hlength.le]
  have hfilled : lifted.Gains filled (atSlot set.slot (axes.flatMap (·.fills))) := by
    rw [← hall]
    refine .of_foldlM_flatMap (fun m p _ m' hstep => ?_) hfill
    obtain ⟨v, axis⟩ := p
    cases hs : axis.series? with
    | none =>
      simp only [hs, pure_eq_ok_iff] at hstep
      subst hstep
      exact (RobustModel.Gains.refl m).congr fun i => by simp [LiftedAxis.fills, hs]
    | some s =>
      simp only [hs] at hstep
      exact gains_of_addFill hs hstep
  obtain ⟨images, himages, hadded⟩ := RobustModel.Gains.of_foldlM_atSlot set.slot
    (P := fun (c : UncertaintyConstraint ℝ) cs => ∃ c' : RawConstraint (ConicExpr ℝ UncertaintyRef),
      cs = [c'] ∧ c'.sense = c.sense ∧
        c.expression.substitute (retract model retractions) = .ok c'.expression)
    (fun m c _ m' hstep => by
      rw [bind_eq_ok_iff] at hstep
      obtain ⟨e, he, hadd⟩ := hstep
      exact ⟨_, ⟨⟨c.sense, e⟩, rfl, rfl, he⟩, .of_addUncertaintyConstraintTo hadd⟩) hrun
  have hsecond : Images model retractions a images.flatten := by
    unfold Images ConstraintSet.raws
    rw [List.forall₂_map_left_iff]
    generalize a.constraints = cs at himages
    clear hadded hrun
    induction himages with
    | nil => exact .nil
    | cons hcs _ ih =>
      obtain ⟨c', rfl, hc'⟩ := hcs
      exact .cons hc' ih
  exact ⟨_, ⟨_, hsecond, rfl⟩, (hfilled.trans hadded).congr fun i => (atSlot_append ..).symm⟩

/-- The constraints of the pieces inside a box alternative. -/
noncomputable def boxConstraints (options : LiftingOptions) (b : BoxPieces ℝ) :
    Except StoreError (List (BoxPieces.NamedConstraint ℝ)) :=
  if options.useOldBoxConstraints then b.accumulated else b.clipped

/-- What tightening a box alternative adds along an uncertainty with its axis and range. -/
def BoxRow (options : LiftingOptions) (set : ConstraintSetRef)
    (row : UncertaintyVariable ℝ × LiftedAxis ℝ × BoxRange ℝ)
    (cs : List (RawConstraint (ConicExpr ℝ UncertaintyRef))) : Prop :=
  match row.2.1.series? with
  | none => cs = []
  | some s => ∃ named, boxConstraints options ⟨set, row.1.name, s, row.2.1,
      row.2.2.lower?.getD s.lower, row.2.2.upper?.getD s.upper⟩ = .ok named ∧
    cs = named.map (·.2.toConic)

/-- What tightening adds to an alternative: nothing unless it is a box, else the constraints of
every axis. -/
def BoxCuts (model : RobustModel ℝ) (options : LiftingOptions) (axes : List (LiftedAxis ℝ))
    (a : ConstraintSet ℝ) (set : ConstraintSetRef)
    (cs : List (RawConstraint (ConicExpr ℝ UncertaintyRef))) : Prop :=
  if a.isBox then ∃ ranges css, BoxRange.ofAlternative model.uncertainty a = .ok ranges ∧
    List.Forall₂ (BoxRow options set) (model.uncertainty.vars.items.zip (axes.zip ranges)) css ∧
      cs = css.flatten
  else cs = []

/-- The constraints of the pieces of a box are affine. -/
theorem BoxCuts.affine {ref : ConstraintSetRef}
    {cs : List (RawConstraint (ConicExpr ℝ UncertaintyRef))} {a : ConstraintSet ℝ}
    (h : BoxCuts model options axes a ref cs) : ∀ c ∈ cs, c.expression.normed? = none := by
  rw [BoxCuts] at h
  split at h
  · obtain ⟨ranges, css, -, hrows, rfl⟩ := h
    intro c hc
    obtain ⟨row, hrow, hc⟩ := List.mem_flatten.1 hc
    obtain ⟨_, -, hbox⟩ := exists_of_forall₂_right hrows hrow
    rw [BoxRow] at hbox
    split at hbox
    · rw [hbox] at hc
      cases hc
    · obtain ⟨named, -, rfl⟩ := hbox
      obtain ⟨c, -, rfl⟩ := List.mem_map.1 hc
      rfl
  · simp [h]

private theorem gains_of_tightenBox {a : ConstraintSet ℝ} {set : ConstraintSetRef}
    (hrun : tightenBox model options axes lifted a set = .ok lifted') :
    ∃ cs, BoxCuts model options axes a set cs ∧ lifted.Gains lifted' (atSlot set.slot cs) := by
  unfold BoxCuts
  rw [tightenBox] at hrun
  cases hbox : a.isBox with
  | false =>
    rw [hbox, Bool.not_false, if_pos rfl, pure_eq_ok_iff] at hrun
    subst hrun
    exact ⟨[], by simp, (RobustModel.Gains.refl lifted).congr fun i => (atSlot_nil ..).symm⟩
  | true =>
    rw [hbox, Bool.not_true, if_neg Bool.false_ne_true, bind_eq_ok_iff] at hrun
    obtain ⟨ranges, hranges, hrun⟩ := hrun
    rw [PolicyError.fromModel, mapError_eq_ok_iff] at hranges
    obtain ⟨css, hcss, hgains⟩ := RobustModel.Gains.of_foldlM_atSlot set.slot
      (P := BoxRow options set) (fun m row _ m' hstep => by
        obtain ⟨v, axis, range⟩ := row
        cases hs : axis.series? with
        | none =>
          simp only [hs, pure_eq_ok_iff] at hstep
          subst hstep
          exact ⟨[], by simp [BoxRow, hs],
            (RobustModel.Gains.refl m).congr fun i => (atSlot_nil ..).symm⟩
        | some s =>
          simp only [hs, bind_eq_ok_iff, PolicyError.fromStore, mapError_eq_ok_iff] at hstep
          obtain ⟨named, hnamed, hstep⟩ := hstep
          refine ⟨named.map (·.2.toConic), by simpa [BoxRow, hs] using ⟨named, hnamed, rfl⟩, ?_⟩
          rw [List.map_eq_flatMap]
          refine .of_foldlM_flatMap (fun m c _ m' hadd => ?_) hstep
          rw [PolicyError.fromModel, mapError_eq_ok_iff] at hadd
          exact .of_addUncertaintyConstraintTo hadd) hrun
    exact ⟨css.flatten, by simpa using ⟨ranges, hranges, css, hcss, rfl⟩, hgains⟩

/-! ## Cuts across axes -/

/-- Affine constraints are added. -/
def GainsAffine (m m' : RobustModel ℝ) : Prop :=
  ∃ gain, (∀ i, ∀ c ∈ gain i, c.expression.normed? = none) ∧ m.Gains m' gain

private theorem GainsAffine.refl (m : RobustModel ℝ) : GainsAffine m m :=
  ⟨_, by simp, .refl m⟩

private theorem GainsAffine.trans {m m' m'' : RobustModel ℝ} (h : GainsAffine m m')
    (h' : GainsAffine m' m'') : GainsAffine m m'' := by
  obtain ⟨gain, haffine, hgains⟩ := h
  obtain ⟨gain', haffine', hgains'⟩ := h'
  refine ⟨_, fun i c hc => ?_, hgains.trans hgains'⟩
  exact (List.mem_append.1 hc).elim (haffine i c) (haffine' i c)

private theorem gainsAffine_of_cap {i : ℕ} {e : AffineExpr ℝ UncertaintyRef} {budget : ℝ}
    (hrun : RotationalCut.cap lifted i e budget = .ok lifted') : GainsAffine lifted lifted' := by
  rw [RotationalCut.cap, PolicyError.fromModel, mapError_eq_ok_iff] at hrun
  refine ⟨_, fun i c hc => ?_, .of_addUncertaintyConstraint hrun⟩
  unfold atSlot at hc
  split at hc
  · rw [List.mem_singleton.1 hc]
    rfl
  · cases hc

private theorem gainsAffine_of_cuts {is : List ℕ}
    {f : RobustModel ℝ × AffineExpr ℝ UncertaintyRef → ℕ →
      Except (PolicyError ℝ) (RobustModel ℝ × AffineExpr ℝ UncertaintyRef)}
    (hf : ∀ p i p', f p i = .ok p' → ∃ e b, RotationalCut.cap p.1 i e b = .ok p'.1)
    {start : AffineExpr ℝ UncertaintyRef} {p : RobustModel ℝ × AffineExpr ℝ UncertaintyRef}
    (hrun : is.foldlM f (lifted, start) = .ok p) : GainsAffine lifted p.1 := by
  refine foldlM_invariant (I := fun p : RobustModel ℝ × AffineExpr ℝ UncertaintyRef =>
    GainsAffine lifted p.1) (fun p i _ p' hp hstep => ?_) (.refl lifted) hrun
  obtain ⟨e, b, hcap⟩ := hf p i p' hstep
  exact hp.trans (gainsAffine_of_cap hcap)

private theorem gainsAffine_of_addSymmetric {set : UncertaintySet ℝ}
    {series : BreakpointSeries ℝ}
    (hrun : RotationalCut.addSymmetric set series axes lifted = .ok lifted') :
    GainsAffine lifted lifted' := by
  rw [RotationalCut.addSymmetric, bind_eq_ok_iff] at hrun
  obtain ⟨p, hfold, hret⟩ := hrun
  obtain rfl := pure_eq_ok_iff.1 hret
  refine gainsAffine_of_cuts (fun p i p' hstep => ?_) hfold
  simp only [bind_eq_ok_iff, pure_eq_ok_iff] at hstep
  obtain ⟨e, -, b, -, m, hcap, rfl⟩ := hstep
  exact ⟨e, b, hcap⟩

private theorem gainsAffine_of_addNonNegative {set : UncertaintySet ℝ}
    {series : BreakpointSeries ℝ}
    (hrun : RotationalCut.addNonNegative set series axes lifted = .ok lifted') :
    GainsAffine lifted lifted' := by
  rw [RotationalCut.addNonNegative, bind_eq_ok_iff] at hrun
  obtain ⟨p, hfold, hret⟩ := hrun
  obtain rfl := pure_eq_ok_iff.1 hret
  refine gainsAffine_of_cuts (fun p i p' hstep => ?_) hfold
  simp only [bind_eq_ok_iff, pure_eq_ok_iff] at hstep
  obtain ⟨e, -, b, -, m, hcap, rfl⟩ := hstep
  exact ⟨e, b, hcap⟩

private theorem gainsAffine_of_tightenRotational {d d' : Diagnostics}
    (hrun : tightenRotational model axes lifted d = .ok lifted' d') :
    GainsAffine lifted lifted' := by
  obtain rfl | ⟨series, m, -, -, hfirst, hsecond⟩ := tightenRotational_eq_ok hrun
  · exact .refl _
  have hm : GainsAffine lifted m := by
    obtain rfl | ⟨-, hadd⟩ := hfirst
    · exact .refl _
    · exact gainsAffine_of_addSymmetric hadd
  obtain rfl | hadd := hsecond
  · exact hm
  · exact hm.trans (gainsAffine_of_addNonNegative hadd)

/-! ## The whole construction -/

/-- What a lifted alternative holds, in this order: fill constraints of all axes, base constraints
on what is retracted, constraints of a box, and cuts across axes. -/
def Holds (model : RobustModel ℝ) (options : LiftingOptions) (d : Draft ℝ) (a : ConstraintSet ℝ)
    (b : ConstraintSet ℝ) : Prop :=
  ∃ set images box cuts, Images model d.retractions a images ∧
    BoxCuts model options d.axes a set box ∧ (∀ c ∈ cuts, c.expression.normed? = none) ∧
      b.raws = d.axes.flatMap (·.fills) ++ images ++ box ++ cuts

/-- The stages of a construction: the alternatives get their fill and base constraints, decisions
are added, then the constraints on them and the objective. -/
structure Stages (model : RobustModel ℝ) (options : LiftingOptions) (d : Draft ℝ)
    (m₀ m₁ m₂ lifted : RobustModel ℝ) (decisions : List DecisionRef) : Prop where
  /-- Alternatives are filled before there is anything else. -/
  filled : m₀ = { d.lifted with uncertainty := m₀.uncertainty }
  vars : m₀.uncertainty.vars = d.lifted.uncertainty.vars
  decided : addDecisions model d.axes m₀ = .ok (decisions, m₁)
  constrained : addConstraints model d.retractions decisions m₁ = .ok m₂
  /-- From then on only the uncertainty set and the distribution change. -/
  rest : lifted = { m₂ with
    uncertainty := lifted.uncertainty, distribution? := lifted.distribution? }
  kept : lifted.uncertainty.vars = d.lifted.uncertainty.vars
  size : lifted.uncertainty.alternatives.size = max model.uncertainty.alternatives.size 1
  contents : ∀ (i : ℕ) a, model.uncertainty.alternatives.items[i]? = some a →
    ∃ b, lifted.uncertainty.alternatives.items[i]? = some b ∧ Holds model options d a b

private theorem stages_of_buildAxes {series : List (BreakpointSeries ℝ)} {owner : OwnerId}
    (hseries : ∀ s ∈ series, s.IsOver model.uncertainty)
    (hrun : buildAxes model series options owner = .ok (lifted, axes)) :
    ∃ d m₀ m₁ m₂ decisions, liftUncertainties model series owner = .ok d ∧ d.axes = axes ∧
      Stages model options d m₀ m₁ m₂ lifted decisions := by
  simp only [buildAxes, bind_eq_ok_iff, PolicyError.fromModel, mapError_eq_ok_iff, pure_eq_ok_iff]
    at hrun
  obtain ⟨d, hdraft, m₀, hfilled, ⟨decisions, m₁⟩, hdecided, m₂, hconstrained, tightened,
    htightened, hresult⟩ := hrun
  obtain ⟨rfl, rfl⟩ := Prod.mk.inj hresult
  have hd := liftUncertainties_eq_ok hseries hdraft
  obtain ⟨hstart, hvars, hitems⟩ := emptyAlternatives hd
  generalize (model.uncertainty.alternatives.items.drop 1).foldl
    (fun (m : RobustModel ℝ) _ => m.addAlternative.2) d.lifted = m at *
  have hsize : m.uncertainty.alternatives.size = max model.uncertainty.alternatives.size 1 := by
    rw [Store.size, hitems, List.length_replicate]
  obtain ⟨gain₀, hm₀, hfills⟩ := RobustModel.Gains.of_foldlM_zip_handles
    (P := fun a cs => ∃ images, Images model d.retractions a images ∧
      cs = d.axes.flatMap (·.fills) ++ images)
    (fun m p _ m' hstep => gains_of_addAlternative hd.axes.length_axes hstep) hfilled
  obtain ⟨gain₁, hm₁, hcuts⟩ := RobustModel.Gains.of_foldlM_zip_handles
    (P := fun a cs => ∃ set, BoxCuts model options d.axes a set cs)
    (fun m p _ m' hstep => by
      obtain ⟨cs, hcs, hgains⟩ := gains_of_tightenBox hstep
      exact ⟨cs, ⟨_, hcs⟩, hgains⟩) htightened
  have hkept : m₂.uncertainty = m₀.uncertainty :=
    (uncertainty_addConstraints hconstrained).trans (uncertainty_addDecisions hdecided)
  refine ⟨d, m₀, m₁, m₂, decisions, hdraft, rfl, ?_, hm₀.vars.trans hvars, hdecided, hconstrained,
    ?_, ?_, ?_, fun i a ha => ?_⟩
  · rw [hm₀.rest, hstart]
  · refine hm₁.rest.trans ?_
    rw [hm₁.distribution?]
  · rw [hm₁.vars, hkept, hm₀.vars, hvars]
  · rw [hm₁.size, hkept, hm₀.size, hsize]
  · have hbase : i < model.uncertainty.alternatives.items.length :=
      (List.getElem?_eq_some_iff.1 ha).1
    have hi : i < m.uncertainty.alternatives.size :=
      lt_of_lt_of_le hbase ((le_max_left _ _).trans hsize.ge)
    have hempty : m.uncertainty.alternatives.items[i]? = some .empty := by
      rw [hitems, List.getElem?_replicate, if_pos (by omega)]
    obtain ⟨images, himages, hgain₀⟩ := hfills i a ha hi
    obtain ⟨set, hbox⟩ := hcuts i a ha hi
    obtain ⟨b₀, hb₀, hraws₀⟩ := hm₀.exists_raws hempty
    obtain ⟨b, hb, hraws⟩ := hm₁.exists_raws (hkept ▸ hb₀)
    refine ⟨b, hb, set, images, gain₁ i, [], himages, hbox, by simp, ?_⟩
    rw [hraws, hraws₀, hgain₀, List.append_nil]
    rfl

/-- The construction goes through its stages, and lifts a distribution. -/
theorem build_stages {series : List (BreakpointSeries ℝ)} {owner : OwnerId}
    {lifting : Lifting ℝ} {d d' : Diagnostics}
    (hseries : ∀ s ∈ series, s.IsOver model.uncertainty)
    (hrun : build model series options owner d = .ok (lifted, lifting) d') :
    ∃ draft m₀ m₁ m₂ decisions, liftUncertainties model series owner = .ok draft ∧
      draft.axes = lifting.axes ∧ Stages model options draft m₀ m₁ m₂ lifted decisions ∧
        ∀ base, model.distribution? = some base →
          lifted.distribution? = some (.lifted base lifting) := by
  obtain ⟨boxed, cut, hboxed, hcut, rfl⟩ := build_eq_ok hrun
  obtain ⟨draft, m₀, m₁, m₂, decisions, hdraft, haxes, hstages⟩ :=
    stages_of_buildAxes hseries hboxed
  have haffine : GainsAffine boxed cut := by
    obtain rfl | ⟨d₁, d₂, hcut⟩ := hcut
    · exact .refl _
    · exact gainsAffine_of_tightenRotational hcut
  obtain ⟨gain, hgain, hgains⟩ := haffine
  have hafter : Stages model options draft m₀ m₁ m₂ cut decisions := by
    refine { hstages with rest := ?_, kept := ?_, size := ?_, contents := fun i a ha => ?_ }
    · rw [hgains.rest, hstages.rest]
    · rw [hgains.vars, hstages.kept]
    · rw [hgains.size, hstages.size]
    · obtain ⟨b₀, hb₀, set, images, box, cuts, himages, hbox, hcuts, hraws₀⟩ :=
        hstages.contents i a ha
      obtain ⟨b, hb, hraws⟩ := hgains.exists_raws hb₀
      refine ⟨b, hb, set, images, box, cuts ++ gain i, himages, hbox, fun c hc => ?_, ?_⟩
      · exact (List.mem_append.1 hc).elim (hcuts c) (hgain i c)
      · rw [hraws, hraws₀, List.append_assoc]
  refine ⟨draft, m₀, m₁, m₂, decisions, hdraft, haxes, ?_, fun base hbase => by rw [hbase]; rfl⟩
  cases model.distribution? with
  | none => exact hafter
  | some base =>
    refine { hafter with rest := ?_ }
    have hrest := hafter.rest
    change { cut with distribution? := _ } = _
    rw [hrest]
    rfl

end LiftedModel

end AdjustableRobust
