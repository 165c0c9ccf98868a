import AdjustableRobust.Proofs.Lifting.Policies
import AdjustableRobust.Proofs.Policy.Counterpart

/-!
# Duals of the base model as duals of the lifted model

Duals of an alternative are carried over to the lifted one: base constraints keep theirs, the bounds
of an uncertainty are copied to every piece of its axis, and what the lifting adds gets zero. They
stay admissible, and their sum at a lifted realization is the one at the retracted realization.
-/

namespace AdjustableRobust

/-! ## Constraints with the same parts -/

/-- A constraint has at one realization the parts that another one has at another realization. -/
structure RawConstraint.Moves (c c' : RawConstraint (ConicExpr ℝ UncertaintyRef))
    (u u' : ℕ → ℝ) : Prop where
  sense : c'.sense = c.sense
  norm : c'.expression.normed?.map (·.norm) = c.expression.normed?.map (·.norm)
  affine : c'.expression.affine.eval (bySlot u') = c.expression.affine.eval (bySlot u)
  rows : c'.rows.map (·.eval (bySlot u')) = c.rows.map (·.eval (bySlot u))

namespace RawConstraint

variable {c c' : RawConstraint (ConicExpr ℝ UncertaintyRef)} {d : Dual} {u u' : ℕ → ℝ}

/-- The same duals are admissible. -/
theorem Moves.admitsDual (h : c.Moves c' u u') (hd : c.AdmitsDual d) : c'.AdmitsDual d where
  sign := h.sense ▸ hd.sign
  length := by
    have hlength := congrArg List.length h.rows
    rw [List.length_map, List.length_map] at hlength
    rw [hd.length, hlength]
  bounded n hn := by
    have hnorm := h.norm
    rw [hn, Option.map_some] at hnorm
    obtain ⟨n₀, hn₀, hsame⟩ := Option.map_eq_some_iff.1 hnorm.symm
    rw [← hsame]
    exact hd.bounded n₀ hn₀

/-- Duals weight them alike. -/
theorem Moves.weighted (h : c.Moves c' u u') (y : ℝ) (zs : List ℝ) :
    c'.weighted y zs u' = c.weighted y zs u := by
  rw [RawConstraint.weighted, RawConstraint.weighted, h.affine, h.rows]

/-- Constraints on the value of one variable. -/
theorem moves_ofAffine {x y : UncertaintyRef} (h : bySlot u' y = bySlot u x) (s : ConstraintSense)
    (k : ℝ) : (⟨s, .ofAffine ⟨k, .var x⟩⟩ : RawConstraint (ConicExpr ℝ UncertaintyRef)).Moves
      ⟨s, .ofAffine ⟨k, .var y⟩⟩ u u' where
  sense := rfl
  norm := rfl
  affine := by simp [ConicExpr.ofAffine, AffineExpr.eval, h]
  rows := rfl

end RawConstraint

/-- Admissible duals of constraints are those of constraints with the same parts, and add up to the
same. -/
theorem AdmitsDuals.move {cs cs' : List (RawConstraint (ConicExpr ℝ UncertaintyRef))}
    {ds : List Dual} {u u' : ℕ → ℝ} (hds : AdmitsDuals cs ds)
    (h : List.Forall₂ (fun c c' => RawConstraint.Moves c c' u u') cs cs') :
    AdmitsDuals cs' ds ∧ weightedSum cs' ds u' = weightedSum cs ds u := by
  induction hds generalizing cs' with
  | nil =>
    obtain rfl := List.forall₂_nil_left_iff.1 h
    exact ⟨.nil, rfl⟩
  | cons hd _ ih =>
    obtain ⟨c', rest, hc, hrest, rfl⟩ := List.forall₂_cons_left_iff.1 h
    obtain ⟨hadmits, hsum⟩ := ih hrest
    refine ⟨.cons (hc.admitsDual hd) hadmits, ?_⟩
    rw [weightedSum_cons, weightedSum_cons, Pi.add_apply, Pi.add_apply, hsum, hc.weighted]

namespace Bounds

/-- The number of bounds. -/
def count (b : Bounds ℝ) : ℕ := b.lower?.toList.length + b.upper?.toList.length

/-- There is one constraint for each bound. -/
theorem length_rows {V : Type} (b : Bounds ℝ) (v : V) : (b.rows v).length = b.count := by
  rw [rows, count]
  cases b.lower? <;> cases b.upper? <;> rfl

/-- The same bounds of variables with the same value. -/
theorem moves_rows (b : Bounds ℝ) {x y : UncertaintyRef} {u u' : ℕ → ℝ}
    (h : bySlot u' y = bySlot u x) :
    List.Forall₂ (fun c c' => RawConstraint.Moves c c' u u') (b.rows x) (b.rows y) := by
  have hmove := RawConstraint.moves_ofAffine h
  rw [rows, rows]
  refine List.rel_append ?_ ?_
  · cases b.lower? with
    | none => exact .nil
    | some l => exact .cons (hmove .geq (-l)) .nil
  · cases b.upper? with
    | none => exact .nil
    | some h => exact .cons (hmove .leq (-h)) .nil

end Bounds

/-! ## Bounds of an uncertainty -/

namespace LiftedAxis

variable {axis : LiftedAxis ℝ} {v : UncertaintyVariable ℝ} {x : UncertaintyRef} {ds : List Dual}
variable {u u' : ℕ → ℝ}

/-- The duals of the bounds of the lifted variables: each piece gets those of the uncertainty. -/
def copies (axis : LiftedAxis ℝ) (ds : List Dual) : List Dual := axis.vars.flatMap fun _ => ds

private theorem admits_copies_pieces {w : ℕ → ℝ} {l h : Dual}
    (hl : ∀ y, (⟨.geq, .ofAffine ⟨-0, .var y⟩⟩ :
      RawConstraint (ConicExpr ℝ UncertaintyRef)).AdmitsDual l)
    (hh : ∀ y i, (⟨.leq, .ofAffine ⟨-w i, .var y⟩⟩ :
      RawConstraint (ConicExpr ℝ UncertaintyRef)).AdmitsDual h)
    {ys : List UncertaintyRef} {is : List ℕ} (hsize : ys.length = is.length) :
    AdmitsDuals ((ys.zip is).flatMap fun y =>
        [⟨.geq, .ofAffine ⟨-0, .var y.1⟩⟩, ⟨.leq, .ofAffine ⟨-w y.2, .var y.1⟩⟩])
        (ys.flatMap fun _ => [l, h]) ∧
      weightedSum ((ys.zip is).flatMap fun y =>
        [⟨.geq, .ofAffine ⟨-0, .var y.1⟩⟩, ⟨.leq, .ofAffine ⟨-w y.2, .var y.1⟩⟩])
        (ys.flatMap fun _ => [l, h]) u =
          l.own * (ys.map (bySlot u)).sum + h.own * ((ys.map (bySlot u)).sum - (is.map w).sum) := by
  induction ys generalizing is with
  | nil =>
    obtain rfl : is = [] := List.length_eq_zero_iff.1 hsize.symm
    exact ⟨.nil, by simp⟩
  | cons y ys ih =>
    cases is with
    | nil => cases hsize
    | cons i is =>
      obtain ⟨hadmits, hsum⟩ := ih (Nat.succ.inj hsize)
      rw [List.zip_cons_cons, List.flatMap_cons, List.flatMap_cons]
      refine ⟨.cons (hl y) (.cons (hh y i) hadmits), ?_⟩
      simp only [List.cons_append, List.nil_append, weightedSum_cons, Pi.add_apply, hsum,
        List.map_cons, List.sum_cons]
      simp only [RawConstraint.weighted, RawConstraint.rows, ConicExpr.ofAffine, AffineExpr.eval,
        LinearExpr.eval_var, Option.elim_none, List.map_nil, pairing_nil_right]
      ring

/-- Copied duals are admissible for the bounds of the lifted variables, and add at their values what
the duals of the uncertainty add at the value it is retracted to. -/
theorem Represents.admits_copies (h : axis.Represents v) (hds : AdmitsDuals (v.bounds.rows x) ds)
    (hu : bySlot u x = axis.retract (bySlot u')) :
    AdmitsDuals (axis.rows v) (axis.copies ds) ∧
      weightedSum (axis.rows v) (axis.copies ds) u' = weightedSum (v.bounds.rows x) ds u := by
  have hlength := h.length
  rw [retract, origin] at hu
  rw [rows, copies]
  cases hs : axis.series? with
  | none =>
    rw [hs, Option.elim_none, List.length_eq_one_iff] at hlength
    obtain ⟨y, hy⟩ := hlength
    rw [hs, Option.elim_none, hy, List.map_singleton, List.sum_singleton, zero_add] at hu
    rw [hy, List.flatMap_singleton, List.flatMap_singleton]
    exact hds.move (v.bounds.moves_rows hu.symm)
  | some s =>
    rw [hs, Option.elim_some] at hlength hu
    obtain ⟨-, hlower, hupper⟩ := h.pieces s hs
    have hrows : v.bounds.rows x =
        [⟨.geq, .ofAffine ⟨-s.lower, .var x⟩⟩, ⟨.leq, .ofAffine ⟨-s.upper, .var x⟩⟩] := by
      rw [Bounds.rows, hlower, hupper]
      rfl
    rw [hrows] at hds ⊢
    obtain ⟨l, _, hl, hrest, rfl⟩ := List.forall₂_cons_left_iff.1 hds
    obtain ⟨r, _, hr, hnil, rfl⟩ := List.forall₂_cons_left_iff.1 hrest
    obtain rfl := List.forall₂_nil_left_iff.1 hnil
    have hsize : axis.vars.length = (List.range s.numPieces).length := by
      rw [hlength, List.length_range]
    obtain ⟨hadmits, hsum⟩ := admits_copies_pieces (u := u') (w := s.pieceWidth) (l := l) (h := r)
      (fun _ => ⟨hl.sign, hl.length, fun _ hn => absurd hn.symm (Option.some_ne_none _)⟩)
      (fun _ _ => ⟨hr.sign, hr.length, fun _ hn => absurd hn.symm (Option.some_ne_none _)⟩) hsize
    refine ⟨hadmits, hsum.trans ?_⟩
    have hwidths : ((List.range s.numPieces).map s.pieceWidth).sum = s.upper - s.lower := by
      rw [← s.pieceStart_numPieces]
      exact s.sum_pieceWidth s.numPieces
    rw [hwidths]
    simp only [weightedSum_cons, weightedSum_nil, Pi.add_apply, RawConstraint.weighted,
      RawConstraint.rows, ConicExpr.ofAffine, AffineExpr.eval, LinearExpr.eval_var,
      Option.elim_none, List.map_nil, pairing_nil_right, hu]
    simp only [Pi.zero_apply]
    ring

end LiftedAxis

namespace LiftedModel

variable {model lifted : RobustModel ℝ} {options : LiftingOptions} {d : Draft ℝ}
variable {a b : ConstraintSet ℝ} {ds : List Dual}

/-- The duals of all bounds, one uncertainty after the other, copied to the pieces. -/
def copiedDuals : List (UncertaintyVariable ℝ × LiftedAxis ℝ) → List Dual → List Dual
  | [], _ => []
  | (v, axis) :: rest, ds =>
    axis.copies (ds.take v.bounds.count) ++ copiedDuals rest (ds.drop v.bounds.count)

/-- Copied duals are admissible for the bounds of all lifted variables, and add at their values what
the duals of the uncertainties add at the values they are retracted to. -/
private theorem admits_copiedDuals {es : List (UncertaintyRef × UncertaintyVariable ℝ)}
    {axes : List (LiftedAxis ℝ)} {u u' : ℕ → ℝ}
    (haxes : List.Forall₂ (fun e (axis : LiftedAxis ℝ) =>
      axis.Represents e.2 ∧ bySlot u e.1 = axis.retract (bySlot u')) es axes)
    (hds : AdmitsDuals (es.flatMap fun e => e.2.bounds.rows e.1) ds) :
    AdmitsDuals (((es.map (·.2)).zip axes).flatMap fun p => p.2.rows p.1)
        (copiedDuals ((es.map (·.2)).zip axes) ds) ∧
      weightedSum (((es.map (·.2)).zip axes).flatMap fun p => p.2.rows p.1)
          (copiedDuals ((es.map (·.2)).zip axes) ds) u' =
        weightedSum (es.flatMap fun e => e.2.bounds.rows e.1) ds u := by
  induction haxes generalizing ds with
  | nil => exact ⟨.nil, rfl⟩
  | @cons e axis es axes haxis _ ih =>
    rw [List.flatMap_cons, admitsDuals_append_iff] at hds
    obtain ⟨ds₁, ds₂, hds₁, hds₂, rfl⟩ := hds
    -- the duals of the first uncertainty are those that are copied to its pieces
    have hcount : e.2.bounds.count = ds₁.length := by
      rw [← Bounds.length_rows e.2.bounds e.1, hds₁.length_eq]
    obtain ⟨hadmits₁, hsum₁⟩ := haxis.1.admits_copies hds₁ haxis.2
    obtain ⟨hadmits₂, hsum₂⟩ := ih hds₂
    rw [List.map_cons, List.zip_cons_cons, List.flatMap_cons, List.flatMap_cons, copiedDuals,
      hcount, List.take_left, List.drop_left, weightedSum_append hadmits₁.length_eq,
      weightedSum_append hds₁.length_eq, Pi.add_apply, Pi.add_apply, hsum₁, hsum₂]
    exact ⟨admitsDuals_append_iff.2 ⟨_, _, hadmits₁, hadmits₂, rfl⟩, rfl⟩

private theorem represents_entries (hd : d.IsOver model.uncertainty) (U : ℕ → ℝ) :
    List.Forall₂ (fun e (axis : LiftedAxis ℝ) => axis.Represents e.2 ∧
      bySlot (retracted d.axes U) e.1 = axis.retract (bySlot U))
        model.uncertainty.vars.entries d.axes := by
  have hlength : model.uncertainty.vars.entries.length = d.axes.length := by
    rw [← hd.axes.represents.length_eq, Store.entries, List.length_map, List.length_zipIdx]
  refine List.forall₂_iff_get.2 ⟨hlength, fun i hi hi' => ?_⟩
  have hentry : model.uncertainty.vars.entries.get ⟨i, hi⟩ =
      (model.uncertainty.vars.handleFor i, model.uncertainty.vars.items.get
        ⟨i, hd.axes.represents.length_eq ▸ hi'⟩) := by
    simp [Store.entries]
  rw [hentry]
  exact ⟨hd.axes.represents.get _ hi', bySlot_retracted (List.getElem?_eq_getElem hi') U⟩

private theorem Images.moves (hd : d.IsOver model.uncertainty)
    {cs : List (RawConstraint (ConicExpr ℝ UncertaintyRef))}
    (h : Images model d.retractions a cs) (U : ℕ → ℝ) :
    List.Forall₂ (fun c c' => RawConstraint.Moves c c' (retracted d.axes U) U) a.raws cs := by
  refine h.imp fun c c' hc => ?_
  obtain ⟨hnorm, hparts⟩ := ConicExpr.parts_of_substitute hc.2
  obtain ⟨haffine, hrows⟩ := hparts (bySlot U) (bySlot (retracted d.axes U))
    fun u g hg => (retract_eq_ok hd hg).2.2 (bySlot U)
  exact ⟨hc.1, hnorm, haffine, hrows⟩

/-- The duals of an alternative for the lifted alternative: the fill constraints come first, then
the images of the base constraints, then what tightens the alternative, then the bounds. -/
noncomputable def carriedDuals (model : RobustModel ℝ) (axes : List (LiftedAxis ℝ))
    (a b : ConstraintSet ℝ) (ds : List Dual) : List Dual :=
  let filled := (axes.flatMap (·.fills)).length
  let based := a.raws.length
  (b.raws.take filled).map (·.zeroDual) ++ ds.take based ++
    (b.raws.drop (filled + based)).map (·.zeroDual) ++
      copiedDuals (model.uncertainty.vars.items.zip axes) (ds.drop based)

/-- Carried duals are admissible for the lifted region, and add at a lifted realization what the
duals add at the retracted one. -/
theorem Holds.admits_carriedDuals (h : Holds model options d a b) (hd : d.IsOver model.uncertainty)
    (hvars : lifted.uncertainty.vars = d.lifted.uncertainty.vars)
    (hds : AdmitsDuals (model.uncertainty.region a) ds) (U : ℕ → ℝ) :
    AdmitsDuals (lifted.uncertainty.region b) (carriedDuals model d.axes a b ds) ∧
      weightedSum (lifted.uncertainty.region b) (carriedDuals model d.axes a b ds) U =
        weightedSum (model.uncertainty.region a) ds (retracted d.axes U) := by
  obtain ⟨set, images, box, cuts, himages, -, -, hraws⟩ := h
  obtain ⟨ds₁, ds₂, hds₁, hds₂, rfl⟩ := admitsDuals_append_iff.1 hds
  have hbased : a.raws.length = ds₁.length := hds₁.length_eq
  have hsize : images.length = ds₁.length := himages.length_eq.symm.trans hbased
  have hsnd : model.uncertainty.vars.entries.map (·.2) = model.uncertainty.vars.items := by
    simp [Store.entries, List.map_map, Function.comp_def]
  have hregion : lifted.uncertainty.region b =
      d.axes.flatMap (·.fills) ++ images ++ (box ++ cuts) ++
        (model.uncertainty.vars.items.zip d.axes).flatMap fun p => p.2.rows p.1 := by
    change b.raws ++ _ = _
    rw [hraws, hvars, hd.bounds, ← List.append_assoc]
  have hcarried : carriedDuals model d.axes a b (ds₁ ++ ds₂) =
      (d.axes.flatMap (·.fills)).map (·.zeroDual) ++ ds₁ ++ (box ++ cuts).map (·.zeroDual) ++
        copiedDuals (model.uncertainty.vars.items.zip d.axes) ds₂ := by
    have hdrop : b.raws.drop ((d.axes.flatMap (·.fills)).length + ds₁.length) = box ++ cuts := by
      rw [hraws, List.append_assoc, ← hsize, ← List.length_append, List.drop_left]
    have htake : b.raws.take (d.axes.flatMap (·.fills)).length = d.axes.flatMap (·.fills) := by
      rw [hraws, List.append_assoc, List.append_assoc, List.take_left]
    simp only [carriedDuals, hbased, htake, hdrop, List.take_left, List.drop_left]
  obtain ⟨hadmits₁, hsum₁⟩ := hds₁.move (himages.moves hd U)
  obtain ⟨hadmits₂, hsum₂⟩ := admits_copiedDuals (represents_entries hd U) hds₂
  rw [hsnd] at hadmits₂ hsum₂
  have hfilled := admitsDuals_append_iff.2
    ⟨_, _, admitsDuals_map_zeroDual (d.axes.flatMap (·.fills)), hadmits₁, rfl⟩
  have htightened := admitsDuals_append_iff.2
    ⟨_, _, hfilled, admitsDuals_map_zeroDual (box ++ cuts), rfl⟩
  rw [hregion, hcarried, weightedSum_append htightened.length_eq,
    weightedSum_append hfilled.length_eq,
    weightedSum_append (admitsDuals_map_zeroDual _).length_eq, weightedSum_map_zeroDual,
    weightedSum_map_zeroDual, zero_add, add_zero, Pi.add_apply, hsum₁, hsum₂,
    UncertaintySet.region, weightedSum_append hds₁.length_eq]
  exact ⟨admitsDuals_append_iff.2 ⟨_, _, htightened, hadmits₂, rfl⟩, rfl⟩

end LiftedModel

end AdjustableRobust
