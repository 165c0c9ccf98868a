import AdjustableRobust.Lifting.Model
import AdjustableRobust.Proofs.Lifting.Axes

/-!
# Lifting the uncertainties

The lifted model gets its variables axis by axis. The axes own all of them, in order, and the bounds
of the variables of an axis are those that the axis admits; the retraction of an uncertainty has the
value that its axis retracts to.
-/

namespace AdjustableRobust

/-! ## Adding uncertainties -/

namespace Bounds

/-- Every lower end bounds. -/
@[simp] theorem lowerEnd?_real (lower? : Option ℝ) : lowerEnd? lower? = lower? := by
  cases lower? <;> simp [lowerEnd?]

/-- Every upper end bounds. -/
@[simp] theorem upperEnd?_real (upper? : Option ℝ) : upperEnd? upper? = upper? := by
  cases upper? <;> simp [upperEnd?]

/-- Finite ends are kept as they are. -/
theorem make_eq_ok {lower? upper? : Option ℝ} {b : Bounds ℝ}
    (h : make lower? upper? = .ok b) : b.lower? = lower? ∧ b.upper? = upper? := by
  rw [make, lowerEnd?_real, upperEnd?_real] at h
  split at h
  · split at h
    · cases h
    · obtain rfl := Except.ok.inj h
      exact ⟨rfl, rfl⟩
  · obtain rfl := Except.ok.inj h
    exact ⟨rfl, rfl⟩
  · obtain rfl := Except.ok.inj h
    exact ⟨rfl, rfl⟩

/-- Two ends in the right order are bounds. -/
theorem make_of_le {l u : ℝ} (h : l ≤ u) :
    make (some l) (some u) = .ok ⟨some l, some u, by rintro _ _ ⟨⟩ ⟨⟩; exact not_lt.2 h⟩ := by
  rw [make, lowerEnd?_real, upperEnd?_real]
  exact dif_neg (not_lt.2 h)

end Bounds

namespace Store

variable {κ : EntityKind} {β : Type}

/-- A new entity is the last entry. -/
theorem entries_add (s : Store κ β) (x : β) :
    (s.add x).2.entries = s.entries ++ [((s.add x).1, x)] := by
  rw [entries, items_add, List.zipIdx_append, List.map_append, entries, Nat.zero_add]
  rfl

end Store

namespace RobustModel

/-- A new uncertainty is the last one, and has the given period and bounds. Without decisions
nothing else changes. -/
theorem addUncertainty_eq_ok {m m' : RobustModel ℝ} {name : String} {period? : Option ℕ}
    {lower? upper? : Option ℝ} {h : UncertaintyRef}
    (hrun : m.addUncertainty name period? lower? upper? = .ok (h, m')) :
    m'.uncertainty.alternatives = m.uncertainty.alternatives ∧
      (m.decisions.items = [] → m' = { m with uncertainty := m'.uncertainty }) ∧
      ∃ v : UncertaintyVariable ℝ, v.period? = period? ∧ v.bounds.lower? = lower? ∧
        v.bounds.upper? = upper? ∧
        m'.uncertainty.vars.entries = m.uncertainty.vars.entries ++ [(h, v)] := by
  rw [addUncertainty, bind_eq_ok_iff] at hrun
  obtain ⟨b, hb, hrun⟩ := hrun
  obtain ⟨hlower, hupper⟩ := Bounds.make_eq_ok hb
  obtain ⟨rfl, rfl⟩ := Prod.mk.inj (pure_eq_ok_iff.1 hrun)
  refine ⟨rfl, fun hnone => ?_, ⟨name, period?, b⟩, rfl, hlower, hupper, Store.entries_add _ _⟩
  obtain ⟨mname, ⟨owner, epoch, items⟩, set, cs, o?, d?⟩ := m
  obtain rfl : items = [] := hnone
  cases period? <;> rfl

/-- Constraining an alternative changes nothing but its constraints. -/
theorem addUncertaintyConstraintTo_eq_ok {m m' : RobustModel ℝ} {set : ConstraintSetRef}
    {name : String} {c : RawConstraint (ConicExpr ℝ UncertaintyRef)}
    (hrun : m.addUncertaintyConstraintTo set name c = .ok m') :
    m' = { m with uncertainty := { m.uncertainty with alternatives :=
      { m.uncertainty.alternatives with
        items := m.uncertainty.alternatives.items.modify set.slot (·.add name c) } } } := by
  rw [addUncertaintyConstraintTo, bind_eq_ok_iff] at hrun
  obtain ⟨s, hs, hrun⟩ := hrun
  obtain rfl := pure_eq_ok_iff.1 hrun
  rw [UncertaintySet.addConstraintTo_eq_ok hs]

/-- Without a handle it is the last alternative that is constrained. -/
theorem exists_addUncertaintyConstraintTo {m m' : RobustModel ℝ} {name : String}
    {c : RawConstraint (ConicExpr ℝ UncertaintyRef)}
    (hrun : m.addUncertaintyConstraint name c = .ok m') :
    ∃ set : ConstraintSetRef, set.slot = m.uncertainty.alternatives.size - 1 ∧
      m.addUncertaintyConstraintTo set name c = .ok m' := by
  rw [addUncertaintyConstraint, bind_eq_ok_iff] at hrun
  obtain ⟨s, hs, hrun⟩ := hrun
  obtain ⟨set, hslot, hs⟩ := UncertaintySet.exists_addConstraintTo hs
  exact ⟨set, hslot, bind_eq_ok_iff.2 ⟨s, hs, hrun⟩⟩

/-- The uncertainties that are revealed up to a period, entry by entry. -/
theorem revealedBy_eq_flatMap (m : RobustModel ℝ) (period : ℕ) :
    m.revealedBy period = m.uncertainty.vars.entries.flatMap fun e =>
      if e.2.period?.any (· ≤ period) then [e.1] else [] := by
  rw [revealedBy]
  generalize m.uncertainty.vars.entries = es
  induction es with
  | nil => rfl
  | cons e es ih =>
    rw [List.flatMap_cons, ← ih, List.filter_cons]
    cases h : e.2.period?.any (· ≤ period) <;> simp [h]

end RobustModel

/-! ## Axes of a draft -/

namespace LiftedModel

/-- An uncertainty of the base model with its series, if it has one. -/
abbrev Row := UncertaintyVariable ℝ × Option (BreakpointSeries ℝ)

/-- An axis with its retraction and its variables lifts an uncertainty. -/
structure LiftsRow (row : Row) (axis : LiftedAxis ℝ) (retraction : AffineExpr ℝ UncertaintyRef)
    (es : List (UncertaintyRef × UncertaintyVariable ℝ)) : Prop where
  series : axis.series? = row.2
  vars : axis.vars = es.map (·.1)
  length : axis.vars.length = axis.series?.elim 1 (·.numPieces)
  occurs : retraction.vars = axis.vars
  retract : ∀ U, retraction.eval U = axis.retract U
  rows : es.flatMap (fun e => e.2.bounds.rows e.1) = axis.rows row.1
  /-- The lifted variables are revealed along with the uncertainty. -/
  periods : ∀ e ∈ es, e.2.period? = row.1.period?

/-- The lifted variables of an axis if its uncertainty is revealed up to a period. -/
def revealedPieces (period : ℕ) (v : UncertaintyVariable ℝ) (axis : LiftedAxis ℝ) :
    List UncertaintyRef :=
  if v.period?.any (· ≤ period) then axis.vars else []

/-- A draft lifts the first uncertainties of the base model. -/
structure Draft.Lifts (d : Draft ℝ) (rows : List Row) : Prop where
  axes : List.Forall₂ (fun row axis => LiftedAxis.series? axis = row.2 ∧
    axis.vars.length = axis.series?.elim 1 (·.numPieces)) rows d.axes
  retractions : List.Forall₂ (fun (axis : LiftedAxis ℝ) (e : AffineExpr ℝ UncertaintyRef) =>
    e.vars = axis.vars ∧ ∀ U, e.eval U = axis.retract U) d.axes d.retractions
  /-- The axes own all variables. -/
  handles : d.axes.flatMap (·.vars) = d.lifted.uncertainty.vars.handles
  bounds : d.lifted.uncertainty.vars.entries.flatMap (fun e => e.2.bounds.rows e.1) =
    (rows.zip d.axes).flatMap fun p => p.2.rows p.1.1
  alternatives : d.lifted.uncertainty.alternatives.items = [.empty]
  decisions : d.lifted.decisions.items = []
  constraints : d.lifted.constraints = []
  /-- All variables of an axis are revealed along with its uncertainty. -/
  revealed : ∀ period, d.lifted.revealedBy period =
    (rows.zip d.axes).flatMap fun p => revealedPieces period p.1.1 p.2

namespace Draft

variable {d d' : Draft ℝ} {rows : List Row} {row : Row}

/-- The empty draft lifts nothing. -/
theorem lifts_empty (name : String) (owner : OwnerId) :
    Draft.Lifts ⟨.new name owner, [], []⟩ [] where
  axes := .nil
  retractions := .nil
  handles := rfl
  bounds := rfl
  alternatives := rfl
  decisions := rfl
  constraints := rfl
  revealed _ := rfl

private theorem forall₂_concat {α β : Type} {R : α → β → Prop} {as : List α} {bs : List β} {a : α}
    {b : β} : List.Forall₂ R (as ++ [a]) (bs ++ [b]) ↔ List.Forall₂ R as bs ∧ R a b := by
  induction as generalizing bs with
  | nil =>
    cases bs with
    | nil => simp
    | cons b' bs => simp [List.forall₂_cons]
  | cons a' as ih =>
    cases bs with
    | nil => simp [List.forall₂_cons]
    | cons b' bs => simp [List.forall₂_cons, ih, and_assoc]

/-- An axis for the next uncertainty. -/
theorem Lifts.concat (h : d.Lifts rows) {axis : LiftedAxis ℝ}
    {retraction : AffineExpr ℝ UncertaintyRef}
    {es : List (UncertaintyRef × UncertaintyVariable ℝ)}
    (hrow : LiftsRow row axis retraction es) (haxes : d'.axes = d.axes ++ [axis])
    (hretractions : d'.retractions = d.retractions ++ [retraction])
    (hentries : d'.lifted.uncertainty.vars.entries = d.lifted.uncertainty.vars.entries ++ es)
    (halternatives : d'.lifted.uncertainty.alternatives = d.lifted.uncertainty.alternatives)
    (hrest : d'.lifted = { d.lifted with uncertainty := d'.lifted.uncertainty }) :
    d'.Lifts (rows ++ [row]) where
  axes := by
    rw [haxes, forall₂_concat]
    exact ⟨h.axes, hrow.series, hrow.length⟩
  retractions := by
    rw [haxes, hretractions, forall₂_concat]
    exact ⟨h.retractions, hrow.occurs, hrow.retract⟩
  handles := by
    rw [haxes, List.flatMap_append, h.handles, ← Store.map_fst_entries, ← Store.map_fst_entries,
      hentries, List.map_append, List.flatMap_singleton, hrow.vars]
  bounds := by
    rw [hentries, List.flatMap_append, h.bounds, hrow.rows, haxes,
      List.zip_append h.axes.length_eq, List.flatMap_append, List.zip_cons_cons, List.zip_nil_left,
      List.flatMap_singleton]
  alternatives := by rw [halternatives, h.alternatives]
  decisions := by rw [hrest, h.decisions]
  constraints := by rw [hrest, h.constraints]
  revealed period := by
    have hnew : (es.flatMap fun e => if e.2.period?.any (· ≤ period) then [e.1] else []) =
        revealedPieces period row.1 axis := by
      have hfilter : ∀ e ∈ es, (if e.2.period?.any (· ≤ period) then [e.1] else []) =
          if row.1.period?.any (· ≤ period) then [e.1] else [] := fun e he => by
        rw [hrow.periods e he]
      rw [List.flatMap_congr hfilter, revealedPieces, hrow.vars]
      split
      · exact List.map_eq_flatMap.symm
      · exact List.flatMap_eq_nil_iff.2 fun _ _ => rfl
    rw [RobustModel.revealedBy_eq_flatMap, hentries, List.flatMap_append, hnew,
      ← RobustModel.revealedBy_eq_flatMap, h.revealed, haxes, List.zip_append h.axes.length_eq,
      List.flatMap_append, List.zip_cons_cons, List.zip_nil_left, List.flatMap_singleton]

private theorem foldl_addTerm_one (vs : List UncertaintyRef) (e : AffineExpr ℝ UncertaintyRef) :
    (vs.foldl (fun e v => e.addTerm 1 v) e).vars = e.vars ++ vs ∧
      ∀ U, (vs.foldl (fun e v => e.addTerm 1 v) e).eval U = e.eval U + (vs.map U).sum := by
  induction vs generalizing e with
  | nil => simp
  | cons v vs ih =>
    obtain ⟨hvars, heval⟩ := ih (e.addTerm 1 v)
    rw [List.foldl_cons]
    constructor
    · rw [hvars, AffineExpr.vars_addTerm, List.append_assoc, List.singleton_append]
    · intro U
      rw [heval, AffineExpr.eval_addTerm, List.map_cons, List.sum_cons]
      ring

private theorem foldlM_addPiece_eq_ok {s : BreakpointSeries ℝ} {v : UncertaintyVariable ℝ}
    {m m' : RobustModel ℝ} {is : List ℕ} {pieces : List UncertaintyRef}
    (hnone : m.decisions.items = [])
    (hrun : is.foldlM (fun (p : RobustModel ℝ × List UncertaintyRef) i => do
      let (piece, lifted) ← RobustModel.addUncertainty p.1 s!"{v.name}_L{i}" v.period?
        (some 0) (some (s.pieceWidth i))
      return (lifted, p.2 ++ [piece])) (m, []) = .ok (m', pieces)) :
    m'.uncertainty.alternatives = m.uncertainty.alternatives ∧
      m' = { m with uncertainty := m'.uncertainty } ∧
      ∃ es, pieces = es.map (·.1) ∧
        m'.uncertainty.vars.entries = m.uncertainty.vars.entries ++ es ∧
        (∀ e ∈ es, e.2.period? = v.period?) ∧
        List.Forall₂ (fun i (e : UncertaintyRef × UncertaintyVariable ℝ) =>
          e.2.bounds.lower? = some 0 ∧ e.2.bounds.upper? = some (s.pieceWidth i)) is es := by
  refine foldlM_prefix (I := fun is (p : RobustModel ℝ × List UncertaintyRef) =>
    p.1.uncertainty.alternatives = m.uncertainty.alternatives ∧
      p.1 = { m with uncertainty := p.1.uncertainty } ∧
      ∃ es, p.2 = es.map (·.1) ∧
        p.1.uncertainty.vars.entries = m.uncertainty.vars.entries ++ es ∧
        (∀ e ∈ es, e.2.period? = v.period?) ∧
        List.Forall₂ (fun i (e : UncertaintyRef × UncertaintyVariable ℝ) =>
          e.2.bounds.lower? = some 0 ∧ e.2.bounds.upper? = some (s.pieceWidth i)) is es)
    ?_ ⟨rfl, rfl, [], rfl, (List.append_nil _).symm, by simp, .nil⟩ hrun
  rintro is i - p p' - ⟨halternatives, hrest, es, hpieces, hentries, hperiods, hes⟩ hstep
  rw [bind_eq_ok_iff] at hstep
  obtain ⟨⟨piece, lifted⟩, hadd, hstep⟩ := hstep
  rw [pure_eq_ok_iff] at hstep
  subst hstep
  obtain ⟨hkept, hsame, w, hperiod, hlower, hupper, hnew⟩ := RobustModel.addUncertainty_eq_ok hadd
  refine ⟨hkept.trans halternatives, ?_, es ++ [(piece, w)], ?_, ?_, ?_, ?_⟩
  · rw [hsame (by rw [hrest, hnone]), hrest]
  · rw [hpieces, List.map_append, List.map_singleton]
  · rw [hnew, hentries, List.append_assoc]
  · exact List.forall_mem_append.2 ⟨hperiods, List.forall_mem_singleton.2 hperiod⟩
  · rw [forall₂_concat]
    exact ⟨hes, hlower, hupper⟩

private theorem rows_pieces {w : ℕ → ℝ} {is : List ℕ}
    {es : List (UncertaintyRef × UncertaintyVariable ℝ)} (hes : List.Forall₂
      (fun i (e : UncertaintyRef × UncertaintyVariable ℝ) =>
        e.2.bounds.lower? = some 0 ∧ e.2.bounds.upper? = some (w i)) is es) :
    es.flatMap (fun e => e.2.bounds.rows e.1) = ((es.map (·.1)).zip is).flatMap fun x =>
      [⟨.geq, .ofAffine ⟨-0, .var x.1⟩⟩, ⟨.leq, .ofAffine ⟨-w x.2, .var x.1⟩⟩] := by
  induction hes with
  | nil => rfl
  | cons he _ ih =>
    rw [List.flatMap_cons, ih, List.map_cons, List.zip_cons_cons, List.flatMap_cons, Bounds.rows,
      he.1, he.2]
    rfl

/-- A lifted axis for the next uncertainty. -/
theorem lifts_of_addPieces (h : d.Lifts rows) {v : UncertaintyVariable ℝ}
    {s : BreakpointSeries ℝ} (hrun : d.addPieces v s = .ok d') :
    d'.Lifts (rows ++ [(v, some s)]) := by
  rw [addPieces, bind_eq_ok_iff] at hrun
  obtain ⟨⟨lifted, pieces⟩, hfold, hrun⟩ := hrun
  rw [pure_eq_ok_iff] at hrun
  subst hrun
  obtain ⟨halternatives, hrest, es, rfl, hentries, hperiods, hes⟩ :=
    foldlM_addPiece_eq_ok h.decisions hfold
  refine h.concat ⟨rfl, rfl, ?_, ?_, fun U => ?_, rows_pieces hes, hperiods⟩ rfl rfl hentries
    halternatives hrest
  · simpa using hes.length_eq.symm
  · rw [(foldl_addTerm_one _ _).1, AffineExpr.vars_const, List.nil_append]
  · rw [(foldl_addTerm_one _ _).2, AffineExpr.eval_const]
    rfl

/-- A copied axis for the next uncertainty. -/
theorem lifts_of_addCopy (h : d.Lifts rows) {v : UncertaintyVariable ℝ}
    (hrun : d.addCopy v = .ok d') : d'.Lifts (rows ++ [(v, none)]) := by
  rw [addCopy, bind_eq_ok_iff] at hrun
  obtain ⟨⟨copy, lifted⟩, hadd, hrun⟩ := hrun
  rw [pure_eq_ok_iff] at hrun
  subst hrun
  obtain ⟨halternatives, hrest, w, hperiod, hlower, hupper, hentries⟩ :=
    RobustModel.addUncertainty_eq_ok hadd
  refine h.concat ⟨rfl, rfl, rfl, rfl, fun U => ?_, ?_,
    List.forall_mem_singleton.2 hperiod⟩ rfl rfl hentries halternatives (hrest h.decisions)
  · simp [LiftedAxis.retract, LiftedAxis.origin]
  · simp [LiftedAxis.rows, Bounds.rows, hlower, hupper]

end Draft

/-! ## All uncertainties -/

/-- The draft lifts all uncertainties of a set. -/
structure Draft.IsOver (d : Draft ℝ) (set : UncertaintySet ℝ) : Prop where
  axes : (⟨d.axes⟩ : Lifting ℝ).IsOver set
  retractions : List.Forall₂ (fun (axis : LiftedAxis ℝ) (e : AffineExpr ℝ UncertaintyRef) =>
    e.vars = axis.vars ∧ ∀ U, e.eval U = axis.retract U) d.axes d.retractions
  handles : d.axes.flatMap (·.vars) = d.lifted.uncertainty.vars.handles
  bounds : d.lifted.uncertainty.vars.entries.flatMap (fun e => e.2.bounds.rows e.1) =
    (set.vars.items.zip d.axes).flatMap fun p => p.2.rows p.1
  alternatives : d.lifted.uncertainty.alternatives.items = [.empty]
  decisions : d.lifted.decisions.items = []
  constraints : d.lifted.constraints = []
  revealed : ∀ period, d.lifted.revealedBy period =
    (set.vars.items.zip d.axes).flatMap fun p => revealedPieces period p.1 p.2

/-- The bounds of the variables admit what the axes admit. -/
theorem Draft.IsOver.admits {d : Draft ℝ} {set : UncertaintySet ℝ} (h : d.IsOver set)
    (U : UncertaintyRef → ℝ) :
    (∀ e ∈ d.lifted.uncertainty.vars.entries, e.2.bounds.admits (U e.1) = true) ↔
      List.Forall₂ (fun (v : UncertaintyVariable ℝ) (axis : LiftedAxis ℝ) =>
        axis.Admits v (axis.vars.map U)) set.vars.items d.axes := by
  have hrows : (∀ e ∈ d.lifted.uncertainty.vars.entries, e.2.bounds.admits (U e.1) = true) ↔
      ∀ p ∈ set.vars.items.zip d.axes, ∀ c ∈ p.2.rows p.1, c.Holds U := by
    rw [← List.forall_mem_flatMap, ← h.bounds, List.forall_mem_flatMap]
    exact forall₂_congr fun e _ => Bounds.admits_iff_rows e.2.bounds e.1 U
  rw [hrows]
  have haxes : List.Forall₂ (fun v axis => LiftedAxis.Represents axis v) set.vars.items d.axes :=
    h.axes.represents
  generalize set.vars.items = vs at haxes
  generalize d.axes = axes at haxes
  induction haxes with
  | nil => simp
  | cons haxis _ ih =>
    rw [List.zip_cons_cons, List.forall_mem_cons, List.forall₂_cons, haxis.admits_iff_rows]
    exact and_congr_right' ih

/-- The series of an uncertainty has it as its direction. -/
theorem assignSeries_eq_ok {set : UncertaintySet ℝ} {series : List (BreakpointSeries ℝ)}
    {table : List (Option (BreakpointSeries ℝ))} (hrun : assignSeries set series = .ok table) :
    table.length = set.numVariables ∧
      ∀ i s, table[i]? = some (some s) →
        s ∈ series ∧ ∃ u v, s.axis = .ok u ∧ u.slot = i ∧ set.variableAt u = .ok v := by
  refine foldlM_invariant (I := fun table : List (Option (BreakpointSeries ℝ)) =>
    table.length = set.numVariables ∧
      ∀ i s, table[i]? = some (some s) →
        s ∈ series ∧ ∃ u v, s.axis = .ok u ∧ u.slot = i ∧ set.variableAt u = .ok v)
    ?_ ?_ hrun
  · rintro table s hs table' ⟨hlength, htable⟩ hstep
    simp only [bind_eq_ok_iff, PolicyError.fromModel, PolicyError.fromStore, mapError_eq_ok_iff]
      at hstep
    obtain ⟨u, hu, v, hv, s?, -, hstep⟩ := hstep
    cases s? with
    | some _ => exact absurd hstep throw_ne_ok
    | none =>
      rw [pure_eq_ok_iff] at hstep
      subst hstep
      refine ⟨by rw [List.length_set, hlength], fun i s' hi => ?_⟩
      rw [List.getElem?_set] at hi
      split at hi
      · next hslot =>
        split at hi
        · obtain rfl : s = s' := by simpa using hi
          exact ⟨hs, u, v, hu, hslot, hv⟩
        · cases hi
      · exact htable i s' hi
  · refine ⟨List.length_replicate, fun i s hi => ?_⟩
    have hmem := List.eq_of_mem_replicate (List.mem_of_getElem? hi)
    cases hmem

private theorem series_of_lifts {d : Draft ℝ} {vs : List (UncertaintyVariable ℝ)}
    {table : List (Option (BreakpointSeries ℝ))} (hd : d.Lifts (vs.zip table)) {i : ℕ}
    (hi : i < d.axes.length) :
    table[i]? = some d.axes[i].series? ∧
      d.axes[i].vars.length = d.axes[i].series?.elim 1 (·.numPieces) := by
  have hi' : i < (vs.zip table).length := hd.axes.length_eq ▸ hi
  have hrow := hd.axes.get hi' hi
  rw [List.length_zip, lt_min_iff] at hi'
  simp only [List.get_eq_getElem, List.getElem_zip] at hrow
  exact ⟨by rw [hrow.1, List.getElem?_eq_getElem hi'.2], hrow.2⟩

private theorem isOver_of_lifts {model : RobustModel ℝ} {series : List (BreakpointSeries ℝ)}
    {table : List (Option (BreakpointSeries ℝ))} {d : Draft ℝ}
    (hseries : ∀ s ∈ series, s.IsOver model.uncertainty)
    (hlength : table.length = model.uncertainty.vars.items.length)
    (hassigned : ∀ (i : ℕ) s, table[i]? = some (some s) →
      s ∈ series ∧ ∃ u v, s.axis = .ok u ∧ u.slot = i ∧ model.uncertainty.variableAt u = .ok v)
    (hd : d.Lifts (model.uncertainty.vars.items.zip table)) :
    (⟨d.axes⟩ : Lifting ℝ).IsOver model.uncertainty := by
  have hseriesAt : ∀ i (hi : i < d.axes.length) s, d.axes[i].series? = some s →
      s ∈ series ∧ ∃ u v, s.axis = .ok u ∧ u.slot = i ∧ model.uncertainty.variableAt u = .ok v :=
    fun i hi s hs => hassigned i s (by rw [(series_of_lifts hd hi).1, hs])
  have hcount : model.uncertainty.vars.items.length = d.axes.length := by
    rw [← hd.axes.length_eq, List.length_zip, hlength, min_self]
  refine ⟨List.forall₂_iff_get.2 ⟨hcount, fun i hi hi' => ?_⟩, fun i axis s haxis hs => ?_⟩
  · refine ⟨fun s hs => ?_, (series_of_lifts hd hi').2⟩
    obtain ⟨hmem, u, v, hu, hslot, hv⟩ := hseriesAt i hi' s hs
    obtain ⟨hordered, -, hlower, hupper⟩ := (hseries s hmem).along_axis hu hv
    have hget := (UncertaintySet.variableAt_eq_ok_iff.1 hv).2.2
    rw [hslot, List.getElem?_eq_getElem hi, Option.some.injEq] at hget
    rw [List.get_eq_getElem, hget]
    exact ⟨hordered, hlower, hupper⟩
  · obtain ⟨hi, rfl⟩ := List.getElem?_eq_some_iff.1 haxis
    obtain ⟨hmem, u, v, hu, hslot, hv⟩ := hseriesAt i hi s hs
    exact ⟨u, ((hseries s hmem).along_axis hu hv).2.1, hslot⟩

/-- Lifting the uncertainties of a model lifts all of them. -/
theorem liftUncertainties_eq_ok {model : RobustModel ℝ} {series : List (BreakpointSeries ℝ)}
    {owner : OwnerId} {d : Draft ℝ} (hseries : ∀ s ∈ series, s.IsOver model.uncertainty)
    (hrun : liftUncertainties model series owner = .ok d) : d.IsOver model.uncertainty := by
  rw [liftUncertainties, bind_eq_ok_iff] at hrun
  obtain ⟨table, htable, hrun⟩ := hrun
  rw [PolicyError.fromModel, mapError_eq_ok_iff] at hrun
  obtain ⟨hlength, hassigned⟩ := assignSeries_eq_ok htable
  have hd : d.Lifts (model.uncertainty.vars.items.zip table) := by
    refine foldlM_prefix (I := fun rows d => Draft.Lifts d rows) ?_ (Draft.lifts_empty _ _) hrun
    rintro rows ⟨v, s?⟩ - d d' - hd hstep
    cases s? with
    | some s => exact Draft.lifts_of_addPieces hd hstep
    | none => exact Draft.lifts_of_addCopy hd hstep
  have hfst : (model.uncertainty.vars.items.zip table).map (·.1) =
      model.uncertainty.vars.items := List.map_fst_zip hlength.ge
  refine ⟨isOver_of_lifts hseries hlength hassigned hd, hd.retractions, hd.handles, ?_,
    hd.alternatives, hd.decisions, hd.constraints, fun period => ?_⟩
  · rw [hd.bounds]
    nth_rewrite 2 [← hfst]
    rw [List.zip_map_left, List.flatMap_map]
    rfl
  · rw [hd.revealed]
    nth_rewrite 2 [← hfst]
    rw [List.zip_map_left, List.flatMap_map]
    rfl

end LiftedModel

end AdjustableRobust
