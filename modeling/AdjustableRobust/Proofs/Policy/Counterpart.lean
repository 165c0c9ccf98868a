import AdjustableRobust.Proofs.Policy.Decisions
import AdjustableRobust.Proofs.Policy.Dualization

/-!
# What the counterpart of an expression encodes

The duals of an alternative and their objective take exactly the values of certificates for the
expression under the policies. The variable that the counterpart introduces takes exactly the values
that are below certified values, in the sense of the mode.
-/

namespace AdjustableRobust

/-- How a value relates to one value for each alternative: below all of them, or below their
mean. -/
noncomputable def UncertaintyMode.Below : UncertaintyMode → List ℝ → ℝ → Prop
  | .union, cs, v => ∀ c ∈ cs, v ≤ c
  | .average, cs, v => v ≤ cs.sum * (1 / (Nat.max cs.length 1 : ℝ))
  | .stochastic, _, _ => True

/-- The value is below values that are certified for the alternatives. -/
def UncertainExpr.CertifiedBelow (e : UncertainExpr ℝ) (model : RobustModel ℝ)
    (p : PolicyVariables) (ω : ConicRef → ℝ) (v : ℝ) : Prop :=
  ∃ cs, List.Forall₂
      (fun alternative c =>
        Certifies (model.uncertainty.region alternative) (e.underPolicies model p ω) c)
      model.uncertainty.alternatives.items cs ∧
    e.mode.Below cs v

/-- Values of the variables of a counterpart: the value itself, and a certificate for each
alternative. -/
structure Block where
  /-- Value of the variable that the counterpart introduces. -/
  epigraph : ℝ
  /-- The certificates, in the order of the alternatives. -/
  certificates : List Certificate

/-- All values of a counterpart in a row. -/
def Block.values (b : Block) : List ℝ := b.epigraph :: b.certificates.flatMap (·.values)

/-- The values are admissible for an expression: the certificates are valid, and the value is below
what they certify. -/
structure Block.Valid (b : Block) (e : UncertainExpr ℝ) (model : RobustModel ℝ)
    (p : PolicyVariables) (ω : ConicRef → ℝ) : Prop where
  certificates : List.Forall₂ (fun alternative (k : Certificate) =>
    k.Valid (model.uncertainty.region alternative) (e.underPolicies model p ω))
      model.uncertainty.alternatives.items b.certificates
  below : e.mode.Below (b.certificates.map (·.value)) b.epigraph

/-- What is below certified values are the values of admissible counterparts. -/
theorem UncertainExpr.certifiedBelow_iff_exists_block {e : UncertainExpr ℝ}
    {model : RobustModel ℝ} {p : PolicyVariables} {ω : ConicRef → ℝ} {v : ℝ} :
    e.CertifiedBelow model p ω v ↔ ∃ b : Block, b.Valid e model p ω ∧ b.epigraph = v := by
  constructor
  · rintro ⟨cs, hcs, hbelow⟩
    have hks : ∃ ks : List Certificate, List.Forall₂ (fun alternative (k : Certificate) =>
        k.Valid (model.uncertainty.region alternative) (e.underPolicies model p ω))
          model.uncertainty.alternatives.items ks ∧ ks.map (·.value) = cs := by
      clear hbelow
      generalize model.uncertainty.alternatives.items = alternatives at hcs ⊢
      induction hcs with
      | nil => exact ⟨[], .nil, rfl⟩
      | cons hc _ ih =>
        obtain ⟨k, hk, rfl⟩ := certifies_iff.1 hc
        obtain ⟨ks, hks, rfl⟩ := ih
        exact ⟨k :: ks, .cons hk hks, rfl⟩
    obtain ⟨ks, hks, rfl⟩ := hks
    exact ⟨⟨v, ks⟩, ⟨hks, hbelow⟩, rfl⟩
  · rintro ⟨b, hb, rfl⟩
    refine ⟨b.certificates.map (·.value), ?_, hb.below⟩
    rw [List.forall₂_map_right_iff]
    exact hb.certificates.imp fun _ k hk => certifies_iff.2 ⟨k, hk, rfl⟩

namespace UncertainExpr.CertifiedBelow

variable {e : UncertainExpr ℝ} {model : RobustModel ℝ} {p : PolicyVariables} {ω : ConicRef → ℝ}
variable {v : ℝ}

private theorem certified_le {alternative : ConstraintSet ℝ} {r : List ℝ} {c : ℝ}
    (hr : model.uncertainty.Realizes alternative r)
    (hc : Certifies (model.uncertainty.region alternative) (e.underPolicies model p ω) c) :
    c ≤ e.underPolicies model p ω (entryAt r) :=
  hc.le (UncertaintySet.realizes_iff.1 hr).2.2

/-- In union mode, what is below certified values is below the expression at every realization. -/
theorem le_union (h : e.CertifiedBelow model p ω v) (hmode : e.mode = .union)
    {alternative : ConstraintSet ℝ} (halt : alternative ∈ model.uncertainty.alternatives.items)
    {r : List ℝ} (hr : model.uncertainty.Realizes alternative r) :
    v ≤ e.underPolicies model p ω (entryAt r) := by
  obtain ⟨cs, hcs, hbelow⟩ := h
  rw [hmode] at hbelow
  obtain ⟨c, hc, hcertified⟩ := exists_of_forall₂_left hcs halt
  exact (hbelow c hc).trans (certified_le hr hcertified)

/-- In average mode, what is below certified values is below the mean of the expression over any
choice of one realization for each alternative. -/
theorem le_average (h : e.CertifiedBelow model p ω v) (hmode : e.mode = .average)
    {rs : List (List ℝ)}
    (hrs : List.Forall₂ model.uncertainty.Realizes model.uncertainty.alternatives.items rs) :
    v ≤ (rs.map fun r => e.underPolicies model p ω (entryAt r)).sum / rs.length := by
  obtain ⟨cs, hcs, hbelow⟩ := h
  rw [hmode, UncertaintyMode.Below, ← hcs.length_eq, hrs.length_eq] at hbelow
  have hsum : cs.sum ≤ (rs.map fun r => e.underPolicies model p ω (entryAt r)).sum := by
    clear hbelow
    generalize model.uncertainty.alternatives.items = alternatives at hcs hrs
    induction hcs generalizing rs with
    | nil => simp [List.forall₂_nil_left_iff.1 hrs]
    | cons hc _ ih =>
      obtain ⟨r, rs', hr, hrs', rfl⟩ := List.forall₂_cons_left_iff.1 hrs
      rw [List.map_cons, List.sum_cons, List.sum_cons]
      exact add_le_add (certified_le hr hc) (ih hrs')
  rcases rs with _ | ⟨r, rs⟩
  · simpa [List.forall₂_nil_right_iff.1 hrs, hcs] using hbelow.trans
      (mul_le_mul_of_nonneg_right hsum (by simp))
  · refine hbelow.trans ?_
    have hmax : Nat.max (r :: rs).length 1 = (r :: rs).length := Nat.max_eq_left (by simp)
    rw [mul_one_div, hmax]
    exact div_le_div_of_nonneg_right hsum (Nat.cast_nonneg _)

end UncertainExpr.CertifiedBelow

namespace Counterpart

variable {model : RobustModel ℝ} {p : PolicyVariables} {m m' : ConicModel ℝ}
variable {e : UncertainExpr ℝ} {name : String}

/-- What adding an expression to the dual of an alternative shows about the two. -/
structure ResolvesIn (model : RobustModel ℝ) (p : PolicyVariables) (e : UncertainExpr ℝ)
    (alternative : ConstraintSet ℝ) : Prop where
  refers : e.RefersTo model
  affine : e.AffineUnder model p
  slots : ∀ c ∈ alternative.constraints, ∀ v ∈ c.expression.vars, v.slot < model.numUncertainties

/-- Requiring the residuals to vanish. -/
theorem requireResiduals_adds {l : Lagrangian ℝ} {name : String → String} {u : Unit}
    (hlen : l.residuals.length = model.numUncertainties)
    (hrun : requireResiduals model l name m = .ok u m') :
    m.AddsConstraints m' fun ω => ∀ e ∈ l.residuals, e.eval ω = 0 :=
  (forM_requireAffine_adds hrun).of_iff fun ω =>
    Lagrangian.forall_mem_zip_residuals_iff hlen (P := fun e => e.eval ω = 0)

/-- The dual of minimizing the expression over an alternative is appended. -/
theorem dualObjective_appends {set : ConstraintSetRef} {o : AffineExpr ℝ ConicRef}
    (hrun : dualObjective model p e name set m = .ok o m') :
    ∃ alternative, model.uncertainty.alternativeAt set = .ok alternative ∧
      ResolvesIn model p e alternative ∧
      AppendsDual m m' o (model.uncertainty.region alternative) (e.underPolicies model p) := by
  simp only [dualObjective, Step.bind_eq_ok_iff, Step.ofExcept_eq_ok_iff, Step.pure_eq_ok_iff]
    at hrun
  obtain ⟨l₁, m₁, hdual, l₂, _, ⟨hadd, rfl⟩, _, _, hres, rfl, rfl⟩ := hrun
  obtain ⟨alternative, halt, hd⟩ := dualizeAlternative_eq_ok hdual
  obtain ⟨hrefers, hgrows⟩ := addExpression_eq_ok hadd
  have hsize : l₁.residuals.length = model.numUncertainties := by
    rw [hd.residuals, Lagrangian.zero, List.length_replicate]
  refine ⟨alternative, halt, ⟨hrefers, fun ω => hsize ▸ hgrows.affine ω, fun c hc v hv => ?_⟩,
    hd.appendsDual hgrows (requireResiduals_adds (hgrows.1.trans hsize) hres)⟩
  have hslot := hd.slots c.toRawConstraint (List.mem_append_left _ (List.mem_map_of_mem hc)) v hv
  rwa [Lagrangian.zero, List.length_replicate] at hslot

/-- The duals of an alternative and their objective take exactly the values of certificates. -/
theorem dualObjective_writes {set : ConstraintSetRef} {o : AffineExpr ℝ ConicRef}
    (hp : p.DeclaredIn m) (hrun : dualObjective model p e name set m = .ok o m') :
    ∃ alternative, model.uncertainty.alternativeAt set = .ok alternative ∧
      ResolvesIn model p e alternative ∧
      m.Writes m' o.eval fun ω vs v => ∃ k : Certificate,
        k.Valid (model.uncertainty.region alternative) (e.underPolicies model p ω) ∧
          vs = k.values ∧ k.value = v := by
  obtain ⟨alternative, halt, hresolves, happends⟩ := dualObjective_appends hrun
  exact ⟨alternative, halt, hresolves,
    happends.writes fun ω ω' ha => e.underPolicies_congr hp ha⟩

/-- The certificate is valid for the alternative and, in union mode, not below the value. -/
private abbrev CertifiedAbove (e : UncertainExpr ℝ) (model : RobustModel ℝ) (p : PolicyVariables)
    (ω : ConicRef → ℝ) (y : ℝ) (alternative : ConstraintSet ℝ) (k : Certificate) : Prop :=
  k.Valid (model.uncertainty.region alternative) (e.underPolicies model p ω) ∧
    (e.mode = .union → y ≤ k.value)

private theorem certifiedAbove_congr {ω ω' : ConicRef → ℝ} (hp : p.DeclaredIn m)
    (ha : m.Agree ω ω') : CertifiedAbove e model p ω' = CertifiedAbove e model p ω := by
  funext y alternative k
  rw [CertifiedAbove, CertifiedAbove, e.underPolicies_congr hp ha]

private theorem boundedObjective_writes {epigraph : AffineExpr ℝ ConicRef} {label : String}
    {set : ConstraintSetRef} {o : AffineExpr ℝ ConicRef} (hp : p.DeclaredIn m)
    (hepigraph : ∀ ω ω', m.Agree ω ω' → epigraph.eval ω' = epigraph.eval ω)
    (hrun : (do
      let objective ← dualObjective model p e name set
      if e.mode = .union then
        require label (epigraph.relate .leq objective).toConic
      return objective : Step (ConicModel ℝ) (PolicyError ℝ) _) m = .ok o m') :
    ∃ alternative, model.uncertainty.alternativeAt set = .ok alternative ∧
      ResolvesIn model p e alternative ∧
      m.Writes m' o.eval fun ω vs v => ∃ k : Certificate,
        CertifiedAbove e model p ω (epigraph.eval ω) alternative k ∧
          vs = k.values ∧ k.value = v := by
  obtain ⟨o, m₁, hdual, hrest⟩ := Step.bind_eq_ok_iff.1 hrun
  obtain ⟨alternative, halt, hresolves, henc⟩ := dualObjective_writes hp hdual
  refine ⟨alternative, halt, hresolves, ?_⟩
  by_cases hmode : e.mode = .union
  · simp only [hmode, ite_true, Step.bind_eq_ok_iff, Step.pure_eq_ok_iff] at hrest
    obtain ⟨_, _, hrequire, rfl, rfl⟩ := hrest
    refine (henc.addsConstraints (fun ω v => ConstraintSense.leq.Holds (epigraph.eval ω - v))
      (requireRelation_adds hrequire) (fun _ => Iff.rfl)
      fun ω ω' ha => by rw [hepigraph ω ω' ha]).of_iff fun ω vs v => ?_
    constructor
    · rintro ⟨⟨k, hk, rfl, rfl⟩, hle⟩
      exact ⟨k, ⟨hk, fun _ => sub_nonpos.1 hle⟩, rfl, rfl⟩
    · rintro ⟨k, ⟨hk, hle⟩, rfl, rfl⟩
      exact ⟨⟨k, hk, rfl, rfl⟩, sub_nonpos.2 (hle hmode)⟩
  · simp only [hmode, ite_false, Step.pure_eq_ok_iff] at hrest
    obtain ⟨rfl, rfl⟩ := hrest
    exact henc.of_iff fun ω vs v => by simp [CertifiedAbove, hmode]

/-- The duals of several alternatives and their objectives take the values of certificates, one for
each; in union mode only of those whose value is not below the epigraph variable. -/
private theorem boundedObjectives_write {epigraph : AffineExpr ℝ ConicRef}
    {label : ConstraintSetRef → String} (hp : p.DeclaredIn m)
    (hepigraph : ∀ ω ω', m.Agree ω ω' → epigraph.eval ω' = epigraph.eval ω)
    {sets : List ConstraintSetRef} {os : List (AffineExpr ℝ ConicRef)}
    (hrun : (sets.mapM fun set => do
      let objective ← dualObjective model p e name set
      if e.mode = .union then
        require (label set) (epigraph.relate .leq objective).toConic
      return objective : Step (ConicModel ℝ) (PolicyError ℝ) _) m = .ok os m') :
    ∃ alternatives,
      List.Forall₂ (fun set c => model.uncertainty.alternativeAt set = .ok c) sets alternatives ∧
      (∀ alternative ∈ alternatives, ResolvesIn model p e alternative) ∧
      m.Writes m' (fun ω => os.map (·.eval ω)) fun ω vs cs => ∃ ks : List Certificate,
        List.Forall₂ (CertifiedAbove e model p ω (epigraph.eval ω)) alternatives ks ∧
          vs = ks.flatMap (·.values) ∧ ks.map (·.value) = cs := by
  induction sets generalizing m os with
  | nil =>
    rw [List.mapM_nil, Step.pure_eq_ok_iff] at hrun
    obtain ⟨rfl, rfl⟩ := hrun
    refine ⟨[], .nil, by simp, ?_⟩
    exact (ConicModel.Writes.unchanged fun _ _ _ => rfl).of_iff fun ω vs cs => by simp
  | cons set sets ih =>
    rw [List.mapM_cons, Step.bind_eq_ok_iff] at hrun
    obtain ⟨o, m₁, hfirst, hrest⟩ := hrun
    simp only [Step.bind_eq_ok_iff, Step.pure_eq_ok_iff] at hrest
    obtain ⟨os, _, hrest, rfl, rfl⟩ := hrest
    obtain ⟨alternative, halt, hresolves, henc⟩ := boundedObjective_writes hp hepigraph hfirst
    obtain ⟨alternatives, halts, hresolves', henc'⟩ := ih (hp.extend henc.extension)
      (fun ω ω' ha => hepigraph ω ω' (henc.extension.agree ha)) hrest
    refine ⟨alternative :: alternatives, .cons halt halts,
      List.forall_mem_cons.2 ⟨hresolves, hresolves'⟩, ?_⟩
    -- the certificates of the others do not depend on what was written for the first one
    have hboth : m.Writes _ (fun ω => (o :: os).map (·.eval ω)) _ := henc.seq
      (fun ω _ vs cs => ∃ ks : List Certificate,
        List.Forall₂ (CertifiedAbove e model p ω (epigraph.eval ω)) alternatives ks ∧
          vs = ks.flatMap (·.values) ∧ ks.map (·.value) = cs)
      (fun _ c cs => c :: cs) henc'
      (fun ω ω' _ _ _ ha h => by rwa [certifiedAbove_congr hp ha, hepigraph ω ω' ha])
      (fun _ _ _ => rfl) fun _ => rfl
    refine hboth.of_iff fun ω vs cs => ?_
    constructor
    · rintro ⟨_, _, _, _, rfl, ⟨k, hk, rfl, rfl⟩, ⟨ks, hks, rfl, rfl⟩, rfl⟩
      exact ⟨k :: ks, .cons hk hks, List.flatMap_cons.symm, rfl⟩
    · rintro ⟨_, _ | ⟨hk, hks⟩, rfl, rfl⟩
      exact ⟨_, _, _, _, List.flatMap_cons, ⟨_, hk, rfl, rfl⟩, ⟨_, hks, rfl, rfl⟩, rfl⟩

/-- The epigraph variable together with the duals of the alternatives takes the values of blocks; in
union mode only of those whose epigraph is not above a certificate. -/
private theorem boundedBlocks_write {m₁ m₂ : ConicModel ℝ} {v : ConicRef}
    {os : List (AffineExpr ℝ ConicRef)} (hp : p.DeclaredIn m)
    (hvariable : m.Writes m₁ (fun ω => ω v) fun _ vs x =>
      vs = [x] ∧ (Bounds.free : Bounds ℝ).admits x = true)
    (hobjectives : m₁.Writes m₂ (fun ω => os.map (·.eval ω)) fun ω vs cs =>
      ∃ ks : List Certificate,
        List.Forall₂ (CertifiedAbove e model p ω (ω v)) model.uncertainty.alternatives.items ks ∧
          vs = ks.flatMap (·.values) ∧ ks.map (·.value) = cs) :
    m.Writes m₂ (fun ω => (ω v, os.map (·.eval ω))) fun ω vs d => ∃ b : Block,
      List.Forall₂ (CertifiedAbove e model p ω b.epigraph) model.uncertainty.alternatives.items
        b.certificates ∧
      vs = b.values ∧ (b.epigraph, b.certificates.map (·.value)) = d := by
  refine (hvariable.seq
    (fun ω x vs cs => ∃ ks : List Certificate,
      List.Forall₂ (CertifiedAbove e model p ω x) model.uncertainty.alternatives.items ks ∧
        vs = ks.flatMap (·.values) ∧ ks.map (·.value) = cs)
    (fun _ x cs => (x, cs)) hobjectives
    (fun ω ω' _ _ _ ha h => by rwa [certifiedAbove_congr hp ha]) (fun _ _ _ => rfl)
    fun _ => rfl).of_iff fun ω vs d => ?_
  constructor
  · rintro ⟨_, _, y, _, rfl, ⟨rfl, -⟩, ⟨ks, hks, rfl, rfl⟩, rfl⟩
    exact ⟨⟨y, ks⟩, hks, rfl, rfl⟩
  · rintro ⟨b, hks, rfl, rfl⟩
    exact ⟨[b.epigraph], _, b.epigraph, _, rfl,
      ⟨rfl, Bounds.admits_free _⟩, ⟨b.certificates, hks, rfl, rfl⟩, rfl⟩

private theorem eval_foldl_add (es : List (AffineExpr ℝ ConicRef)) (ω : ConicRef → ℝ) :
    (es.foldl AffineExpr.add .zero).eval ω = (es.map (·.eval ω)).sum := by
  suffices h : ∀ start : AffineExpr ℝ ConicRef,
      (es.foldl AffineExpr.add start).eval ω = start.eval ω + (es.map (·.eval ω)).sum by
    simpa using h .zero
  induction es with
  | nil => simp
  | cons e es ih =>
    intro start
    rw [List.foldl_cons, ih, AffineExpr.eval_add, List.map_cons, List.sum_cons, add_assoc]

private theorem forall₂_and_right_iff {β γ : Type} {R : β → γ → Prop} {q : Prop} {P : γ → Prop}
    {xs : List β} {ys : List γ} :
    List.Forall₂ (fun x y => R x y ∧ (q → P y)) xs ys ↔
      List.Forall₂ R xs ys ∧ (q → ∀ y ∈ ys, P y) := by
  constructor
  · intro h
    induction h with
    | nil => simp
    | cons hxy _ ih =>
      exact ⟨.cons hxy.1 ih.1, fun hq => List.forall_mem_cons.2 ⟨hxy.2 hq, ih.2 hq⟩⟩
  · rintro ⟨h, hq⟩
    induction h with
    | nil => exact .nil
    | cons hxy _ ih =>
      exact .cons ⟨hxy, fun h => hq h _ List.mem_cons_self⟩
        (ih fun h y hy => hq h y (List.mem_cons_of_mem _ hy))

private theorem valid_block_iff {b : Block} {ω : ConicRef → ℝ} : b.Valid e model p ω ↔
    List.Forall₂ (CertifiedAbove e model p ω b.epigraph) model.uncertainty.alternatives.items
      b.certificates ∧
    (e.mode = .average → b.epigraph ≤ (b.certificates.map (·.value)).sum *
      (1 / (Nat.max model.uncertainty.alternatives.handles.length 1 : ℝ))) := by
  rw [forall₂_and_right_iff]
  have hlen : List.Forall₂ (fun alternative (k : Certificate) =>
      k.Valid (model.uncertainty.region alternative) (e.underPolicies model p ω))
        model.uncertainty.alternatives.items b.certificates →
      model.uncertainty.alternatives.handles.length = (b.certificates.map (·.value)).length :=
    fun h => by
      rw [List.length_map, ← h.length_eq, Store.handles, List.length_map, List.length_range,
        Store.size]
  constructor
  · rintro ⟨hks, hbelow⟩
    rw [hlen hks]
    cases hmode : e.mode <;> simp_all [UncertaintyMode.Below]
  · rintro ⟨⟨hks, hunion⟩, haverage⟩
    rw [hlen hks] at haverage
    refine ⟨hks, ?_⟩
    cases hmode : e.mode <;> simp_all [UncertaintyMode.Below]

/-- The variables of a counterpart take exactly the admissible values. -/
theorem robust_writes {epigraph : AffineExpr ℝ ConicRef} (hp : p.DeclaredIn m)
    (hrun : robust model p e name m = .ok epigraph m') :
    (∀ alternative ∈ model.uncertainty.alternatives.items, ResolvesIn model p e alternative) ∧
      (∀ h ∈ epigraph.vars, m'.Declares h) ∧ m.Writes m' epigraph.eval fun ω vs v =>
        ∃ b : Block, b.Valid e model p ω ∧ vs = b.values ∧ b.epigraph = v := by
  rw [robust, Step.bind_eq_ok_iff] at hrun
  obtain ⟨v, m₁, hdeclare, hrun⟩ := hrun
  obtain ⟨hdeclared, henc₁⟩ := declare_writes hdeclare
  obtain ⟨os, m₂, hobjectives, hrest⟩ := Step.bind_eq_ok_iff.1 hrun
  obtain ⟨alternatives, halts, hresolves, henc₂⟩ :=
    boundedObjectives_write (hp.extend henc₁.extension)
      (fun ω ω' ha => by rw [AffineExpr.eval_var, AffineExpr.eval_var, ha v hdeclared]) hobjectives
  obtain rfl := UncertaintySet.eq_items_of_alternativeAt halts
  refine ⟨hresolves, ?_⟩
  have hblocks := boundedBlocks_write hp henc₁ (henc₂.of_iff fun ω vs cs => by
    rw [AffineExpr.eval_var])
  -- In every mode what is left is a condition on the epigraph variable and the objectives.
  suffices hall : epigraph = .var v ∧ m'.Declares v ∧
      m.Writes m' (fun ω => (ω v, os.map (·.eval ω))) fun ω vs d => ∃ b : Block,
        b.Valid e model p ω ∧ vs = b.values ∧ (b.epigraph, b.certificates.map (·.value)) = d by
    obtain ⟨rfl, hv, hall⟩ := hall
    refine ⟨List.forall_mem_singleton.2 hv, (hall.map (fun _ d => d.1) (fun _ _ _ => rfl)
      fun ω => AffineExpr.eval_var v ω).of_iff fun ω vs x => ?_⟩
    constructor
    · rintro ⟨_, ⟨b, hb, rfl, rfl⟩, rfl⟩
      exact ⟨b, hb, rfl, rfl⟩
    · rintro ⟨b, hb, rfl, rfl⟩
      exact ⟨_, ⟨b, hb, rfl, rfl⟩, rfl⟩
  by_cases hmode : e.mode = .average
  · simp only [hmode, ite_true, Step.bind_eq_ok_iff, Step.pure_eq_ok_iff] at hrest
    obtain ⟨_, _, hrequire, rfl, rfl⟩ := hrest
    have hadds := requireRelation_adds hrequire
    refine ⟨rfl, hadds.extension.declares (henc₂.extension.declares hdeclared),
      (hblocks.addsConstraints (fun _ d => d.1 ≤ d.2.sum *
        (1 / (Nat.max model.uncertainty.alternatives.handles.length 1 : ℝ))) hadds
        (fun ω => ?_) fun _ _ _ => rfl).of_iff fun ω vs d => ?_⟩
    · rw [AffineExpr.eval_var, AffineExpr.eval_scale, eval_foldl_add]
      exact sub_nonpos
    · constructor
      · rintro ⟨⟨b, hb, rfl, rfl⟩, hle⟩
        exact ⟨b, valid_block_iff.2 ⟨hb, fun _ => hle⟩, rfl, rfl⟩
      · rintro ⟨b, hb, rfl, rfl⟩
        exact ⟨⟨b, (valid_block_iff.1 hb).1, rfl, rfl⟩, (valid_block_iff.1 hb).2 hmode⟩
  · simp only [hmode, ite_false, Step.pure_eq_ok_iff] at hrest
    obtain ⟨rfl, rfl⟩ := hrest
    refine ⟨rfl, henc₂.extension.declares hdeclared, hblocks.of_iff fun ω vs d => ?_⟩
    simp only [valid_block_iff, hmode, false_implies, and_true]

/-- The epigraph variable takes exactly the values below certified values of the alternatives. -/
theorem robust_encodes {epigraph : AffineExpr ℝ ConicRef} (hp : p.DeclaredIn m)
    (hrun : robust model p e name m = .ok epigraph m') :
    (∀ alternative ∈ model.uncertainty.alternatives.items, ResolvesIn model p e alternative) ∧
      m.Encodes m' epigraph.eval fun ω v => e.CertifiedBelow model p ω v := by
  obtain ⟨hresolves, -, hwrites⟩ := robust_writes hp hrun
  refine ⟨hresolves, hwrites.encodes.of_iff fun ω v => ?_⟩
  rw [UncertainExpr.certifiedBelow_iff_exists_block]
  constructor
  · rintro ⟨_, b, hb, -, hv⟩
    exact ⟨b, hb, hv⟩
  · rintro ⟨b, hb, hv⟩
    exact ⟨_, b, hb, rfl, hv⟩

end Counterpart

end AdjustableRobust
