import AdjustableRobust.Exchange.Policies
import AdjustableRobust.Proofs.Entries
import AdjustableRobust.Proofs.Exchange.Number
import AdjustableRobust.Proofs.Runs
import AdjustableRobust.Scalar.Binary64

/-!
# Exported policies

The export lists policies under the names of their decisions, and coefficients under the names of
their uncertainties, while a model accepts equal names. Of decisions with the same name only the
last policy is exported, and of uncertainties with the same name only the last coefficient.
Everything is exported, in order, exactly if the names differ; then the text of the export tells
the policies of all solved decisions.
-/

namespace AdjustableRobust

open Json

variable {α : Type} [Scalar α]

namespace RobustModel

/-- The policies of the solved decisions in order, with the names of their decisions. -/
def solved (m : RobustModel α) : List (String × AffinePolicy α) :=
  m.decisions.items.filterMap fun d => d.policy?.map fun p => (d.name, p)

/-- The policies refer to uncertainties of the model. -/
def PoliciesOwned (m : RobustModel α) : Prop :=
  ∀ s ∈ m.solved, ∀ e ∈ s.2.scales, e.1 ∈ m.uncertainty.vars.handles

/-- Name of the uncertainty at the position of a handle. -/
def uncertaintyName (m : RobustModel α) (u : UncertaintyRef) : String :=
  (m.uncertainty.vars.items[u.slot]?.map (·.name)).getD ""

/-- Uncertainties of the model have the names of their positions. -/
theorem label_eq_ok {m : RobustModel α} {u : UncertaintyRef}
    (hu : u ∈ m.uncertainty.vars.handles) :
    m.uncertaintyScope.label u = .ok (m.uncertaintyName u) := by
  obtain ⟨i, hi, rfl⟩ := List.mem_map.1 hu
  have hlt : i < m.uncertainty.vars.items.length := List.mem_range.1 hi
  have hget : m.uncertainty.vars.get (m.uncertainty.vars.handleFor i) =
      .ok m.uncertainty.vars.items[i] :=
    (Store.get_eq_ok_iff ..).2 ⟨rfl, rfl, List.getElem?_eq_getElem hlt⟩
  refine bind_eq_ok_iff.2 ⟨_, liftM_eq_ok_iff.2 hget, ?_⟩
  simp [uncertaintyName, Store.handleFor, hlt, pure_eq_ok_iff]

/-- Uncertainties are told apart by different names. -/
theorem uncertaintyName_inj {m : RobustModel α}
    (hnames : (m.uncertainty.vars.items.map (·.name)).Nodup) {u v : UncertaintyRef}
    (hu : u ∈ m.uncertainty.vars.handles) (hv : v ∈ m.uncertainty.vars.handles)
    (h : m.uncertaintyName u = m.uncertaintyName v) : u = v := by
  obtain ⟨i, hi, rfl⟩ := List.mem_map.1 hu
  obtain ⟨j, hj, rfl⟩ := List.mem_map.1 hv
  have hi' : i < m.uncertainty.vars.items.length := List.mem_range.1 hi
  have hj' : j < m.uncertainty.vars.items.length := List.mem_range.1 hj
  have hname : (m.uncertainty.vars.items.map (·.name))[i]? =
      (m.uncertainty.vars.items.map (·.name))[j]? := by
    simpa [uncertaintyName, Store.handleFor, hi', hj'] using h
  rw [(List.getElem?_inj (by rwa [List.length_map]) hnames).1 hname]

/-- The policy by names, as it is exported. -/
def namedPolicy (m : RobustModel α) (p : AffinePolicy α) : NamedPolicy α :=
  ⟨p.constant, entriesOf (p.scales.map fun e => (m.uncertaintyName e.1, e.2))⟩

/-- The export lists the named policies under the names of their decisions. -/
theorem policiesByName_eq_ok {m : RobustModel α} (h : m.PoliciesOwned) :
    m.policiesByName = .ok (entriesOf (m.solved.map fun s => (s.1, m.namedPolicy s.2))) := by
  have hpolicy : ∀ s ∈ m.solved,
      NamedPolicy.ofPolicy m.uncertaintyScope s.2 = .ok (m.namedPolicy s.2) := by
    intro s hs
    refine bind_eq_ok_iff.2 ⟨_, ?_, rfl⟩
    rw [mapM_eq_ok_iff, List.forall₂_map_right_iff, List.forall₂_same]
    exact fun e he => bind_eq_ok_iff.2 ⟨_, label_eq_ok (h s hs e he), rfl⟩
  refine mapError_eq_ok_iff.2 (bind_eq_ok_iff.2 ⟨_, ?_, rfl⟩)
  rw [← solved, mapM_eq_ok_iff, List.forall₂_map_right_iff, List.forall₂_same]
  exact fun s hs => bind_eq_ok_iff.2 ⟨_, hpolicy s hs, rfl⟩

/-- An entry of the export stands for a solved decision: it has the name of the decision, the
constant of its policy and one coefficient for each of its entries, in order. -/
structure Exports (m : RobustModel α) (s : String × AffinePolicy α)
    (e : String × NamedPolicy α) : Prop where
  name : e.1 = s.1
  constant : e.2.constant = s.2.constant
  scales : List.Forall₂ (fun x y => m.uncertaintyScope.label x.1 = .ok y.1 ∧ y.2 = x.2)
    s.2.scales e.2.scales

/-- Solved decisions have different names, and so have the uncertainties of each policy. -/
structure NamesDiffer (m : RobustModel α) : Prop where
  decisions : (m.solved.map (·.1)).Nodup
  uncertainties : ∀ s ∈ m.solved, (s.2.scales.map fun e => m.uncertaintyName e.1).Nodup

private theorem map_eq_map_of_forall₂ {β γ δ : Type} {f : β → δ} {g : γ → δ} {xs : List β}
    {ys : List γ} (h : List.Forall₂ (fun x y => g y = f x) xs ys) : ys.map g = xs.map f := by
  rw [← List.forall₂_eq_eq_eq, List.forall₂_map_left_iff, List.forall₂_map_right_iff]
  exact h.flip

/-- With different decision names every policy has its own entry. -/
theorem entriesOf_named {m : RobustModel α} (h : (m.solved.map (·.1)).Nodup) :
    entriesOf (m.solved.map fun s => (s.1, m.namedPolicy s.2)) =
      m.solved.map fun s => (s.1, m.namedPolicy s.2) :=
  entriesOf_of_nodup (by rwa [List.map_map])

/-- With different names of its uncertainties a policy keeps all coefficients. -/
theorem namedPolicy_of_nodup {m : RobustModel α} {p : AffinePolicy α}
    (h : (p.scales.map fun e => m.uncertaintyName e.1).Nodup) : m.namedPolicy p =
      ⟨p.constant, p.scales.map fun e => (m.uncertaintyName e.1, e.2)⟩ := by
  rw [namedPolicy, entriesOf_of_nodup (by rwa [List.map_map])]

/-- With different names the policies are exported one by one. -/
theorem NamesDiffer.policiesByName_eq_ok {m : RobustModel α} (h : m.NamesDiffer)
    (hown : m.PoliciesOwned) :
    m.policiesByName = .ok (m.solved.map fun s => (s.1, m.namedPolicy s.2)) := by
  rw [RobustModel.policiesByName_eq_ok hown, entriesOf_named h.decisions]

/-- An export of all policies in order needs different names, and they suffice. -/
theorem forall₂_exports_iff {m : RobustModel α} (hown : m.PoliciesOwned) :
    List.Forall₂ m.Exports m.solved (entriesOf (m.solved.map fun s => (s.1, m.namedPolicy s.2))) ↔
      m.NamesDiffer := by
  constructor
  · intro h
    have hdecisions : (m.solved.map (·.1)).Nodup := by
      rw [← map_eq_map_of_forall₂ (h.imp fun _ _ he => he.name)]
      exact nodup_keys_entriesOf _
    rw [entriesOf_named hdecisions, List.forall₂_map_right_iff, List.forall₂_same] at h
    refine ⟨hdecisions, fun s hs => ?_⟩
    have hscales : List.Forall₂ (fun x y => y.1 = m.uncertaintyName x.1) s.2.scales
        (m.namedPolicy s.2).scales := by
      refine List.forall₂_iff_get.2 ⟨(h s hs).scales.length_eq, fun i hi hi' => ?_⟩
      have hlabel := ((h s hs).scales.get hi hi').1
      rw [label_eq_ok (hown s hs _ (List.get_mem ..))] at hlabel
      exact (Except.ok.inj hlabel).symm
    rw [← map_eq_map_of_forall₂ hscales]
    exact nodup_keys_entriesOf _
  · intro h
    rw [entriesOf_named h.decisions, List.forall₂_map_right_iff, List.forall₂_same]
    intro s hs
    rw [namedPolicy_of_nodup (h.uncertainties s hs)]
    refine ⟨rfl, rfl, ?_⟩
    rw [List.forall₂_map_right_iff, List.forall₂_same]
    exact fun e he => ⟨label_eq_ok (hown s hs e he), rfl⟩

end RobustModel

/-! ## Documents -/

private theorem eq_of_map_eq_map {β γ : Type} {f : β → γ} {xs ys : List β}
    (hf : ∀ x ∈ xs, ∀ y ∈ ys, f x = f y → x = y) (h : xs.map f = ys.map f) : xs = ys := by
  induction xs generalizing ys with
  | nil => exact (List.map_eq_nil_iff.1 h.symm).symm
  | cons x xs ih =>
    cases ys with
    | nil => exact absurd h (by simp)
    | cons y ys =>
      obtain ⟨hxy, hrest⟩ := List.cons.inj h
      obtain rfl := hf x List.mem_cons_self y List.mem_cons_self hxy
      rw [ih (fun x hx y hy => hf x (.tail _ hx) y (.tail _ hy)) hrest]

namespace NamedPolicy

/-- The numbers of the policy are finite. -/
def IsFinite (p : NamedPolicy Float) : Prop :=
  p.constant.isFinite = true ∧ ∀ e ∈ p.scales, e.2.isFinite = true

/-- The document of a policy is well formed. -/
theorem wellFormed_toJson (p : NamedPolicy Float) : p.toJson.WellFormed := by
  refine .object fun member hmember => ?_
  obtain rfl | rfl : member = _ ∨ member = _ := by simpa using hmember
  · exact ScalarExchange.lawful_float.wellFormed_toJson _
  · refine .object fun member hmember => ?_
    obtain ⟨e, -, rfl⟩ := List.mem_map.1 hmember
    exact ScalarExchange.lawful_float.wellFormed_toJson _

/-- No other policy has the document of one whose numbers are finite. -/
theorem IsFinite.eq_of_toJson_eq {p q : NamedPolicy Float} (hp : p.IsFinite)
    (h : q.toJson = p.toJson) : q = p := by
  obtain ⟨constant, scales⟩ := p
  obtain ⟨constant', scales'⟩ := q
  simp only [NamedPolicy.toJson, Json.object.injEq, List.cons.injEq, Prod.mk.injEq, true_and,
    and_true] at h
  obtain rfl := ScalarExchange.lawful_float.eq_of_toJson_eq hp.1 h.1
  refine congrArg _ (eq_of_map_eq_map (fun e _ e' he' heq => ?_) h.2)
  obtain ⟨hname, hjson⟩ := Prod.mk.inj heq
  exact Prod.ext hname (ScalarExchange.lawful_float.eq_of_toJson_eq (hp.2 e' he') hjson)

end NamedPolicy

namespace RobustModel

/-- The numbers of all solved policies are finite. -/
def NumbersFinite (m : RobustModel Float) : Prop :=
  ∀ s ∈ m.solved, s.2.constant.isFinite = true ∧ ∀ e ∈ s.2.scales, e.2.isFinite = true

/-- No other export has the text of one whose numbers are finite. -/
theorem eq_of_policiesText_eq {m m' : RobustModel Float}
    {entries entries' : List (String × NamedPolicy Float)} (h : m.policiesByName = .ok entries)
    (h' : m'.policiesByName = .ok entries') (hfinite : ∀ e ∈ entries, e.2.IsFinite)
    (htext : m'.policiesText = m.policiesText) : entries' = entries := by
  have hwell (es : List (String × NamedPolicy Float)) :
      (Json.object (es.map fun e => (e.1, e.2.toJson))).WellFormed := by
    refine .object fun member hmember => ?_
    obtain ⟨e, -, rfl⟩ := List.mem_map.1 hmember
    exact e.2.wellFormed_toJson
  have hjson := (WellFormed.text_inj (hwell entries') (hwell entries)).1 (by
    simpa [policiesText, policiesJson, h, h'] using htext)
  refine eq_of_map_eq_map (fun e _ e' he' heq => ?_) (Json.object.inj hjson)
  obtain ⟨hname, hpolicy⟩ := Prod.mk.inj heq
  exact Prod.ext hname ((hfinite e' he').eq_of_toJson_eq hpolicy)

/-- With different names the exported policies hold the numbers of the solved ones. -/
theorem NamesDiffer.isFinite {m : RobustModel Float} (h : m.NamesDiffer)
    (hnumbers : m.NumbersFinite) :
    ∀ e ∈ m.solved.map fun s => (s.1, m.namedPolicy s.2), e.2.IsFinite := by
  intro e he
  obtain ⟨s, hs, rfl⟩ := List.mem_map.1 he
  rw [namedPolicy_of_nodup (h.uncertainties s hs)]
  refine ⟨(hnumbers s hs).1, fun e he => ?_⟩
  obtain ⟨x, hx, rfl⟩ := List.mem_map.1 he
  exact (hnumbers s hs).2 x hx

/-- The text of an export of all policies tells the policies of the solved decisions, if their
numbers are finite. -/
theorem solved_eq_of_policiesText {m m' : RobustModel Float}
    (hset : m'.uncertainty = m.uncertainty)
    (hnames : (m.uncertainty.vars.items.map (·.name)).Nodup) (hown : m.PoliciesOwned)
    (hown' : m'.PoliciesOwned) (hdiffer : m.NamesDiffer) (hdiffer' : m'.NamesDiffer)
    (hnumbers : m.NumbersFinite) (htext : m'.policiesText = m.policiesText) :
    m'.solved = m.solved := by
  have hentries := eq_of_policiesText_eq (hdiffer.policiesByName_eq_ok hown)
    (hdiffer'.policiesByName_eq_ok hown') (hdiffer.isFinite hnumbers) htext
  have hname : m'.uncertaintyName = m.uncertaintyName := by
    funext u
    rw [uncertaintyName, hset, uncertaintyName]
  have hnamed : m'.namedPolicy = m.namedPolicy := by
    funext p
    rw [namedPolicy, hname, namedPolicy]
  rw [hnamed] at hentries
  refine eq_of_map_eq_map (fun s hs t ht heq => ?_) hentries
  obtain ⟨hdecision, hpolicy⟩ := Prod.mk.inj heq
  rw [← hnamed, namedPolicy_of_nodup (hdiffer'.uncertainties s hs), hnamed, hname,
    namedPolicy_of_nodup (hdiffer.uncertainties t ht)] at hpolicy
  obtain ⟨hconstant, hscales⟩ := NamedPolicy.mk.inj hpolicy
  have hrefs : s.2.scales = t.2.scales := by
    refine eq_of_map_eq_map (fun e he e' he' heq => ?_) hscales
    obtain ⟨huncertainty, hcoefficient⟩ := Prod.mk.inj heq
    have hu := hown' s hs e he
    rw [hset] at hu
    exact Prod.ext (uncertaintyName_inj hnames hu (hown t ht e' he') huncertainty) hcoefficient
  obtain ⟨name, constant, scales⟩ := s
  obtain ⟨name', constant', scales'⟩ := t
  obtain rfl : name = name' := hdecision
  obtain rfl : constant = constant' := hconstant
  obtain rfl : scales = scales' := hrefs
  rfl

/-! ## What is exported -/

private theorem lookup_map {κ β γ : Type} [BEq κ] (f : β → γ) (pairs : List (κ × β)) (k : κ) :
    (pairs.map fun s => (s.1, f s.2)).lookup k = (pairs.lookup k).map f := by
  induction pairs with
  | nil => rfl
  | cons p pairs ih =>
    rw [List.map_cons, List.lookup_cons, List.lookup_cons, ih]
    cases k == p.1 <;> rfl

/-- Policies over uncertainties of the model are exported: one entry for each name of a solved
decision, in the order in which the names occur first, with the last policy of that name. All
policies are exported one by one and with all their coefficients exactly if the names differ. Then,
if no two uncertainties of the model share a name and all numbers are finite, the text tells the
policies of all solved decisions. -/
theorem policies_exported_iff (m : RobustModel Float) (hown : m.PoliciesOwned) :
    ∃ entries, m.policiesByName = .ok entries ∧
      entries.map (·.1) = (m.solved.map (·.1)).eraseDups ∧
      (∀ name, entries.lookup name = (m.solved.reverse.lookup name).map m.namedPolicy) ∧
      (List.Forall₂ m.Exports m.solved entries ↔ m.NamesDiffer) ∧
      ((m.uncertainty.vars.items.map (·.name)).Nodup → m.NamesDiffer → m.NumbersFinite →
        ∀ m' : RobustModel Float, m'.uncertainty = m.uncertainty → m'.PoliciesOwned →
          m'.NamesDiffer → m'.policiesText = m.policiesText → m'.solved = m.solved) := by
  refine ⟨_, policiesByName_eq_ok hown, ?_, fun name => ?_, forall₂_exports_iff hown,
    fun hnames hdiffer hnumbers m' hset hown' hdiffer' htext =>
      solved_eq_of_policiesText hset hnames hown hown' hdiffer hdiffer' hnumbers htext⟩
  · rw [keys_entriesOf, List.map_map]
    rfl
  · rw [lookup_entriesOf, ← List.map_reverse, lookup_map]

/-- Two decisions that react to one uncertainty, both solved. -/
def twoSolved (first second : String) : RobustModel Float :=
  let u : UncertaintyRef := ⟨⟨0⟩, 0, 0⟩
  { RobustModel.new "policies" ⟨0⟩ with
    decisions := ⟨⟨0⟩, 0, [⟨first, none, .free, [u], some ⟨1, [(u, 0.5)]⟩⟩,
      ⟨second, none, .free, [u], some ⟨2, [(u, -1)]⟩⟩]⟩
    uncertainty := ((UncertaintySet.new "policies" ⟨0⟩).addVariable ⟨"u", none, .free⟩).2 }

/-- Two policies under different names are exported, and no other policies of the two decisions have
the text of their export. -/
theorem policies_exported_apart :
    (twoSolved "x" "y").PoliciesOwned ∧
      (∃ entries, (twoSolved "x" "y").policiesByName = .ok entries ∧
        List.Forall₂ (twoSolved "x" "y").Exports (twoSolved "x" "y").solved entries) ∧
      ∀ m' : RobustModel Float, m'.uncertainty = (twoSolved "x" "y").uncertainty →
        m'.PoliciesOwned → m'.NamesDiffer →
          m'.policiesText = (twoSolved "x" "y").policiesText →
            m'.solved = (twoSolved "x" "y").solved := by
  have hown : (twoSolved "x" "y").PoliciesOwned := by
    unfold PoliciesOwned
    decide +kernel
  have hnumbers : (twoSolved "x" "y").NumbersFinite := by
    unfold NumbersFinite
    decide +kernel
  have hdiffer : (twoSolved "x" "y").NamesDiffer := ⟨by decide +kernel, by decide +kernel⟩
  obtain ⟨entries, hrun, -, -, hiff, htext⟩ := policies_exported_iff _ hown
  exact ⟨hown, ⟨entries, hrun, hiff.2 hdiffer⟩, htext (by decide +kernel) hdiffer hnumbers⟩

/-- Of two policies under one name only the second is exported. -/
theorem twins_merged :
    (twoSolved "x" "x").PoliciesOwned ∧ (twoSolved "x" "x").solved.length = 2 ∧
      (twoSolved "x" "x").policiesByName = .ok [("x", ⟨2, [("u", -1)]⟩)] := by
  refine ⟨?_, rfl, rfl⟩
  unfold PoliciesOwned
  decide +kernel

end RobustModel

end AdjustableRobust
