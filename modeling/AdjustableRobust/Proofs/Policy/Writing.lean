import AdjustableRobust.Policy.Counterpart
import AdjustableRobust.Proofs.Conic.Appending

/-!
# Writing into conic models

What the elementary steps of a compilation encode: a declared variable takes any value that its
bounds admit, a required constraint holds.
-/

namespace AdjustableRobust.Counterpart

variable {m m' : ConicModel ℝ}

/-- Declaring a variable adds a continuous one. -/
theorem declare_eq_push {name : String} {b : Bounds ℝ} {h : ConicRef}
    (hrun : declare name b m = .ok h m') :
    (m.push ⟨name, b, .continuous, none, none⟩).1 = h ∧
      (m.push ⟨name, b, .continuous, none, none⟩).2 = m' :=
  Prod.ext_iff.1 (Step.ofChange_eq_ok_iff.1 hrun)

/-- A declared variable takes the values that its bounds admit. -/
theorem declare_writes {name : String} {b : Bounds ℝ} {h : ConicRef}
    (hrun : declare name b m = .ok h m') :
    m'.Declares h ∧ m.Writes m' (fun ω => ω h) fun _ vs x => vs = [x] ∧ b.admits x = true := by
  obtain ⟨rfl, rfl⟩ := declare_eq_push hrun
  exact ⟨ConicModel.declares_push m _, ConicModel.writes_push m _⟩

/-- A declared variable comes after the variables before it. -/
theorem declare_handles {name : String} {b : Bounds ℝ} {h : ConicRef}
    (hrun : declare name b m = .ok h m') : m'.vars.handles = m.vars.handles ++ [h] := by
  obtain ⟨rfl, rfl⟩ := declare_eq_push hrun
  exact m.vars.handles_add _

/-- A declared variable without bounds is not constrained. -/
theorem declare_free {name : String} {h : ConicRef} (hrun : declare name .free m = .ok h m')
    (ω : ConicRef → ℝ) : m.AddedFeasible m' ω := by
  obtain ⟨rfl, rfl⟩ := declare_eq_push hrun
  exact (m.addedFeasible_push_iff _ ω).2 (Bounds.admits_free _)

/-- A declared variable is appended. -/
theorem declare_adds {name : String} {b : Bounds ℝ} {h : ConicRef}
    (hrun : declare name b m = .ok h m') : m.AddsVariables m' [h] [b] := by
  obtain ⟨rfl, rfl⟩ := declare_eq_push hrun
  exact m.addsVariables_push _

/-- Numbered variables are appended. -/
theorem declareMany_adds {n : ℕ} {name : String} {b : Bounds ℝ} {hs : List ConicRef}
    (hrun : declareMany n name b m = .ok hs m') :
    hs.length = n ∧ m.AddsVariables m' hs (List.replicate n b) := by
  have hadds := m.addsVariables_addVariables n name b
  rwa [Step.ofChange_eq_ok_iff.1 hrun] at hadds

/-- A required constraint is appended. -/
theorem require_adds {name : String} {c : RawConstraint (ConicExpr ℝ ConicRef)} {u : Unit}
    (hrun : require name c m = .ok u m') : m.AddsConstraints m' c.Holds := by
  rw [← Step.modify_eq_ok_iff.1 hrun]
  exact m.addsConstraints_addConstraint name c

/-- A required relation of affine expressions is appended. -/
theorem requireRelation_adds {name : String} {s : ConstraintSense} {e f : AffineExpr ℝ ConicRef}
    {u : Unit} (hrun : require name (e.relate s f).toConic m = .ok u m') :
    m.AddsConstraints m' fun ω => s.Holds (e.eval ω - f.eval ω) :=
  (require_adds hrun).of_iff fun _ => AffineExpr.holds_relate_iff

/-- A required affine relation to zero is appended. -/
theorem requireAffine_adds {name : String} {s : ConstraintSense} {e : AffineExpr ℝ ConicRef}
    {u : Unit} (hrun : requireAffine name s e m = .ok u m') :
    m.AddsConstraints m' fun ω => s.Holds (e.eval ω) :=
  (require_adds hrun).of_iff fun ω => by rw [AffineExpr.holds_relateValue_iff, sub_zero]

/-- Affine relations to zero that are required one after the other are appended. -/
theorem forM_requireAffine_adds {β : Type} {name : β → String} {s : ConstraintSense}
    {e : β → AffineExpr ℝ ConicRef} {xs : List β} {u : Unit}
    (hrun : (xs.forM fun x => requireAffine (name x) s (e x)) m = .ok u m') :
    m.AddsConstraints m' fun ω => ∀ x ∈ xs, s.Holds ((e x).eval ω) := by
  induction xs generalizing m with
  | nil =>
    obtain rfl := Step.forM_nil_eq_ok_iff.1 hrun
    exact .refl m fun _ => by simp
  | cons x xs ih =>
    obtain ⟨m₁, hfirst, hrest⟩ := Step.forM_cons_eq_ok_iff.1 hrun
    refine ((requireAffine_adds hfirst).trans (ih hrest)).of_iff fun ω => ?_
    rw [List.forall_mem_cons]

/-- Steps that each write in a relation, run one after the other, write what all of them write.
What the steps rely on has to survive extensions. -/
theorem forM_writes {β ε : Type} {f : β → Step (ConicModel ℝ) ε Unit}
    {J : ConicModel ℝ → Prop} {P : β → (ConicRef → ℝ) → List ℝ → Prop}
    (hJ : ∀ m m', J m → m.Extends m' → J m')
    (hP : ∀ x m ω ω' vs, J m → m.Agree ω ω' → P x ω vs → P x ω' vs) {xs : List β}
    (hf : ∀ x ∈ xs, ∀ m m' u, J m → f x m = .ok u m' →
      m.Writes m' (fun _ => ()) fun ω vs _ => P x ω vs) {u : Unit} (hm : J m)
    (hrun : xs.forM f m = .ok u m') :
    m.Writes m' (fun _ => ()) fun ω vs _ =>
      ∃ vss, List.Forall₂ (fun x vs => P x ω vs) xs vss ∧ vs = vss.flatten := by
  induction xs generalizing m with
  | nil =>
    obtain rfl := Step.forM_nil_eq_ok_iff.1 hrun
    exact (ConicModel.Writes.unchanged fun _ _ _ => rfl).of_iff fun ω vs _ => by simp
  | cons x xs ih =>
    obtain ⟨m₁, hfirst, hrest⟩ := Step.forM_cons_eq_ok_iff.1 hrun
    rw [List.forall_mem_cons] at hf
    have hx := hf.1 m m₁ _ hm hfirst
    have hxs := ih hf.2 (hJ _ _ hm hx.extension) hrest
    refine (hx.seq (fun ω _ vs _ => ∃ vss, List.Forall₂ (fun x vs => P x ω vs) xs vss ∧
      vs = vss.flatten) (fun _ _ _ => ()) hxs
      (fun ω ω' _ _ _ ha h => ?_) (fun _ _ _ => rfl) fun _ => rfl).of_iff fun ω vs _ => ?_
    · obtain ⟨vss, hvss, hvs⟩ := h
      exact ⟨vss, hvss.imp fun y vs hy => hP y m ω ω' vs hm ha hy, hvs⟩
    · constructor
      · rintro ⟨vs, _, _, _, rfl, hvs, ⟨vss, hvss, rfl⟩, -⟩
        exact ⟨vs :: vss, .cons hvs hvss, List.flatten_cons.symm⟩
      · rintro ⟨_, _ | ⟨hvs, hvss⟩, rfl⟩
        exact ⟨_, _, (), (), List.flatten_cons, hvs, ⟨_, hvss, rfl⟩, rfl⟩

end AdjustableRobust.Counterpart
