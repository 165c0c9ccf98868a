import AdjustableRobust.Proofs.Failure
import AdjustableRobust.Proofs.Uncertainty.Membership
import AdjustableRobust.Uncertainty.Sampling

/-!
# Samples

Realizations are drawn from any source, whatever its draws are, as long as they are in the range of
their distribution. Each candidate is scaled into the norm ball, and only candidates within the
bounds are returned, so samples lie in the set. The number of candidates is limited, which bounds
the number of draws.
-/

namespace AdjustableRobust

/-! ## Steps that end soon -/

namespace Step

variable {σ ε ε' α β : Type} {measure : σ → ℕ} {k m : ℕ} {P : ε → Prop}

/-- From every state the step ends, with a result of one kind or a failure of another, in a state
whose measure is larger by at most `k`. -/
def Ends (measure : σ → ℕ) (k : ℕ) (x : Step σ ε β) (Q : β → Prop) (P : ε → Prop) : Prop :=
  ∀ s, (∃ b t, x s = .ok b t ∧ measure t ≤ measure s + k ∧ Q b) ∨
    ∃ e t, x s = .error e t ∧ measure t ≤ measure s + k ∧ P e

namespace Ends

/-- What follows from the kinds of results and failures. -/
theorem imp {x : Step σ ε β} {Q Q' : β → Prop} {P' : ε → Prop} (hx : Ends measure k x Q P)
    (hQ : ∀ b, Q b → Q' b) (hP : ∀ e, P e → P' e) : Ends measure k x Q' P' :=
  fun s => (hx s).imp (fun ⟨b, t, hb, ht, h⟩ => ⟨b, t, hb, ht, hQ b h⟩)
    fun ⟨e, t, he, ht, h⟩ => ⟨e, t, he, ht, hP e h⟩

/-- Returning a value. -/
theorem pure {b : β} {Q : β → Prop} (hb : Q b) : Ends measure k (Pure.pure b : Step σ ε β) Q P :=
  fun s => .inl ⟨b, s, rfl, Nat.le_add_right _ _, hb⟩

/-- Failing on purpose. -/
theorem throw {e : ε} {Q : β → Prop} (he : P e) :
    Ends measure k (MonadExcept.throw e : Step σ ε β) Q P :=
  fun s => .inr ⟨e, s, rfl, Nat.le_add_right _ _, he⟩

/-- A total change, which raises the measure. -/
theorem modifyGet {f : σ → β × σ} {Q : β → Prop} (hf : ∀ s, measure (f s).2 ≤ measure s + k)
    (hQ : ∀ s, Q (f s).1) : Ends measure k (modifyGet f : Step σ ε β) Q P :=
  fun s => .inl ⟨_, _, rfl, hf s, hQ s⟩

/-- A sequence of steps that end. -/
theorem bind {x : Step σ ε α} {f : α → Step σ ε β} {R : α → Prop} {Q : β → Prop}
    (hx : Ends measure k x R P) (hf : ∀ a, R a → Ends measure m (f a) Q P) :
    Ends measure (k + m) (x >>= f) Q P := by
  intro s
  obtain ⟨a, s', ha, hs, hR⟩ | ⟨e, t, he, hs, hP⟩ := hx s
  · obtain ⟨b, t, hb, ht, hQ⟩ | ⟨e, t, he, ht, hP⟩ := hf a hR s'
    · exact .inl ⟨b, t, bind_eq_ok_iff.2 ⟨a, s', ha, hb⟩, by omega, hQ⟩
    · exact .inr ⟨e, t, bind_eq_error_iff.2 (.inr ⟨a, s', ha, he⟩), by omega, hP⟩
  · exact .inr ⟨e, t, bind_eq_error_iff.2 (.inl he), by omega, hP⟩

/-- A map over a list, which adds up what its steps may raise. -/
theorem mapM {f : α → Step σ ε β} {Q : β → Prop} {xs : List α}
    (hf : ∀ x ∈ xs, Ends measure k (f x) Q P) :
    Ends measure (xs.length * k) (xs.mapM f) (fun bs => bs.length = xs.length ∧ ∀ b ∈ bs, Q b)
      P := by
  induction xs with
  | nil => exact pure (by simp)
  | cons x xs ih =>
    have hrest := ih fun y hy => hf y (List.mem_cons_of_mem x hy)
    rw [List.mapM_cons, List.length_cons, Nat.succ_mul, Nat.add_comm]
    refine (hf x List.mem_cons_self).bind fun b hb => ?_
    rw [← Nat.add_zero (xs.length * k)]
    refine hrest.bind fun bs hbs => pure ⟨?_, ?_⟩
    · rw [List.length_cons, hbs.1]
    · exact List.forall_mem_cons.2 ⟨hb, hbs.2⟩

end Ends

end Step

/-! ## Draws -/

namespace RandomSource

variable {γ β : Type}

/-- Draws are in the range of their distribution. Normal draws and coins can be anything. -/
structure Lawful (r : RandomSource ℝ γ) : Prop where
  uniform : ∀ g, (r.uniform g).1 ∈ Set.Ico 0 1
  exponential : ∀ g, 0 ≤ (r.exponential g).1

/-- A measure of the states that no draw raises by more than one, such as the number of draws that
have been made. -/
structure Counts (r : RandomSource ℝ γ) (drawn : γ → ℕ) : Prop where
  normal : ∀ g, drawn (r.normal g).2 ≤ drawn g + 1
  uniform : ∀ g, drawn (r.uniform g).2 ≤ drawn g + 1
  exponential : ∀ g, drawn (r.exponential g).2 ≤ drawn g + 1
  coin : ∀ g, drawn (r.coin g).2 ≤ drawn g + 1

/-- As many values as asked for. -/
theorem length_repeated (draw : γ → β × γ) (n : ℕ) (g : γ) :
    (repeated draw n g).1.length = n := by
  induction n generalizing g with
  | zero => rfl
  | succ n ih => rw [repeated, List.length_cons, ih]

/-- What holds of each draw holds of repeated ones. -/
theorem forall_mem_repeated {draw : γ → β × γ} {P : β → Prop} (h : ∀ g, P (draw g).1) (n : ℕ)
    (g : γ) : ∀ x ∈ (repeated draw n g).1, P x := by
  induction n generalizing g with
  | zero => simp [repeated]
  | succ n ih => exact List.forall_mem_cons.2 ⟨h g, ih _⟩

/-- Repeated draws add up. -/
theorem drawn_repeated_le {draw : γ → β × γ} {drawn : γ → ℕ} {k : ℕ}
    (h : ∀ g, drawn (draw g).2 ≤ drawn g + k) (n : ℕ) (g : γ) :
    drawn (repeated draw n g).2 ≤ drawn g + n * k := by
  induction n generalizing g with
  | zero => exact Nat.le_add_right _ _
  | succ n ih =>
    have hfirst := h g
    have hrest := ih (draw g).2
    rw [Nat.succ_mul]
    change drawn (repeated draw n (draw g).2).2 ≤ _
    omega

end RandomSource

namespace UncertaintySet

variable {γ : Type} {r : RandomSource ℝ γ} {n : ℕ} {b : ℝ} {nonNegative : Bool}

/-! ## Candidates -/

/-- One value for each uncertainty, inside the norm ball. -/
structure IsCandidate (n : ℕ) (norm : NormKind) (b : ℝ) (xs : List ℝ) : Prop where
  length : xs.length = n
  norm : norm.apply xs ≤ b

/-- One coordinate of the direction of a candidate of a ball. -/
noncomputable def directedDraw (r : RandomSource ℝ γ) (nonNegative : Bool) (g : γ) : ℝ × γ :=
  (if nonNegative then Scalar.abs (r.normal g).1 else (r.normal g).1, (r.normal g).2)

/-- The magnitude of a value of a budget set, and the value with its sign. -/
noncomputable def signedDraw (r : RandomSource ℝ γ) (nonNegative : Bool) (g : γ) : (ℝ × ℝ) × γ :=
  let (x, g) := r.exponential g
  if nonNegative then ((x, x), g)
  else
    let (heads, g) := r.coin g
    ((x, (if heads then 1 else -1) * x), g)

/-- A candidate of a ball: the direction, then the radius. -/
theorem sampleBall_eq (r : RandomSource ℝ γ) (n : ℕ) (b : ℝ) (nonNegative : Bool) (g : γ) :
    sampleBall r n b nonNegative g =
      let drawn := RandomSource.repeated (directedDraw r nonNegative) n g
      let radius := Scalar.root n (r.uniform drawn.2).1 * b
      let norm := NormKind.two.apply drawn.1
      (drawn.1.map (· * if 0 < norm then radius / norm else 0), (r.uniform drawn.2).2) :=
  rfl

/-- A candidate of a budget set: one more draw, then the values. -/
theorem sampleBudget_eq (r : RandomSource ℝ γ) (n : ℕ) (b : ℝ) (nonNegative : Bool) (g : γ) :
    sampleBudget r n b nonNegative g =
      let drawn := RandomSource.repeated (signedDraw r nonNegative) n (r.exponential g).2
      let total := (drawn.1.map (·.1)).foldl (· + ·) (r.exponential g).1
      (drawn.1.map (·.2 * (b / total)), drawn.2) :=
  rfl

/-- A candidate of a ball has the radius that is drawn for it, unless its direction vanishes. -/
theorem isCandidate_sampleBall (hr : r.Lawful) (hb : 0 ≤ b) (g : γ) :
    IsCandidate n .two b (sampleBall r n b nonNegative g).1 := by
  rw [sampleBall_eq]
  refine ⟨by simp [RandomSource.length_repeated], ?_⟩
  rw [NormKind.apply_map_mul]
  set drawn := RandomSource.repeated (directedDraw r nonNegative) n g
  obtain ⟨hlower, hupper⟩ := hr.uniform drawn.2
  have hroot : 0 ≤ Scalar.root n (r.uniform drawn.2).1 := Real.rpow_nonneg hlower _
  have hroot' : Scalar.root n (r.uniform drawn.2).1 ≤ 1 :=
    Real.rpow_le_one hlower hupper.le (by positivity)
  split
  · next hnorm =>
    rw [abs_of_nonneg (by positivity), mul_div_cancel₀ _ hnorm.ne']
    exact mul_le_of_le_one_left hb hroot'
  · rw [abs_zero, mul_zero]
    exact hb

/-- A value with its sign has the magnitude that is drawn for it. -/
theorem abs_signedDraw (hr : r.Lawful) (g : γ) :
    |(signedDraw r nonNegative g).1.2| = (signedDraw r nonNegative g).1.1 ∧
      0 ≤ (signedDraw r nonNegative g).1.1 := by
  have hx := hr.exponential g
  rw [signedDraw]
  cases nonNegative with
  | true => exact ⟨abs_of_nonneg hx, hx⟩
  | false =>
    refine ⟨?_, hx⟩
    change |(if (r.coin (r.exponential g).2).1 then 1 else -1) * (r.exponential g).1| = _
    split
    · rw [one_mul, abs_of_nonneg hx]
      rfl
    · rw [neg_one_mul, abs_neg, abs_of_nonneg hx]
      rfl

private theorem foldl_add_real (x : ℝ) (xs : List ℝ) : xs.foldl (· + ·) x = x + xs.sum := by
  calc xs.foldl (· + ·) x
      = xs.foldl (· + ·) (x + 0) := by rw [add_zero]
    _ = x + xs.foldl (· + ·) 0 := List.foldl_assoc
    _ = x + xs.sum := by rw [← List.sum_eq_foldl]

/-- A candidate of a budget set uses up the share of the budget that its magnitudes have in the sum
of all draws. -/
theorem isCandidate_sampleBudget (hr : r.Lawful) (hb : 0 ≤ b) (g : γ) :
    IsCandidate n .one b (sampleBudget r n b nonNegative g).1 := by
  rw [sampleBudget_eq]
  refine ⟨by simp [RandomSource.length_repeated], ?_⟩
  set drawn := RandomSource.repeated (signedDraw r nonNegative) n (r.exponential g).2
  have hall : ∀ x ∈ drawn.1, |x.2| = x.1 ∧ 0 ≤ x.1 :=
    RandomSource.forall_mem_repeated (abs_signedDraw hr) n _
  have hmagnitudes : NormKind.one.apply (drawn.1.map (·.2)) = (drawn.1.map (·.1)).sum := by
    rw [NormKind.apply_one, List.map_map]
    exact congrArg List.sum (List.map_congr_left fun x hx => (hall x hx).1)
  have hsum : 0 ≤ (drawn.1.map (·.1)).sum :=
    List.sum_nonneg (List.forall_mem_map.2 fun x hx => (hall x hx).2)
  have htotal := foldl_add_real (r.exponential g).1 (drawn.1.map (·.1))
  have hextra := hr.exponential g
  have hscaled := NormKind.one.apply_map_mul (drawn.1.map (·.2))
  simp only [List.map_map, Function.comp_def] at hscaled
  dsimp only
  rw [hscaled, hmagnitudes, htotal, abs_of_nonneg (by positivity), mul_div_assoc']
  refine div_le_of_le_mul₀ (by positivity) hb ?_
  rw [mul_comm]
  exact mul_le_mul_of_nonneg_left (le_add_of_nonneg_left hextra) hb

/-- A candidate of a ball takes a draw for each value and one for the radius. -/
theorem drawn_sampleBall_le {drawn : γ → ℕ} (hc : r.Counts drawn) (g : γ) :
    drawn (sampleBall r n b nonNegative g).2 ≤ drawn g + (2 * n + 1) := by
  have hvalue : ∀ g, drawn (directedDraw r nonNegative g).2 ≤ drawn g + 1 := hc.normal
  have hvalues := RandomSource.drawn_repeated_le hvalue n g
  have hradius := hc.uniform (RandomSource.repeated (directedDraw r nonNegative) n g).2
  rw [sampleBall_eq]
  dsimp only
  omega

/-- A candidate of a budget set takes at most two draws for each value, and one more. -/
theorem drawn_sampleBudget_le {drawn : γ → ℕ} (hc : r.Counts drawn) (g : γ) :
    drawn (sampleBudget r n b nonNegative g).2 ≤ drawn g + (2 * n + 1) := by
  have hvalue : ∀ g, drawn (signedDraw r nonNegative g).2 ≤ drawn g + 2 := by
    intro g
    have hmagnitude := hc.exponential g
    rw [signedDraw]
    cases nonNegative with
    | true => exact hmagnitude.trans (by omega)
    | false =>
      have hsign := hc.coin (r.exponential g).2
      change drawn (r.coin (r.exponential g).2).2 ≤ _
      omega
  have hextra := hc.exponential g
  have hvalues := RandomSource.drawn_repeated_le hvalue n (r.exponential g).2
  rw [sampleBudget_eq]
  dsimp only
  omega

/-! ## Samples -/

/-- A realization of a ball or a budget set: its values are within the bounds and the norm, and none
of them is negative when the uncertainties cannot be. -/
structure IsSample (s : UncertaintySet ℝ) (norm : NormKind) (b : ℝ) (xs : List ℝ) : Prop where
  bounds : List.Forall₂ (fun v x => v.bounds.admits x = true) s.vars.items xs
  norm : norm.apply xs ≤ b
  nonneg : s.nonNegative = true → ∀ x ∈ xs, 0 ≤ x

variable {s : UncertaintySet ℝ} {norm : NormKind} {xs : List ℝ}

/-- Bounds that are not negative admit no negative value. -/
theorem nonneg_of_admits {b : Bounds ℝ} {x : ℝ} (hb : b.isNonNegative = true)
    (hx : b.admits x = true) : 0 ≤ x := by
  rw [Bounds.isNonNegative, Option.any_eq_true] at hb
  obtain ⟨l, hl, hl0⟩ := hb
  exact (of_decide_eq_true hl0).trans (((Bounds.admits_iff b x).1 hx).1 l hl)

/-- Candidates within the bounds are samples. -/
theorem IsCandidate.isSample (h : IsCandidate s.numVariables norm b xs)
    (hwithin : s.withinBounds xs = true) : s.IsSample norm b xs := by
  have hbounds : List.Forall₂ (fun v x => v.bounds.admits x = true) s.vars.items xs := by
    rw [withinBounds, UncertaintySet.bounds, List.zip_map_left, List.all_map,
      List.all_eq_true] at hwithin
    exact List.forall₂_iff_zip.2 ⟨h.length.symm, fun hmem => hwithin _ hmem⟩
  refine ⟨hbounds, h.norm, fun hnonneg x hx => ?_⟩
  obtain ⟨v, hv, hadmits⟩ := exists_of_forall₂_right hbounds hx
  rw [nonNegative, bounds, List.all_map, List.all_eq_true] at hnonneg
  exact nonneg_of_admits (hnonneg v hv) hadmits

/-- Candidates are drawn until one is a sample, or there have been too many. -/
theorem sampleWithin_ends {candidate : γ → List ℝ × γ} {drawn : γ → ℕ} {k : ℕ}
    (hdrawn : ∀ g, drawn (candidate g).2 ≤ drawn g + k)
    (hcandidate : ∀ g, IsCandidate s.numVariables norm b (candidate g).1) (attempts : ℕ) :
    (s.sampleWithin candidate attempts).Ends drawn (attempts * k) (s.IsSample norm b)
      (· = .invalidSample) := by
  induction attempts with
  | zero => exact .throw rfl
  | succ attempts ih =>
    rw [sampleWithin, Nat.succ_mul, Nat.add_comm]
    refine (Step.Ends.modifyGet hdrawn hcandidate).bind fun xs hxs => ?_
    split
    · next hwithin => exact .pure (hxs.isSample hwithin)
    · exact ih

/-- As many samples as asked for, of a ball or a budget set. -/
def AreSamples (s : UncertaintySet ℝ) (count : ℕ) (xss : List (List ℝ)) : Prop :=
  xss.length = count ∧ ∃ norm b, s.specialType.norm? = some norm ∧ s.budget = .ok b ∧
    ∀ xs ∈ xss, s.IsSample norm b xs

/-- What sampling fails with. -/
def RefusesSampling (s : UncertaintySet ℝ) (e : ModelError ℝ) : Prop :=
  s.specialType.norm? = none ∨ s.allBounded = false ∨ e = .invalidSample

private theorem mapM_sampleWithin_ends (hnorm : s.specialType.norm? = some norm)
    (hbudget : s.budget = .ok b) {candidate : γ → List ℝ × γ} {drawn : γ → ℕ} {k : ℕ}
    (hdrawn : ∀ g, drawn (candidate g).2 ≤ drawn g + k)
    (hcandidate : ∀ g, IsCandidate s.numVariables norm b (candidate g).1) (count : ℕ) :
    ((List.replicate count ()).mapM fun _ => s.sampleWithin candidate maxSampleAttempts).Ends drawn
      (count * (maxSampleAttempts * k)) (s.AreSamples count) s.RefusesSampling := by
  have hall : ∀ x ∈ List.replicate count (), (s.sampleWithin candidate maxSampleAttempts).Ends drawn
      (maxSampleAttempts * k) (s.IsSample norm b) s.RefusesSampling :=
    fun _ _ => (sampleWithin_ends hdrawn hcandidate _).imp (fun _ h => h) fun _ he => .inr (.inr he)
  have hends := Step.Ends.mapM hall
  rw [List.length_replicate] at hends
  exact hends.imp (fun xss hxss => ⟨hxss.1, norm, b, hnorm, hbudget, hxss.2⟩) fun _ he => he

private theorem exists_candidate (hr : r.Lawful) {drawn : γ → ℕ} (hc : r.Counts drawn)
    (hnorm : s.specialType.norm? = some norm) (hbounded : s.allBounded = true)
    (hbudget : s.budget = .ok b) (hb : 0 ≤ b) (count : ℕ) :
    ∃ candidate : γ → List ℝ × γ,
      (∀ g, drawn (candidate g).2 ≤ drawn g + (2 * s.numVariables + 1)) ∧
      (∀ g, IsCandidate s.numVariables norm b (candidate g).1) ∧
      s.sample r count = (List.replicate count ()).mapM fun _ =>
        s.sampleWithin candidate maxSampleAttempts := by
  cases htype : s.specialType with
  | ball =>
    rw [htype] at hnorm
    cases hnorm
    exact ⟨sampleBall r s.numVariables b s.nonNegative, drawn_sampleBall_le hc,
      isCandidate_sampleBall hr hb, by simp [sample, htype, hbounded, hbudget, Step.ofExcept]⟩
  | budget =>
    rw [htype] at hnorm
    cases hnorm
    exact ⟨sampleBudget r s.numVariables b s.nonNegative, drawn_sampleBudget_le hc,
      isCandidate_sampleBudget hr hb, by simp [sample, htype, hbounded, hbudget, Step.ofExcept]⟩
  | box =>
    rw [htype] at hnorm
    cases hnorm
  | other =>
    rw [htype] at hnorm
    cases hnorm

private theorem sample_eq_throw (h : s.specialType.norm? = none ∨ s.allBounded = false)
    (count : ℕ) : ∃ e, s.sample r count = throw e := by
  have hunbounded (hnorm : s.specialType.norm? ≠ none) : s.allBounded = false :=
    h.resolve_left hnorm
  cases htype : s.specialType with
  | ball =>
    refine ⟨.unboundedSampling, ?_⟩
    simp [sample, htype, hunbounded (by rw [htype]; nofun)]
    rfl
  | budget =>
    refine ⟨.unboundedSampling, ?_⟩
    simp [sample, htype, hunbounded (by rw [htype]; nofun)]
    rfl
  | box =>
    rw [sample, htype]
    exact ⟨_, rfl⟩
  | other =>
    rw [sample, htype]
    exact ⟨_, rfl⟩

private theorem sample_ends (hr : r.Lawful) {drawn : γ → ℕ} (hc : r.Counts drawn)
    (s : UncertaintySet ℝ) (count : ℕ) :
    (s.sample r count).Ends drawn (count * (maxSampleAttempts * (2 * s.numVariables + 1)))
      (s.AreSamples count) s.RefusesSampling := by
  by_cases hrefused : s.specialType.norm? = none ∨ s.allBounded = false
  · obtain ⟨e, he⟩ := sample_eq_throw (r := r) hrefused count
    rw [he]
    exact .throw (or_assoc.1 (.inl hrefused))
  · rw [not_or, Bool.not_eq_false] at hrefused
    obtain ⟨hnorm, hbounded⟩ := hrefused
    obtain ⟨norm, hnorm⟩ := Option.ne_none_iff_exists'.1 hnorm
    obtain ⟨a, b, ha, hball⟩ := exists_normBall hnorm
    have hbudget := budget_eq_ok ha hball
    obtain ⟨candidate, hdrawn, hcandidate, hrun⟩ := exists_candidate hr hc hnorm hbounded hbudget
      (ConstraintSet.normBall?_eq_some hball).1 count
    rw [hrun]
    exact mapM_sampleWithin_ends hnorm hbudget hdrawn hcandidate count

/-- Whatever is drawn, sampling ends after a limited number of draws. It returns as many
realizations as it was asked for, each of which has one value for each uncertainty, within its
bounds, with the Euclidean norm of a ball or the sum of magnitudes of a budget set at most the
budget, and without negative values when the uncertainties cannot be negative. Otherwise it fails,
and a bounded ball or budget set only with the failure that stands for too many candidates outside
the bounds. Exponential draws may all vanish: the quotient by their sum is zero then. -/
theorem sample_within_set (hr : r.Lawful) (s : UncertaintySet ℝ) (count : ℕ) (g : γ) :
    (∀ drawn, r.Counts drawn → drawn ((s.sample r count).perform g).2 ≤
      drawn g + count * (maxSampleAttempts * (2 * s.numVariables + 1))) ∧
    ((∃ xss g', s.sample r count g = .ok xss g' ∧ xss.length = count ∧
        ∃ norm b, s.specialType.norm? = some norm ∧ s.budget = .ok b ∧ ∀ xs ∈ xss,
          List.Forall₂ (fun v x => v.bounds.admits x = true) s.vars.items xs ∧
          norm.apply xs ≤ b ∧ (s.nonNegative = true → ∀ x ∈ xs, 0 ≤ x)) ∨
      ∃ e g', s.sample r count g = .error e g' ∧
        (s.specialType.norm? = none ∨ s.allBounded = false ∨ e = .invalidSample)) := by
  constructor
  · intro drawn hc
    obtain ⟨xss, g', hrun, hdrawn, -⟩ | ⟨e, g', hrun, hdrawn, -⟩ := sample_ends hr hc s count g
    · rwa [Step.perform, hrun]
    · rwa [Step.perform, hrun]
  · have hc : r.Counts fun _ => 0 := ⟨by simp, by simp, by simp, by simp⟩
    obtain ⟨xss, g', hrun, -, hlength, norm, b, hnorm, hbudget, hxss⟩ | ⟨e, g', hrun, -, he⟩ :=
      sample_ends hr hc s count g
    · exact .inl ⟨xss, g', hrun, hlength, norm, b, hnorm, hbudget,
        fun xs hxs => ⟨(hxss xs hxs).bounds, (hxss xs hxs).norm, (hxss xs hxs).nonneg⟩⟩
    · exact .inr ⟨e, g', hrun, he⟩

/-- Draws that are always the same, with a count of them. -/
noncomputable def steady : RandomSource ℝ ℕ where
  normal g := (1, g + 1)
  uniform g := (0, g + 1)
  exponential g := (1, g + 1)
  coin g := (true, g + 1)

/-- Both magnitudes of a realization of the diamond are a third of the budget, which is what the sum
of three draws leaves for them. -/
theorem sample_within_set_diamond : steady.Lawful ∧
    diamond.sample steady 1 0 = .ok [[1 / 3, 1 / 3]] 5 ∧ steady.Counts id ∧
      5 ≤ 0 + 1 * (maxSampleAttempts * (2 * 2 + 1)) ∧
        NormKind.one.apply [1 / 3, 1 / 3] ≤ (1 : ℝ) := by
  have hr : steady.Lawful := ⟨fun g => by norm_num [steady], fun g => by norm_num [steady]⟩
  have hc : steady.Counts id :=
    ⟨fun _ => le_rfl, fun _ => le_rfl, fun _ => le_rfl, fun _ => le_rfl⟩
  have hball := ConstraintSet.normBall?_normBall centered .one "budget" zero_le_one
  have htype : diamond.specialType = .budget := (specialType_eq_budget_iff rfl).2 ⟨1, hball⟩
  have hbudget : diamond.budget = .ok 1 := budget_eq_ok rfl hball
  have hbounded : diamond.allBounded = true := by
    simp [allBounded, bounds, diamond, centered, Bounds.isBounded]
  have hcandidate : sampleBudget steady 2 1 false 0 = ([1 / 3, 1 / 3], 5) := by
    norm_num [sampleBudget_eq, RandomSource.repeated, signedDraw, steady]
  have hsigned : diamond.nonNegative = false := by
    norm_num [nonNegative, bounds, diamond, centered, Bounds.isNonNegative]
  have hwithin : diamond.withinBounds [1 / 3, 1 / 3] = true := by
    norm_num [withinBounds, bounds, diamond, centered, Bounds.admits]
  have hfirst : diamond.sampleWithin (sampleBudget steady 2 1 false) maxSampleAttempts 0 =
      .ok [1 / 3, 1 / 3] 5 := by
    rw [maxSampleAttempts, sampleWithin]
    refine Step.bind_eq_ok_iff.2 ⟨_, _, Step.ofChange_eq_ok_iff.2 hcandidate, ?_⟩
    rw [if_pos hwithin]
    rfl
  have hrun : diamond.sample steady 1 0 = .ok [[1 / 3, 1 / 3]] 5 := by
    have heq : diamond.sample steady 1 = (List.replicate 1 ()).mapM fun _ =>
        diamond.sampleWithin (sampleBudget steady 2 1 false) maxSampleAttempts := by
      simp [sample, htype, hbounded, hbudget, hsigned, Step.ofExcept]
      rfl
    rw [heq, List.replicate_one, List.mapM_cons]
    exact Step.bind_eq_ok_iff.2 ⟨_, _, hfirst, rfl⟩
  obtain ⟨hdrawn, hsamples⟩ := sample_within_set hr diamond 1 0
  have hdraws := hdrawn id hc
  rw [Step.perform, hrun] at hdraws
  obtain ⟨xss, g', hxss, -, norm, b, hnorm, hb, hall⟩ | ⟨e, g', herror, -⟩ := hsamples
  · rw [htype] at hnorm
    cases hnorm
    obtain rfl : 1 = b := Except.ok.inj (hbudget.symm.trans hb)
    cases hrun.symm.trans hxss
    exact ⟨hr, hrun, hc, hdraws, (hall _ List.mem_cons_self).2.1⟩
  · cases hrun.symm.trans herror

end UncertaintySet

end AdjustableRobust
