import AdjustableRobust.Proofs.Expression.Value
import AdjustableRobust.Proofs.Success
import AdjustableRobust.Robust.Distribution

/-!
# Means over outcomes

Expected values, vectors and matrices are means over the outcomes of a distribution, coordinate by
coordinate. When one of them can be computed, no outcome is refused. Conversely they can be computed
when the function succeeds at every outcome with a value of one shape.
-/

namespace AdjustableRobust

namespace Distribution

variable {β : Type} {d : Distribution ℝ}

/-- The outcomes are the given realizations, none of them refused. -/
def HasOutcomes (d : Distribution ℝ) (rows : List (List ℝ)) : Prop := d.outcomes = rows.map .ok

/-- There is one way to list the outcomes. -/
theorem HasOutcomes.unique {rows rows' : List (List ℝ)} (h : d.HasOutcomes rows)
    (h' : d.HasOutcomes rows') : rows' = rows := by
  have hmap : rows'.map (Except.ok (ε := ModelError ℝ)) = rows.map .ok := h'.symm.trans h
  exact List.map_injective_iff.2 (fun _ _ => Except.ok.inj) hmap

private theorem exists_rows {f : List ℝ → Except (ModelError ℝ) β} {vs : List β}
    (h : List.Forall₂ (fun r v => (r >>= f) = .ok v) d.outcomes vs) :
    ∃ rows, d.HasOutcomes rows ∧ List.Forall₂ (fun r v => f r = .ok v) rows vs := by
  unfold HasOutcomes
  generalize d.outcomes = outcomes at h
  induction h with
  | nil => exact ⟨[], rfl, .nil⟩
  | cons hv _ ih =>
    obtain ⟨rows, rfl, hvs⟩ := ih
    obtain ⟨row, rfl, hrow⟩ := bind_eq_ok_iff.1 hv
    exact ⟨row :: rows, rfl, .cons hrow hvs⟩

private theorem map_eq_of_forall₂ {f : List ℝ → Except (ModelError ℝ) β} {rows : List (List ℝ)}
    {vs : List β} (h : List.Forall₂ (fun r v => f r = .ok v) rows vs) {L : β → ℝ} {g : List ℝ → ℝ}
    (hg : ∀ r v, f r = .ok v → L v = g r) : vs.map L = rows.map g := by
  induction h with
  | nil => rfl
  | cons hv _ ih => rw [List.map_cons, List.map_cons, ih, hg _ _ hv]

private theorem total_eq_ok {add? : β → β → Option β} {f : List ℝ → Except (ModelError ℝ) β}
    {outcomes : List (Except (ModelError ℝ) (List ℝ))} {start? : Option β} {sum : β}
    (hrun : total add? f outcomes start? = .ok sum) :
    ∃ vs, List.Forall₂ (fun r v => (r >>= f) = .ok v) outcomes vs ∧ start?.toList ++ vs ≠ [] ∧
      (∀ Q : β → Prop, (∀ x y z, add? x y = some z → Q x → Q y → Q z) →
        (∀ v ∈ start?.toList ++ vs, Q v) → Q sum) ∧
      ∀ L : β → ℝ, (∀ x y z, add? x y = some z → L z = L x + L y) →
        L sum = ((start?.toList ++ vs).map L).sum := by
  induction outcomes generalizing start? with
  | nil =>
    cases start? with
    | none => cases hrun
    | some x =>
      obtain rfl := Except.ok.inj hrun
      exact ⟨[], .nil, by simp, fun Q _ h => h x (by simp), fun L _ => by simp⟩
  | cons r rs ih =>
    rw [total, bind_eq_ok_iff] at hrun
    obtain ⟨v, hv, hrun⟩ := hrun
    cases start? with
    | none =>
      obtain ⟨vs, hvs, -, hQ, hL⟩ := ih hrun
      exact ⟨v :: vs, .cons hv hvs, by simp, hQ, hL⟩
    | some x =>
      dsimp only at hrun
      cases hadd : add? x v with
      | none =>
        rw [hadd] at hrun
        exact absurd hrun throw_ne_ok
      | some y =>
        rw [hadd] at hrun
        obtain ⟨vs, hvs, -, hQ, hL⟩ := ih hrun
        refine ⟨v :: vs, .cons hv hvs, by simp, fun Q hstep h => hQ Q hstep ?_, fun L hstep => ?_⟩
        · simp only [Option.toList_some, List.singleton_append, List.forall_mem_cons] at h ⊢
          exact ⟨hstep x v y hadd h.1 h.2.1, h.2.2⟩
        · rw [hL L hstep]
          simp [hstep x v y hadd, add_assoc]

/-- What is additive has at the sum of all values the sum over the outcomes, and the sum has the
shape of the values. -/
theorem sum_of_total {add? : β → β → Option β} {f : List ℝ → Except (ModelError ℝ) β} {sum : β}
    (hrun : total add? f d.outcomes none = .ok sum) :
    ∃ rows, d.HasOutcomes rows ∧ rows ≠ [] ∧
      (∀ Q : β → Prop, (∀ x y z, add? x y = some z → Q x → Q y → Q z) →
        (∀ r v, f r = .ok v → Q v) → Q sum) ∧
      ∀ (L : β → ℝ) (g : List ℝ → ℝ), (∀ x y z, add? x y = some z → L z = L x + L y) →
        (∀ r v, f r = .ok v → L v = g r) → L sum = (rows.map g).sum := by
  obtain ⟨vs, hvs, hnonempty, hQ, hL⟩ := total_eq_ok hrun
  obtain ⟨rows, hrows, hvs⟩ := exists_rows hvs
  rw [Option.toList_none, List.nil_append] at hnonempty hQ hL
  refine ⟨rows, hrows, ?_, fun Q hstep hf => hQ Q hstep fun v hv => ?_, fun L g hstep hf => ?_⟩
  · rintro rfl
    exact hnonempty (List.forall₂_nil_left_iff.1 hvs)
  · obtain ⟨r, -, hr⟩ := exists_of_forall₂_right hvs hv
    exact hf r v hr
  · rw [hL L hstep, map_eq_of_forall₂ hvs hf]

/-- The expected value is the mean of the values at the outcomes. -/
theorem expectedValue_eq_ok {f : List ℝ → Except (ModelError ℝ) ℝ} {x : ℝ}
    (hrun : d.expectedValue f = .ok x) {g : List ℝ → ℝ} (hg : ∀ r v, f r = .ok v → v = g r) :
    ∃ rows, d.HasOutcomes rows ∧ x = (rows.map g).sum / rows.length := by
  obtain ⟨vs, hvs, hx⟩ := bind_eq_ok_iff.1 hrun
  obtain ⟨rows, hrows, hvs⟩ := exists_rows (mapM_eq_ok_iff.1 hvs)
  have hmap := map_eq_of_forall₂ (L := id) hvs hg
  rw [List.map_id] at hmap
  refine ⟨rows, hrows, ?_⟩
  rw [← pure_eq_ok_iff.1 hx, hmap, Scalar.sum_real, count, hrows, List.length_map,
    Scalar.natCast_real]

private theorem getD_zipWith_add {xs ys : List ℝ} (h : xs.length = ys.length) (i : ℕ) :
    (List.zipWith (· + ·) xs ys).getD i 0 = xs.getD i 0 + ys.getD i 0 := by
  simp only [List.getD_eq_getElem?_getD]
  by_cases hi : i < xs.length
  · have hi' : i < ys.length := h ▸ hi
    simp [hi, hi']
  · have hi' : ¬i < ys.length := h ▸ hi
    simp [hi, hi']

/-- The expected vector has as weighted sum the mean of the weighted sums. -/
theorem expectedVector_eq_ok {f : List ℝ → Except (ModelError ℝ) (List ℝ)} {xs : List ℝ}
    (hrun : d.expectedVector f = .ok xs) {n : ℕ} (hn : ∀ r v, f r = .ok v → v.length = n)
    {w : ℕ → ℝ} {g : List ℝ → ℝ} (hg : ∀ r v, f r = .ok v →
      ∑ i ∈ Finset.range n, v.getD i 0 * w i = g r) :
    ∃ rows, d.HasOutcomes rows ∧ rows ≠ [] ∧ xs.length = n ∧
      ∑ i ∈ Finset.range n, xs.getD i 0 * w i = (rows.map g).sum / rows.length := by
  obtain ⟨sum, hsum, hxs⟩ := bind_eq_ok_iff.1 hrun
  obtain rfl := pure_eq_ok_iff.1 hxs
  obtain ⟨rows, hrows, hnonempty, hQ, hL⟩ := sum_of_total hsum
  have hadd : ∀ xs ys zs : List ℝ, addVectors? xs ys = some zs →
      xs.length = ys.length ∧ zs = List.zipWith (· + ·) xs ys := fun xs ys zs h => by
    unfold addVectors? at h
    split at h
    · next hlength => exact ⟨hlength, (Option.some.inj h).symm⟩
    · cases h
  refine ⟨rows, hrows, hnonempty, ?_, ?_⟩
  · rw [List.length_map]
    refine hQ (·.length = n) (fun xs ys zs h hx hy => ?_) hn
    obtain ⟨-, rfl⟩ := hadd xs ys zs h
    rw [List.length_zipWith, hx, hy, min_self]
  · have hmean : ∀ i, (sum.map (· / d.count)).getD i 0 = sum.getD i 0 / rows.length := fun i => by
      rw [count, hrows, List.length_map, Scalar.natCast_real]
      simp only [List.getD_eq_getElem?_getD, List.getElem?_map]
      cases sum[i]? <;> simp
    have htotal := hL (fun v => ∑ i ∈ Finset.range n, v.getD i 0 * w i) g
      (fun xs ys zs h => by
        obtain ⟨hlength, rfl⟩ := hadd xs ys zs h
        simp only [getD_zipWith_add hlength, add_mul, Finset.sum_add_distrib]) hg
    rw [← htotal, Finset.sum_div]
    exact Finset.sum_congr rfl fun i _ => by rw [hmean, div_mul_eq_mul_div]

private theorem getD_addMatrices {xs ys zs : List (List ℝ)} (h : addMatrices? xs ys = some zs)
    (i j : ℕ) : (zs.getD i []).getD j 0 = (xs.getD i []).getD j 0 + (ys.getD i []).getD j 0 := by
  unfold addMatrices? at h
  split at h
  · next hlengths =>
    obtain rfl := Option.some.inj h
    have hlength : (xs.getD i []).length = (ys.getD i []).length := by
      have hi := congrArg (·[i]?.getD 0) hlengths
      simp only [List.getElem?_map] at hi
      simp only [List.getD_eq_getElem?_getD]
      cases hx : xs[i]? <;> cases hy : ys[i]? <;> simp_all
    rw [← getD_zipWith_add hlength]
    have hrow : (List.zipWith (List.zipWith (· + ·)) xs ys).getD i [] =
        List.zipWith (· + ·) (xs.getD i []) (ys.getD i []) := by
      simp only [List.getD_eq_getElem?_getD, List.getElem?_zipWith]
      cases xs[i]? <;> cases ys[i]? <;> simp
    rw [hrow]
  · cases h

/-- The expected matrix has as weighted sum the mean of the weighted sums. -/
theorem expectedMatrix_eq_ok {f : List ℝ → Except (ModelError ℝ) (List (List ℝ))}
    {M : List (List ℝ)} (hrun : d.expectedMatrix f = .ok M) {n : ℕ}
    (hn : ∀ r v, f r = .ok v → v.length = n) {m : ℕ → ℕ} {w : ℕ → ℕ → ℝ} {g : List ℝ → ℝ}
    (hg : ∀ r v, f r = .ok v →
      ∑ i ∈ Finset.range n, ∑ j ∈ Finset.range (m i), (v.getD i []).getD j 0 * w i j = g r) :
    ∃ rows, d.HasOutcomes rows ∧ M.length = n ∧
      ∑ i ∈ Finset.range n, ∑ j ∈ Finset.range (m i), (M.getD i []).getD j 0 * w i j =
        (rows.map g).sum / rows.length := by
  obtain ⟨sum, hsum, hM⟩ := bind_eq_ok_iff.1 hrun
  obtain rfl := pure_eq_ok_iff.1 hM
  obtain ⟨rows, hrows, hnonempty, hQ, hL⟩ := sum_of_total hsum
  refine ⟨rows, hrows, ?_, ?_⟩
  · rw [List.length_map]
    refine hQ (·.length = n) (fun xs ys zs h hx hy => ?_) hn
    unfold addMatrices? at h
    split at h
    · rw [← Option.some.inj h, List.length_zipWith, hx, hy, min_self]
    · cases h
  · have hmean : ∀ i j, ((sum.map fun row => row.map (· / d.count)).getD i []).getD j 0 =
        (sum.getD i []).getD j 0 / rows.length := fun i j => by
      rw [count, hrows, List.length_map, Scalar.natCast_real]
      simp only [List.getD_eq_getElem?_getD, List.getElem?_map]
      cases sum[i]? with
      | none => simp
      | some row =>
        simp only [Option.map_some, Option.getD_some, List.getElem?_map]
        cases row[j]? <;> simp
    have htotal := hL
      (fun v => ∑ i ∈ Finset.range n, ∑ j ∈ Finset.range (m i), (v.getD i []).getD j 0 * w i j) g
      (fun xs ys zs h => by
        simp only [getD_addMatrices h, add_mul, Finset.sum_add_distrib]) hg
    rw [← htotal, Finset.sum_div]
    refine Finset.sum_congr rfl fun i _ => ?_
    rw [Finset.sum_div]
    exact Finset.sum_congr rfl fun j _ => by rw [hmean, div_mul_eq_mul_div]

/-! ## Existence -/

variable {rows : List (List ℝ)}

/-- The uniform distribution on realizations has them as outcomes. -/
theorem hasOutcomes_of_ofRealizations (h : ofRealizations rows = .ok d) :
    d.HasOutcomes rows ∧ rows ≠ [] := by
  unfold ofRealizations at h
  split at h
  · cases h
  · next hnonempty =>
    obtain rfl := Except.ok.inj h
    exact ⟨rfl, fun hnil => hnonempty (List.isEmpty_iff.2 hnil)⟩

/-- Values at all outcomes. -/
theorem evaluate_yields {f : List ℝ → Except (ModelError ℝ) β} {Q : β → Prop}
    (hd : d.HasOutcomes rows) (hf : ∀ r ∈ rows, Yields (f r) Q) :
    Yields (d.evaluate f) fun vs => ∀ v ∈ vs, Q v := by
  rw [evaluate, hd]
  refine .mapM fun r hr => ?_
  obtain ⟨row, hrow, rfl⟩ := List.mem_map.1 hr
  exact hf row hrow

/-- The expected value exists when there is a value at every outcome. -/
theorem expectedValue_yields {f : List ℝ → Except (ModelError ℝ) ℝ} (hd : d.HasOutcomes rows)
    (hf : ∀ r ∈ rows, Yields (f r) fun _ => True) : Yields (d.expectedValue f) fun _ => True :=
  (evaluate_yields hd hf).bind fun _ _ => .pure trivial

private theorem total_yields {add? : β → β → Option β} {f : List ℝ → Except (ModelError ℝ) β}
    {Q : β → Prop} (hadd : ∀ x y, Q x → Q y → ∃ z, add? x y = some z ∧ Q z)
    (hf : ∀ r ∈ rows, Yields (f r) Q) {start? : Option β} (hstart : ∀ x ∈ start?, Q x)
    (hnonempty : start? = none → rows ≠ []) : Yields (total add? f (rows.map .ok) start?) Q := by
  induction rows generalizing start? with
  | nil =>
    cases start? with
    | none => exact absurd rfl (hnonempty rfl)
    | some x => exact .pure (hstart x rfl)
  | cons r rows ih =>
    obtain ⟨hr, hrows⟩ := List.forall_mem_cons.1 hf
    rw [List.map_cons, total]
    refine Yields.bind (P := Q) hr fun v hv => ?_
    cases start? with
    | none => exact ih hrows (fun _ h => Option.some.inj h ▸ hv) nofun
    | some x =>
      obtain ⟨z, hz, hQ⟩ := hadd x v (hstart x rfl) hv
      dsimp only
      rw [hz]
      exact ih hrows (fun _ h => Option.some.inj h ▸ hQ) nofun

/-- The expected vector exists when all values have one length. -/
theorem expectedVector_yields {f : List ℝ → Except (ModelError ℝ) (List ℝ)} (n : ℕ)
    (hd : d.HasOutcomes rows) (hnonempty : rows ≠ [])
    (hf : ∀ r ∈ rows, Yields (f r) fun v => v.length = n) :
    Yields (d.expectedVector f) fun _ => True := by
  have htotal : Yields (total addVectors? f d.outcomes none) fun v => v.length = n := by
    rw [hd]
    refine total_yields (fun x y hx hy => ?_) hf nofun fun _ => hnonempty
    refine ⟨_, if_pos (hx.trans hy.symm), ?_⟩
    rw [List.length_zipWith, hx, hy, min_self]
  exact htotal.bind fun _ _ => .pure trivial

/-- The expected matrix exists when all values have rows of the same lengths. -/
theorem expectedMatrix_yields {f : List ℝ → Except (ModelError ℝ) (List (List ℝ))}
    (lengths : List ℕ) (hd : d.HasOutcomes rows) (hnonempty : rows ≠ [])
    (hf : ∀ r ∈ rows, Yields (f r) fun M => M.map List.length = lengths) :
    Yields (d.expectedMatrix f) fun _ => True := by
  have htotal : Yields (total addMatrices? f d.outcomes none)
      fun M => M.map List.length = lengths := by
    rw [hd]
    refine total_yields (fun x y hx hy => ?_) hf nofun fun _ => hnonempty
    refine ⟨_, if_pos (hx.trans hy.symm), ?_⟩
    have hzip : List.zipWith (fun x y => min (List.length x) (List.length y)) x y = lengths := by
      rw [← List.zipWith_map, hx, hy, List.zipWith_self]
      simp
    simpa [List.map_zipWith] using hzip
  exact htotal.bind fun _ _ => .pure trivial

end Distribution

end AdjustableRobust
