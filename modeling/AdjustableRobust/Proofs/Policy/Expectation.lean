import AdjustableRobust.Proofs.Policy.Appends
import AdjustableRobust.Proofs.Policy.Decisions
import AdjustableRobust.Proofs.Robust.Distribution

/-!
# Expectations under policies

The expectation of an expression is computed from what its terms contribute to the coefficients and
constants of the policies. As an expression in the policy variables it has the mean, over all
outcomes, of the values that the expression has under the policies.
-/

namespace AdjustableRobust

/-! ## Policies by cell -/

namespace PolicyVariables

/-- Value of a coefficient, by position of the decision and of the dependency. -/
noncomputable def factorAt (p : PolicyVariables) (ω : ConicRef → ℝ) (slot position : ℕ) : ℝ :=
  ((p.factors.getD slot [])[position]?.map ω).getD 0

/-- Value of a constant, by position of the decision. -/
noncomputable def constantAt (p : PolicyVariables) (ω : ConicRef → ℝ) (slot : ℕ) : ℝ :=
  (p.constants[slot]?.map ω).getD 0

/-- What the decision that a handle points to does at every realization. -/
noncomputable def fixedPart (p : PolicyVariables) (model : RobustModel ℝ) (ω : ConicRef → ℝ)
    (h : DecisionRef) : ℝ :=
  (model.decisions.items[h.slot]?.map fun _ => p.constantAt ω h.slot).getD 0

/-- How the decision that a handle points to reacts to the realization. -/
noncomputable def adjustedPart (p : PolicyVariables) (model : RobustModel ℝ) (ω : ConicRef → ℝ)
    (u : ℕ → ℝ) (h : DecisionRef) : ℝ :=
  (model.decisions.items[h.slot]?.map fun d =>
    (d.dependencies.zipIdx.map fun x => p.factorAt ω h.slot x.2 * bySlot u x.1).sum).getD 0

/-- A policy decides its constant part and its reaction. -/
theorem decisionValue_eq (p : PolicyVariables) (model : RobustModel ℝ) (ω : ConicRef → ℝ)
    (u : ℕ → ℝ) : p.decisionValue model ω u =
      fun h => p.fixedPart model ω h + p.adjustedPart model ω u h := by
  have hsum : ∀ (us : List UncertaintyRef) (fs : List ConicRef) (k : ℕ),
      (List.zipWith (fun d a => ω a * bySlot u d) us (fs.drop k)).sum =
        ((us.zipIdx k).map fun x => (fs[x.2]?.map ω).getD 0 * bySlot u x.1).sum := by
    intro us fs
    induction us with
    | nil => simp
    | cons v us ih =>
      intro k
      rw [List.zipIdx_cons, List.map_cons, List.sum_cons, ← ih (k + 1)]
      by_cases hk : k < fs.length
      · rw [List.drop_eq_getElem_cons hk, List.zipWith_cons_cons, List.sum_cons]
        simp [hk]
      · rw [List.drop_eq_nil_of_le (not_lt.1 hk),
          List.drop_eq_nil_of_le (Nat.le_succ_of_le (not_lt.1 hk)), List.zipWith_nil_right,
          List.zipWith_nil_right, List.getElem?_eq_none (not_lt.1 hk)]
        simp
  funext h
  rw [decisionValue, fixedPart, adjustedPart]
  cases model.decisions.items[h.slot]? with
  | none => simp
  | some d =>
    have hreact := hsum d.dependencies (p.factors.getD h.slot []) 0
    rw [List.drop_zero] at hreact
    simp only [Option.map_some, Option.getD_some, valueAt, hreact, constantAt, factorAt]

end PolicyVariables

/-- A linear expression is additive in the values of its variables. -/
theorem LinearExpr.eval_add_right {V : Type} (e : LinearExpr ℝ V) (f g : V → ℝ) :
    e.eval (fun v => f v + g v) = e.eval f + e.eval g := by
  simp only [eval, mul_add, List.sum_map_add]

namespace UncertainExpr

/-- What the expression owes to the constant parts of the policies. -/
noncomputable def fixedPart (e : UncertainExpr ℝ) (model : RobustModel ℝ) (p : PolicyVariables)
    (ω : ConicRef → ℝ) (u : ℕ → ℝ) : ℝ :=
  e.decisions.eval (p.fixedPart model ω) +
    e.products.eval fun v => bySlot u v.uncertainty * p.fixedPart model ω v.decision

/-- What the expression owes to the reactions of the policies. -/
noncomputable def adjustedPart (e : UncertainExpr ℝ) (model : RobustModel ℝ) (p : PolicyVariables)
    (ω : ConicRef → ℝ) (u : ℕ → ℝ) : ℝ :=
  e.decisions.eval (p.adjustedPart model ω u) +
    e.products.eval fun v => bySlot u v.uncertainty * p.adjustedPart model ω u v.decision

/-- Under policies an expression consists of what it says of the uncertainties alone, and of what
it owes to the policies. -/
theorem underPolicies_eq (e : UncertainExpr ℝ) (model : RobustModel ℝ) (p : PolicyVariables)
    (ω : ConicRef → ℝ) (u : ℕ → ℝ) :
    e.underPolicies model p ω u = e.constant + (e.uncertainties.eval (bySlot u) +
      e.adjustedPart model p ω u + e.fixedPart model p ω u) := by
  rw [underPolicies, p.decisionValue_eq, eval, adjustedPart, fixedPart]
  simp only [mul_add, LinearExpr.eval_add_right]
  ring

end UncertainExpr

namespace Counterpart

variable {model : RobustModel ℝ} {p : PolicyVariables} {e : UncertainExpr ℝ} {ω : ConicRef → ℝ}
variable {r : List ℝ}

/-! ## Contributions -/

private theorem sum_cellSum {ι κ : Type} [DecidableEq κ] {s : Finset ι} {cell : ι → κ}
    (hcell : Function.Injective cell) {cs : List (κ × ℝ)} (hcs : ∀ c ∈ cs, ∃ x ∈ s, cell x = c.1)
    (w : κ → ℝ) :
    ∑ x ∈ s, cellSum cs (cell x) * w (cell x) = (cs.map fun c => c.2 * w c.1).sum := by
  induction cs with
  | nil => simp [cellSum]
  | cons c cs ih =>
    obtain ⟨⟨x, hx, hc⟩, hcs⟩ := List.forall_mem_cons.1 hcs
    have hsplit : ∀ k, cellSum (c :: cs) k = (if c.1 = k then c.2 else 0) + cellSum cs k := by
      intro k
      by_cases hk : c.1 = k <;> simp [cellSum, hk]
    simp only [hsplit, add_mul, Finset.sum_add_distrib, ih hcs, List.map_cons, List.sum_cons]
    congr 1
    rw [Finset.sum_eq_single_of_mem x hx fun y _ hy => ?_, hc, if_pos rfl]
    rw [if_neg, zero_mul]
    exact fun h => hy (hcell (h.symm.trans hc.symm)).symm.symm

private theorem sum_mapM {V γ ε : Type} {f : Term ℝ V → Except ε γ} {e : LinearExpr ℝ V}
    {xs : List γ} {total : γ → ℝ} (value : V → ℝ) (hrun : e.terms.mapM f = .ok xs)
    (hf : ∀ t x, f t = .ok x → total x = t.scale * value t.var) :
    (xs.map total).sum = e.eval value := by
  rw [mapM_eq_ok_iff] at hrun
  rw [LinearExpr.eval]
  generalize e.terms = ts at hrun
  induction hrun with
  | nil => rfl
  | cons hx _ ih => rw [List.map_cons, List.map_cons, List.sum_cons, List.sum_cons, ih, hf _ _ hx]

private theorem exists_of_mem_mapM {α γ ε : Type} {f : α → Except ε γ} {as : List α} {xs : List γ}
    (hrun : as.mapM f = .ok xs) {x : γ} (hx : x ∈ xs) : ∃ a ∈ as, f a = .ok x :=
  exists_of_forall₂_right (mapM_eq_ok_iff.1 hrun) hx

/-- The cells of a decision that depends on uncertainties. -/
private def IsFactorCell (model : RobustModel ℝ) (cell : ℕ × ℕ) : Prop :=
  ∃ d, model.decisions.items[cell.1]? = some d ∧ cell.2 < d.dependencies.length

private theorem spread_eq_ok {h : DecisionRef} {scale : ℝ} {cs : List ((ℕ × ℕ) × ℝ)}
    (hrun : (do
      (← model.decisionAt h).dependencies.zipIdx.mapM fun (dependency, position) =>
        return ((h.slot, position), scale * (← Assignment.ofList r dependency)) :
          Except (ModelError ℝ) _) = .ok cs) :
    (∀ c ∈ cs, IsFactorCell model c.1) ∧
      (cs.map fun c => c.2 * p.factorAt ω c.1.1 c.1.2).sum =
        scale * p.adjustedPart model ω (entryAt r) h := by
  obtain ⟨d, hd, hmap⟩ := bind_eq_ok_iff.1 hrun
  have hitem := (RobustModel.decisionAt_eq_ok_iff.1 hd).2.2
  clear hrun
  constructor
  · intro c hc
    obtain ⟨⟨u, k⟩, hu, hstep⟩ := exists_of_mem_mapM hmap hc
    obtain ⟨x, -, hx⟩ := bind_eq_ok_iff.1 hstep
    obtain rfl := pure_eq_ok_iff.1 hx
    exact ⟨d, hitem, by simpa using (List.getElem?_eq_some_iff.1
      (List.mem_zipIdx_iff_getElem?.1 hu)).1⟩
  · rw [PolicyVariables.adjustedPart, hitem, Option.map_some, Option.getD_some]
    rw [mapM_eq_ok_iff] at hmap
    generalize d.dependencies.zipIdx = us at hmap
    induction hmap with
    | nil => simp
    | cons hstep _ ih =>
      obtain ⟨x, hx, hc⟩ := bind_eq_ok_iff.1 hstep
      obtain rfl := pure_eq_ok_iff.1 hc
      rw [List.map_cons, List.map_cons, List.sum_cons, List.sum_cons, ih,
        ← Assignment.ofList_within r _ _ hx]
      ring

/-- Weighed by the coefficients, what an expression contributes to them is what it depends on
through the reaction of the decisions. -/
private theorem factorContributions_eq_ok {cs : List ((ℕ × ℕ) × ℝ)}
    (hrun : factorContributions model e r = .ok cs) :
    (∀ c ∈ cs, IsFactorCell model c.1) ∧
      (cs.map fun c => c.2 * p.factorAt ω c.1.1 c.1.2).sum =
        e.adjustedPart model p ω (entryAt r) := by
  simp only [factorContributions] at hrun
  obtain ⟨ds, hds, hrun⟩ := bind_eq_ok_iff.1 hrun
  obtain ⟨ps, hps, hcs⟩ := bind_eq_ok_iff.1 hrun
  obtain rfl := pure_eq_ok_iff.1 hcs
  have hproduct : ∀ (t : Term ℝ Product) (x : List ((ℕ × ℕ) × ℝ)), (do
      let y ← Assignment.ofList r t.var.uncertainty
      (← model.decisionAt t.var.decision).dependencies.zipIdx.mapM fun (dependency, position) =>
        return ((t.var.decision.slot, position), t.scale * y * (← Assignment.ofList r dependency)) :
          Except (ModelError ℝ) _) = .ok x →
      (∀ c ∈ x, IsFactorCell model c.1) ∧ (x.map fun c => c.2 * p.factorAt ω c.1.1 c.1.2).sum =
        t.scale * (bySlot (entryAt r) t.var.uncertainty *
          p.adjustedPart model ω (entryAt r) t.var.decision) := fun t x hx => by
    obtain ⟨y, hy, hx⟩ := bind_eq_ok_iff.1 hx
    obtain ⟨hcells, hsum⟩ := spread_eq_ok (p := p) (ω := ω) hx
    exact ⟨hcells, by rw [hsum, Assignment.ofList_within r _ _ hy, mul_assoc]⟩
  constructor
  · intro c hc
    rcases List.mem_append.1 hc with hc | hc
    · obtain ⟨x, hx, hc⟩ := List.mem_flatten.1 hc
      obtain ⟨t, -, ht⟩ := exists_of_mem_mapM hds hx
      exact (spread_eq_ok (p := p) (ω := ω) ht).1 c hc
    · obtain ⟨x, hx, hc⟩ := List.mem_flatten.1 hc
      obtain ⟨t, -, ht⟩ := exists_of_mem_mapM hps hx
      exact (hproduct t x ht).1 c hc
  · rw [List.map_append, List.sum_append, List.map_flatten, List.map_flatten, List.sum_flatten,
      List.sum_flatten, List.map_map, List.map_map, UncertainExpr.adjustedPart,
      ← sum_mapM (p.adjustedPart model ω (entryAt r)) hds fun t x ht => (spread_eq_ok ht).2,
      ← sum_mapM (fun v => bySlot (entryAt r) v.uncertainty *
        p.adjustedPart model ω (entryAt r) v.decision) hps fun t x ht => (hproduct t x ht).2]
    rfl

private theorem constant_eq_ok {h : DecisionRef} {d : DecisionVariable ℝ} (scale : ℝ)
    (hd : model.decisionAt h = .ok d) :
    h.slot < model.decisions.items.length ∧
      scale * p.constantAt ω h.slot = scale * p.fixedPart model ω h := by
  have hitem := (RobustModel.decisionAt_eq_ok_iff.1 hd).2.2
  refine ⟨(List.getElem?_eq_some_iff.1 hitem).1, ?_⟩
  rw [PolicyVariables.fixedPart, hitem, Option.map_some, Option.getD_some]

private theorem constantContributions_eq_ok {cs : List (ℕ × ℝ)}
    (hrun : constantContributions model e r = .ok cs) :
    (∀ c ∈ cs, c.1 < model.decisions.items.length) ∧
      (cs.map fun c => c.2 * p.constantAt ω c.1).sum =
        e.fixedPart model p ω (entryAt r) := by
  simp only [constantContributions] at hrun
  obtain ⟨ds, hds, hrun⟩ := bind_eq_ok_iff.1 hrun
  obtain ⟨ps, hps, hcs⟩ := bind_eq_ok_iff.1 hrun
  obtain rfl := pure_eq_ok_iff.1 hcs
  have hdecision : ∀ (t : Term ℝ DecisionRef) (c : ℕ × ℝ), (do
      let _ ← model.decisionAt t.var
      return (t.var.slot, t.scale) : Except (ModelError ℝ) _) = .ok c →
        c.1 < model.decisions.items.length ∧
          c.2 * p.constantAt ω c.1 = t.scale * p.fixedPart model ω t.var := fun t c hc => by
    obtain ⟨d, hd, hc⟩ := bind_eq_ok_iff.1 hc
    obtain rfl := pure_eq_ok_iff.1 hc
    exact constant_eq_ok t.scale hd
  have hproduct : ∀ (t : Term ℝ Product) (c : ℕ × ℝ), (do
      let _ ← model.decisionAt t.var.decision
      return (t.var.decision.slot, t.scale * (← Assignment.ofList r t.var.uncertainty)) :
        Except (ModelError ℝ) _) = .ok c →
      c.1 < model.decisions.items.length ∧ c.2 * p.constantAt ω c.1 = t.scale *
        (bySlot (entryAt r) t.var.uncertainty * p.fixedPart model ω t.var.decision) := by
    intro t c hc
    obtain ⟨d, hd, hc⟩ := bind_eq_ok_iff.1 hc
    obtain ⟨x, hx, hc⟩ := bind_eq_ok_iff.1 hc
    obtain rfl := pure_eq_ok_iff.1 hc
    obtain ⟨hslot, hsum⟩ := constant_eq_ok (p := p) (ω := ω) (t.scale * x) hd
    exact ⟨hslot, by rw [hsum, Assignment.ofList_within r _ _ hx, mul_assoc]⟩
  constructor
  · intro c hc
    rcases List.mem_append.1 hc with hc | hc
    · obtain ⟨t, -, ht⟩ := exists_of_mem_mapM hds hc
      exact (hdecision t c ht).1
    · obtain ⟨t, -, ht⟩ := exists_of_mem_mapM hps hc
      exact (hproduct t c ht).1
  · rw [List.map_append, List.sum_append, sum_mapM _ hds fun t c ht => (hdecision t c ht).2,
      sum_mapM (fun v => bySlot (entryAt r) v.uncertainty * p.fixedPart model ω v.decision) hps
        fun t c ht => (hproduct t c ht).2]
    rfl

/-! ## Expected terms -/

private theorem foldlM_expectedTerms {h : DecisionRef} {xs : List ℝ} {k : ℕ}
    {f f' : AffineExpr ℝ ConicRef}
    (hrun : (xs.zipIdx k).foldlM (fun (f : AffineExpr ℝ ConicRef) (scale, position) => do
      if scale == 0 then return f
      return f.addTerm scale (← PolicyError.fromStore (p.factor h position))) f =
        (.ok f' : Except (PolicyError ℝ) _)) :
    f'.eval ω = f.eval ω +
      ∑ j ∈ Finset.range xs.length, xs.getD j 0 * p.factorAt ω h.slot (k + j) := by
  induction xs generalizing k f with
  | nil =>
    rw [List.zipIdx_nil, List.foldlM_nil, pure_eq_ok_iff] at hrun
    simp [hrun]
  | cons x xs ih =>
    rw [List.zipIdx_cons, List.foldlM_cons, bind_eq_ok_iff] at hrun
    obtain ⟨g, hstep, hrest⟩ := hrun
    have hg : g.eval ω = f.eval ω + x * p.factorAt ω h.slot k := by
      dsimp only at hstep
      split at hstep
      · next hzero =>
        rw [pure_eq_ok_iff] at hstep
        have hx : x = 0 := by simpa using hzero
        rw [← hstep, hx, zero_mul, add_zero]
      · simp only [bind_eq_ok_iff, PolicyError.fromStore, mapError_eq_ok_iff,
          pure_eq_ok_iff] at hstep
        obtain ⟨a, ha, rfl⟩ := hstep
        obtain ⟨fs, hfs, ha⟩ := PolicyVariables.factor_eq_ok_iff.1 ha
        rw [AffineExpr.eval_addTerm, PolicyVariables.factorAt, List.getD_eq_getElem?_getD, hfs,
          Option.getD_some, ha, Option.map_some, Option.getD_some]
    rw [ih hrest, hg, List.length_cons, Finset.sum_range_succ', add_assoc]
    congr 1
    rw [add_comm]
    simp [Nat.add_right_comm, Nat.add_assoc]

private theorem expectedTerms_eq_ok {h : DecisionRef} {xs : List ℝ} {x : ℝ}
    {f f' : AffineExpr ℝ ConicRef} (hrun : expectedTerms p h xs x f = .ok f') :
    f'.eval ω = f.eval ω + (∑ j ∈ Finset.range xs.length, xs.getD j 0 * p.factorAt ω h.slot j)
      + x * p.constantAt ω h.slot := by
  obtain ⟨g, hfold, hrest⟩ := bind_eq_ok_iff.1 hrun
  have hg := foldlM_expectedTerms (ω := ω) hfold
  simp only [Nat.zero_add] at hg
  rw [← hg]
  split at hrest
  · next hzero =>
    rw [pure_eq_ok_iff] at hrest
    have hx : x = 0 := by simpa using hzero
    rw [← hrest, hx, zero_mul, add_zero]
  · simp only [bind_eq_ok_iff, PolicyError.fromStore, mapError_eq_ok_iff, pure_eq_ok_iff] at hrest
    obtain ⟨b, hb, rfl⟩ := hrest
    rw [PolicyVariables.constant_eq_ok_iff] at hb
    rw [AffineExpr.eval_addTerm, PolicyVariables.constantAt, hb, Option.map_some, Option.getD_some]

private theorem foldlM_policies {rows : List ((DecisionRef × DecisionVariable ℝ) × List ℝ × ℝ)}
    {f f' : AffineExpr ℝ ConicRef}
    (hrun : rows.foldlM (fun result ((h, d), row, constant) =>
      expectedTerms p h (row.take d.dependencies.length) constant result) f = .ok f') :
    f'.eval ω = f.eval ω + (rows.map fun x =>
      (∑ j ∈ Finset.range x.1.2.dependencies.length, x.2.1.getD j 0 * p.factorAt ω x.1.1.slot j)
        + x.2.2 * p.constantAt ω x.1.1.slot).sum := by
  -- positions behind the end of a row count as zero
  have htake : ∀ (xs : List ℝ) (n : ℕ) (w : ℕ → ℝ),
      ∑ j ∈ Finset.range (xs.take n).length, (xs.take n).getD j 0 * w j =
        ∑ j ∈ Finset.range n, xs.getD j 0 * w j := by
    intro xs n w
    have hle : (xs.take n).length ≤ n := List.length_take_le n xs
    refine Finset.sum_subset_zero_on_sdiff (Finset.range_mono hle) (fun j hj => ?_) fun j hj => ?_
    · rw [Finset.mem_sdiff, Finset.mem_range, Finset.mem_range, List.length_take] at hj
      have hnone : xs[j]? = none := List.getElem?_eq_none (by omega)
      rw [List.getD_eq_getElem?_getD, hnone, Option.getD_none, zero_mul]
    · rw [Finset.mem_range, List.length_take, lt_min_iff] at hj
      rw [List.getD_eq_getElem?_getD, List.getD_eq_getElem?_getD, List.getElem?_take_of_lt hj.1]
  induction rows generalizing f with
  | nil =>
    rw [List.foldlM_nil, pure_eq_ok_iff] at hrun
    simp [hrun]
  | cons x rows ih =>
    rw [List.foldlM_cons, bind_eq_ok_iff] at hrun
    obtain ⟨g, hstep, hrest⟩ := hrun
    rw [ih hrest, expectedTerms_eq_ok hstep, htake, List.map_cons, List.sum_cons]
    ring

private theorem sum_map_eq_sum_range {β : Type} (xs : List β) (g : β → ℝ) :
    (xs.map g).sum = ∑ i ∈ Finset.range xs.length, (xs[i]?.map g).getD 0 := by
  induction xs with
  | nil => rfl
  | cons x xs ih =>
    rw [List.map_cons, List.sum_cons, ih, List.length_cons, Finset.sum_range_succ', add_comm]
    rfl

private theorem le_foldl_natMax {ns : List ℕ} {n : ℕ} (hn : n ∈ ns) : n ≤ ns.foldl Nat.max 0 := by
  suffices h : ∀ (ns : List ℕ) (k : ℕ),
      k ≤ ns.foldl Nat.max k ∧ ∀ n ∈ ns, n ≤ ns.foldl Nat.max k from
    (h ns 0).2 n hn
  intro ns
  induction ns with
  | nil => simp
  | cons m ns ih =>
    intro k
    obtain ⟨hk, hns⟩ := ih (Nat.max k m)
    refine ⟨(le_max_left k m).trans hk, List.forall_mem_cons.2 ⟨(le_max_right k m).trans hk, hns⟩⟩

/-- Number of dependencies of a decision, by position. -/
private def arity (model : RobustModel ℝ) (i : ℕ) : ℕ :=
  (model.decisions.items[i]?.map (·.dependencies.length)).getD 0

private theorem sum_factorTable {table : List (List ℝ)}
    (hrun : (do
      let contributions ← factorContributions model e r
      return (List.range (model.decisions.items.map (·.dependencies.length)).length).map fun i =>
        (List.range ((model.decisions.items.map (·.dependencies.length)).foldl Nat.max 0)).map
          fun j => cellSum contributions (i, j) : Except (ModelError ℝ) _) = .ok table) :
    table.length = model.decisions.items.length ∧
      ∑ i ∈ Finset.range model.decisions.items.length, ∑ j ∈ Finset.range (arity model i),
        (table.getD i []).getD j 0 * p.factorAt ω i j =
          e.adjustedPart model p ω (entryAt r) := by
  obtain ⟨cs, hcs, htable⟩ := bind_eq_ok_iff.1 hrun
  obtain rfl := pure_eq_ok_iff.1 htable
  obtain ⟨hcells, hsum⟩ := factorContributions_eq_ok (p := p) (ω := ω) hcs
  refine ⟨by rw [List.length_map, List.length_range, List.length_map], ?_⟩
  have hcell : Function.Injective fun x : (_ : ℕ) × ℕ => (x.1, x.2) := fun x y h => by
    obtain ⟨h₁, h₂⟩ := Prod.mk.inj h
    exact Sigma.ext h₁ (heq_of_eq h₂)
  have hinside : ∀ c ∈ cs, ∃ x ∈ (Finset.range model.decisions.items.length).sigma fun i =>
      Finset.range (arity model i), (x.1, x.2) = c.1 := fun c hc => by
    obtain ⟨d, hd, hlt⟩ := hcells c hc
    refine ⟨⟨c.1.1, c.1.2⟩, ?_, rfl⟩
    rw [Finset.mem_sigma, Finset.mem_range, Finset.mem_range, arity, hd]
    exact ⟨(List.getElem?_eq_some_iff.1 hd).1, hlt⟩
  have hweigh := sum_cellSum hcell hinside fun c => p.factorAt ω c.1 c.2
  rw [← hsum, ← hweigh, Finset.sum_sigma]
  refine Finset.sum_congr rfl fun i hi => Finset.sum_congr rfl fun j hj => ?_
  rw [Finset.mem_range] at hi hj
  have hwidth : j < (model.decisions.items.map (·.dependencies.length)).foldl Nat.max 0 := by
    refine lt_of_lt_of_le hj (le_foldl_natMax ?_)
    rw [arity, List.getElem?_eq_getElem hi]
    exact List.mem_map_of_mem (List.getElem_mem hi)
  simp [List.getD_eq_getElem?_getD, hi, hwidth]

private theorem sum_constantTable {table : List ℝ}
    (hrun : (do
      let contributions ← constantContributions model e r
      return (List.range (model.decisions.items.map (·.dependencies.length)).length).map
        (cellSum contributions) : Except (ModelError ℝ) _) = .ok table) :
    table.length = model.decisions.items.length ∧
      ∑ i ∈ Finset.range model.decisions.items.length, table.getD i 0 * p.constantAt ω i =
        e.fixedPart model p ω (entryAt r) := by
  obtain ⟨cs, hcs, htable⟩ := bind_eq_ok_iff.1 hrun
  obtain rfl := pure_eq_ok_iff.1 htable
  obtain ⟨hcells, hsum⟩ := constantContributions_eq_ok (p := p) (ω := ω) hcs
  refine ⟨by rw [List.length_map, List.length_range, List.length_map], ?_⟩
  have hweigh := sum_cellSum (s := Finset.range model.decisions.items.length) Function.injective_id
    (fun c hc => ⟨c.1, Finset.mem_range.2 (hcells c hc), rfl⟩) (p.constantAt ω)
  rw [← hsum, ← hweigh]
  refine Finset.sum_congr rfl fun i hi => ?_
  rw [Finset.mem_range] at hi
  simp [List.getD_eq_getElem?_getD, hi]

private theorem sum_policies_eq {M : List (List ℝ)} {C : List ℝ}
    (hM : M.length = model.decisions.items.length) (hC : C.length = model.decisions.items.length) :
    ((model.decisions.entries.zip (M.zip C)).map fun x =>
      (∑ j ∈ Finset.range x.1.2.dependencies.length, x.2.1.getD j 0 * p.factorAt ω x.1.1.slot j)
        + x.2.2 * p.constantAt ω x.1.1.slot).sum =
      (∑ i ∈ Finset.range model.decisions.items.length, ∑ j ∈ Finset.range (arity model i),
        (M.getD i []).getD j 0 * p.factorAt ω i j) +
        ∑ i ∈ Finset.range model.decisions.items.length, C.getD i 0 * p.constantAt ω i := by
  have hsize : (model.decisions.entries.zip (M.zip C)).length = model.decisions.items.length := by
    simp [Store.entries, hM, hC]
  rw [sum_map_eq_sum_range, hsize, ← Finset.sum_add_distrib]
  refine Finset.sum_congr rfl fun i hi => ?_
  rw [Finset.mem_range] at hi
  simp [Store.entries, Store.handleFor, arity, hi, hM, hC, List.getD_eq_getElem?_getD, List.zip]

/-- The expectation of an expression has the mean of its values under the policies, over all
outcomes of the distribution. -/
theorem stochastic_eq_ok {f : AffineExpr ℝ ConicRef} (hrun : stochastic model p e = .ok f) :
    ∃ d rows, model.distribution? = some d ∧ d.HasOutcomes rows ∧ rows ≠ [] ∧ ∀ ω, f.eval ω =
      (rows.map fun r => e.underPolicies model p ω (entryAt r)).sum / rows.length := by
  simp only [stochastic, bind_eq_ok_iff, PolicyError.fromModel, mapError_eq_ok_iff] at hrun
  obtain ⟨d, hd, M, hM, C, hC, x, hx, hfold⟩ := hrun
  have hdistribution : model.distribution? = some d := by
    unfold RobustModel.distribution at hd
    split at hd
    · next h => rw [h, Except.ok.inj hd]
    · cases hd
  obtain ⟨rows, hrows, hx⟩ := Distribution.expectedValue_eq_ok hx fun r v h =>
    ((LinearExpr.value_eq_ok_iff (Assignment.ofList_within r)).1 h).2.symm
  have hnonempty : rows ≠ [] := by
    obtain ⟨rows', hrows', hnonempty, -⟩ := Distribution.expectedVector_eq_ok (w := fun _ => 0)
      (g := fun _ => 0) hC (fun r v h => (sum_constantTable (p := p) (ω := fun _ => 0) h).1)
      fun r v _ => by simp
    exact hrows'.unique hrows ▸ hnonempty
  refine ⟨d, rows, hdistribution, hrows, hnonempty, fun ω => ?_⟩
  obtain ⟨rows₁, hrows₁, hlengthM, hfactors⟩ := Distribution.expectedMatrix_eq_ok hM
    (fun r v h => (sum_factorTable (p := p) (ω := ω) h).1)
    fun r v h => (sum_factorTable (p := p) (ω := ω) h).2
  obtain ⟨rows₂, hrows₂, -, hlengthC, hconstants⟩ := Distribution.expectedVector_eq_ok hC
    (fun r v h => (sum_constantTable (p := p) (ω := ω) h).1)
    fun r v h => (sum_constantTable (p := p) (ω := ω) h).2
  obtain rfl := hrows.unique hrows₁
  obtain rfl := hrows₁.unique hrows₂
  have hpolicies := foldlM_policies (ω := ω) hfold
  have hcount : (rows₂.length : ℝ) ≠ 0 := by
    rw [Nat.cast_ne_zero]
    exact fun h => hnonempty (List.length_eq_zero_iff.1 h)
  simp only [UncertainExpr.underPolicies_eq, List.sum_map_add, List.map_const', List.sum_replicate,
    nsmul_eq_mul]
  rw [hpolicies, sum_policies_eq hlengthM hlengthC, hfactors, hconstants, AffineExpr.eval_const, hx]
  field_simp
  ring

end Counterpart

/-! ## Expectations of a compiled model -/

/-- Some constraint, or the objective, is about an expectation. -/
def RobustModel.HasExpectation (model : RobustModel ℝ) : Prop :=
  (∃ c ∈ model.constraints, c.expression.mode = .stochastic) ∨
    ∃ o, model.objective = .ok o ∧ o.expression.mode = .stochastic

/-- The values that outcomes of the distribution give to uncertainties are within the bounds. -/
def RobustModel.OutcomesWithinBounds (model : RobustModel ℝ) : Prop :=
  ∀ d rows, model.distribution? = some d → d.HasOutcomes rows → ∀ r ∈ rows, ∀ (i : ℕ) v x,
    model.uncertainty.vars.items[i]? = some v → r[i]? = some x → v.bounds.admits x = true

/-- The expectation of the expression can be computed, if it is compiled to one. -/
def UncertainExpr.Computes (e : UncertainExpr ℝ) (model : RobustModel ℝ) (p : PolicyVariables) :
    Prop :=
  e.mode = .stochastic → ∃ f, Counterpart.stochastic model p e = .ok f

/-- The expectation that a relation is compiled to can be computed. -/
def RawConstraint.Computes (c : RawConstraint (UncertainExpr ℝ)) (model : RobustModel ℝ)
    (p : PolicyVariables) : Prop :=
  match c.sense with
  | .geq => c.expression.Computes model p
  | .leq => c.expression.negate.Computes model p
  | .eq => True

/-- What is not about an expectation needs none. -/
theorem RawConstraint.Computes.of_mode_ne {c : RawConstraint (UncertainExpr ℝ)}
    {model : RobustModel ℝ} {p : PolicyVariables} (h : c.expression.mode ≠ .stochastic) :
    c.Computes model p := by
  rw [Computes]
  cases c.sense with
  | leq => exact fun hmode => absurd hmode h
  | geq => exact fun hmode => absurd hmode h
  | eq => trivial

/-- The expectation that an objective is compiled to can be computed. -/
def RobustObjective.Computes (o : RobustObjective ℝ) (model : RobustModel ℝ)
    (p : PolicyVariables) : Prop :=
  match o.sense with
  | .maximize => o.expression.Computes model p
  | .minimize => o.expression.negate.Computes model p

namespace Counterpart

variable {model : RobustModel ℝ} {p : PolicyVariables} {m m' : ConicModel ℝ}

private theorem computes_of_counterpart {e : UncertainExpr ℝ} {name : String}
    {f : AffineExpr ℝ ConicRef} (hrun : counterpart model p e name m = .ok f m') :
    e.Computes model p := by
  intro hmode
  rw [counterpart, hmode, Step.ofExcept_eq_ok_iff] at hrun
  exact ⟨f, hrun.1⟩

private theorem computes_of_compileConstraint {c : RawConstraint (UncertainExpr ℝ)}
    {name : String} {u : Unit} (hrun : compileConstraint model p name c m = .ok u m') :
    c.Computes model p := by
  by_cases hsense : c.sense = .eq
  · rw [RawConstraint.Computes, hsense]
    trivial
  · obtain ⟨f, m₁, hcounterpart⟩ := exists_counterpart_of_compileConstraint hsense hrun
    have hmargin := computes_of_counterpart hcounterpart
    obtain ⟨sense, e⟩ := c
    cases sense with
    | geq => exact hmargin
    | leq => exact hmargin
    | eq => exact absurd rfl hsense

/-- In a compiled model the expectations of objective and constraints can be computed. -/
theorem compile_computes {u : Unit} (hrun : compile model p m = .ok u m') :
    (∀ o, model.objective = .ok o → RobustObjective.Computes o model p) ∧
      ∀ c ∈ model.constraints, c.toRawConstraint.Computes model p := by
  constructor
  · intro o ho
    obtain ⟨f, m₁, hcounterpart⟩ := exists_counterpart_of_compile hrun ho
    have hgain := computes_of_counterpart hcounterpart
    obtain ⟨sense, e, value?⟩ := o
    cases sense with
    | maximize => exact hgain
    | minimize => exact hgain
  · intro c hc
    obtain ⟨s, t, -, hstep, -⟩ := compile_passes hrun hc
    exact computes_of_compileConstraint hstep

end Counterpart

end AdjustableRobust
