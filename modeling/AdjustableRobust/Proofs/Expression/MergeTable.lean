import AdjustableRobust.Proofs.Expression.Value

/-!
# Merging with a table of positions

Terms can be merged in one pass that looks up where the term of a variable is instead of searching
for it. The table is kept in step with the merged terms, so the pass yields the same terms in the
same order, whatever the scalars are.
-/

namespace AdjustableRobust

namespace LinearExpr

section Merging

variable {α V : Type} [Scalar α] [DecidableEq V]

/-- A term of a new variable is put at the end. -/
theorem mergeTerm_of_notMem {t : Term α V} {ms : List (Term α V)}
    (ht : t.var ∉ ms.map (·.var)) : mergeTerm t ms = ms ++ [t] := by
  induction ms with
  | nil => rfl
  | cons m ms ih =>
    obtain ⟨hm, hms⟩ := not_or.1 (List.mem_cons.not.1 ht)
    rw [mergeTerm, if_neg (Ne.symm hm), ih hms, List.cons_append]

/-- A term is added to the only term of its variable. -/
theorem mergeTerm_of_position {t : Term α V} {ms : List (Term α V)} {i : ℕ}
    (hi : ∀ j, (ms.map (·.var))[j]? = some t.var ↔ j = i) :
    mergeTerm t ms = ms.modify i fun m => { m with scale := m.scale + t.scale } := by
  induction ms generalizing i with
  | nil => exact absurd ((hi i).2 rfl) (by simp)
  | cons m ms ih =>
    rw [mergeTerm]
    by_cases hm : m.var = t.var
    · obtain rfl : 0 = i := (hi 0).1 (congrArg some hm)
      rw [if_pos hm, List.modify_zero_cons]
    · cases i with
      | zero => exact absurd (Option.some.inj ((hi 0).2 rfl)) hm
      | succ i =>
        rw [if_neg hm, List.modify_succ_cons, ih fun j => (hi (j + 1)).trans Nat.succ_inj]

end Merging

end LinearExpr

/-- Merged terms, with a table of the positions of their variables. -/
structure MergeTable (α V : Type) [DecidableEq V] [Hashable V] where
  /-- Where the term of a variable is. -/
  positions : Std.HashMap V ℕ
  terms : List (Term α V)

namespace MergeTable

variable {α V : Type} [DecidableEq V] [Hashable V] {m : MergeTable α V}

/-- No terms. -/
def empty : MergeTable α V := ⟨∅, []⟩

/-- The table has the positions of the variables of the terms, and no other ones. -/
def Agrees (m : MergeTable α V) : Prop :=
  ∀ (v : V) (i : ℕ), (m.terms.map (·.var))[i]? = some v ↔ m.positions[v]? = some i

/-- Without terms there are no positions. -/
theorem agrees_empty : (empty : MergeTable α V).Agrees := by
  intro v i
  simp [empty]

/-- A variable without position has no term. -/
theorem Agrees.notMem (h : m.Agrees) {v : V} (hv : m.positions[v]? = none) :
    v ∉ m.terms.map (·.var) := by
  intro hmem
  obtain ⟨i, hi⟩ := List.mem_iff_getElem?.1 hmem
  rw [(h v i).1 hi] at hv
  cases hv

/-- Positions are those of terms. -/
theorem Agrees.lt_length (h : m.Agrees) {v : V} {i : ℕ} (hv : m.positions[v]? = some i) :
    i < m.terms.length := by
  obtain ⟨hlt, -⟩ := List.getElem?_eq_some_iff.1 ((h v i).2 hv)
  rwa [List.length_map] at hlt

/-- A new variable gets the position at the end. -/
theorem Agrees.push (h : m.Agrees) {t : Term α V} (ht : m.positions[t.var]? = none) :
    (⟨m.positions.insert t.var m.terms.length, m.terms ++ [t]⟩ : MergeTable α V).Agrees := by
  intro v i
  rw [List.map_append, List.map_singleton, Std.HashMap.getElem?_insert]
  obtain hi | hi := Nat.lt_or_ge i m.terms.length
  · rw [List.getElem?_append_left (by rwa [List.length_map]), h]
    by_cases hv : t.var = v
    · simp [← hv, ht, hi.ne']
    · simp [hv]
  · have hold : m.positions[v]? ≠ some i := fun hv => hi.not_gt (h.lt_length hv)
    rw [List.getElem?_append_right (by rwa [List.length_map]), List.length_map,
      List.getElem?_singleton]
    by_cases hv : t.var = v
    · simp only [hv, beq_self_eq_true, if_true, ite_eq_left_iff, Option.some_inj, reduceCtorEq,
        imp_false, not_not]
      omega
    · simp [hv, hold]

variable [Scalar α]

/-- Add a term to the term at the position of its variable, or put it at the end. -/
def merge (m : MergeTable α V) (t : Term α V) : MergeTable α V :=
  match m.positions[t.var]? with
  | some i => { m with terms := m.terms.modify i fun s => { s with scale := s.scale + t.scale } }
  | none => ⟨m.positions.insert t.var m.terms.length, m.terms ++ [t]⟩

/-- With a table that agrees, a term is merged as by searching for its variable. -/
theorem Agrees.terms_merge (h : m.Agrees) (t : Term α V) :
    (m.merge t).terms = LinearExpr.mergeTerm t m.terms := by
  rw [merge]
  split
  · next i hi =>
    refine (LinearExpr.mergeTerm_of_position fun j => ?_).symm
    rw [h, hi, Option.some_inj, eq_comm]
  · next hnone => exact (LinearExpr.mergeTerm_of_notMem (h.notMem hnone)).symm

/-- Merging keeps the agreement. -/
theorem Agrees.merge (h : m.Agrees) (t : Term α V) : (m.merge t).Agrees := by
  cases hposition : m.positions[t.var]? with
  | none =>
    rw [MergeTable.merge, hposition]
    exact h.push hposition
  | some j =>
    have hsame : (m.merge t).positions = m.positions := by rw [MergeTable.merge, hposition]
    intro v i
    rw [h.terms_merge, LinearExpr.map_var_mergeTerm,
      if_pos (List.mem_of_getElem? ((h _ _).2 hposition)), hsame, h]

/-- One pass with a table merges all terms. -/
theorem terms_foldl_merge (ts : List (Term α V)) :
    (ts.foldl merge empty).terms = LinearExpr.merged ts := by
  suffices h : (ts.foldl merge empty).Agrees ∧
      (ts.foldl merge empty).terms = LinearExpr.merged ts from h.2
  induction ts using List.reverseRecOn with
  | nil => exact ⟨agrees_empty, rfl⟩
  | append_singleton ts t ih =>
    obtain ⟨hagrees, hterms⟩ := ih
    rw [List.foldl_append, List.foldl_cons, List.foldl_nil, LinearExpr.merged_concat, ← hterms]
    exact ⟨hagrees.merge t, hagrees.terms_merge t⟩

end MergeTable

/-- Simplifying is one pass with a table, after which zero coefficients are dropped. -/
theorem LinearExpr.simplify_eq_filter_table {α V : Type} [Scalar α] [DecidableEq V] [Hashable V]
    (e : LinearExpr α V) : e.simplify =
      ⟨(e.terms.foldl MergeTable.merge .empty).terms.filter fun t => !(t.scale == 0)⟩ := by
  rw [MergeTable.terms_foldl_merge, simplify]

end AdjustableRobust
