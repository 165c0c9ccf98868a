import AdjustableRobust.Proofs.Expression.Value
import AdjustableRobust.Solver.StandardForm
import Mathlib.LinearAlgebra.Matrix.Notation

/-!
# Rows in cones

Column values satisfy rows in cones when the slacks `b - A x`, cut from the first row on into one
piece for each cone, lie in the cones. Pushing rows demands that the new slacks lie in their cone
and leaves the demands of all earlier rows as they are, whether a cone is opened or extended.
-/

namespace AdjustableRobust

/-! ## Rows -/

namespace Row

/-- Value of a row at column values. -/
def eval (row : Row ℝ) (z : ℕ → ℝ) : ℝ := (row.map fun p => p.2 * z p.1).sum

/-- All columns of a row come before the given one. -/
def Within (row : Row ℝ) (n : ℕ) : Prop := ∀ p ∈ row, p.1 < n

@[simp] theorem eval_nil (z : ℕ → ℝ) : eval [] z = 0 := rfl

@[simp] theorem eval_cons (p : ℕ × ℝ) (row : Row ℝ) (z : ℕ → ℝ) :
    eval (p :: row) z = p.2 * z p.1 + eval row z := rfl

@[simp] theorem eval_append (row row' : Row ℝ) (z : ℕ → ℝ) :
    eval (row ++ row') z = eval row z + eval row' z := by
  simp [eval]

@[simp] theorem eval_opposite (row : Row ℝ) (z : ℕ → ℝ) :
    eval (StandardForm.opposite row) z = -eval row z := by
  simp [eval, StandardForm.opposite, Function.comp_def, List.sum_neg]

/-- Only the columns of a row matter. -/
theorem Within.eval_congr {row : Row ℝ} {n : ℕ} (h : Within row n) {z z' : ℕ → ℝ}
    (hz : ∀ j < n, z' j = z j) : eval row z' = eval row z := by
  unfold eval
  congr 1
  exact List.map_congr_left fun p hp => by rw [hz p.1 (h p hp)]

/-- More columns hurt no row. -/
theorem Within.mono {row : Row ℝ} {n n' : ℕ} (h : Within row n) (hn : n ≤ n') : Within row n' :=
  fun p hp => (h p hp).trans_le hn

/-- Entries of both lists stay within the columns. -/
theorem Within.append {row row' : Row ℝ} {n : ℕ} (h : Within row n) (h' : Within row' n) :
    Within (row ++ row') n :=
  fun p hp => (List.mem_append.1 hp).elim (h p) (h' p)

/-- One more entry within the columns. -/
theorem Within.cons {row : Row ℝ} {n column : ℕ} {value : ℝ} (hc : column < n)
    (h : Within row n) : Within ((column, value) :: row) n :=
  List.forall_mem_cons.2 ⟨hc, h⟩

/-- Opposite entries are in the same columns. -/
theorem Within.opposite {row : Row ℝ} {n : ℕ} (h : Within row n) :
    Within (StandardForm.opposite row) n := by
  intro p hp
  obtain ⟨q, hq, rfl⟩ := List.mem_map.1 hp
  exact h q hq

end Row

/-! ## Products of cones -/

/-- The slack of a linear row is one that the cone of the row contains. -/
def LinearCone.Admits : LinearCone → ℝ → Prop
  | .zero, s => s = 0
  | .nonnegative, s => 0 ≤ s

/-- The cone of that kind with the given number of rows. -/
def LinearCone.cone : LinearCone → ℕ → Cone
  | .zero, n => .zero n
  | .nonnegative, n => .nonnegative n

namespace Cone

/-- The coordinates, as many as the cone has dimensions, are those of one of its points. -/
def Contains : Cone → List ℝ → Prop
  | .zero n, s => s.length = n ∧ ∀ x ∈ s, x = 0
  | .nonnegative n, s => s.length = n ∧ ∀ x ∈ s, 0 ≤ x
  | .secondOrder n, s => s.length = n ∧ ∃ t xs, s = t :: xs ∧ √(xs.map fun x => x * x).sum ≤ t

/-- Number of rows of all cones. -/
def totalDimension (cones : List Cone) : ℕ := (cones.map dimension).sum

/-- The coordinates, cut into one piece for each cone, lie in the cones. -/
def InProduct : List Cone → List ℝ → Prop
  | [], s => s = []
  | cone :: cones, s =>
    cone.Contains (s.take cone.dimension) ∧ InProduct cones (s.drop cone.dimension)

@[simp] theorem totalDimension_nil : totalDimension [] = 0 := rfl

@[simp] theorem totalDimension_cons (cone : Cone) (cones : List Cone) :
    totalDimension (cone :: cones) = cone.dimension + totalDimension cones := rfl

@[simp] theorem totalDimension_append (cones cones' : List Cone) :
    totalDimension (cones ++ cones') = totalDimension cones + totalDimension cones' := by
  simp [totalDimension]

/-- Coordinates of the first cones are followed by those of the others. -/
theorem inProduct_append_iff {cones cones' : List Cone} {s s' : List ℝ}
    (h : s.length = totalDimension cones) :
    InProduct (cones ++ cones') (s ++ s') ↔ InProduct cones s ∧ InProduct cones' s' := by
  induction cones generalizing s with
  | nil =>
    obtain rfl := List.length_eq_zero_iff.1 h
    simp [InProduct]
  | cons cone cones ih =>
    rw [totalDimension_cons] at h
    have hrest : (s.drop cone.dimension).length = totalDimension cones := by
      rw [List.length_drop]
      omega
    have hle : cone.dimension ≤ s.length := by omega
    rw [List.cons_append, InProduct, InProduct, List.take_append_of_le_length hle,
      List.drop_append_of_le_length hle, ih hrest, and_assoc]

/-- A product of one cone is the cone. -/
theorem inProduct_singleton_iff {cone : Cone} {s : List ℝ} (h : s.length = cone.dimension) :
    InProduct [cone] s ↔ cone.Contains s := by
  simp only [InProduct]
  rw [← h, List.take_length, List.drop_length, and_iff_left rfl]

/-- One more row is counted. -/
@[simp] theorem totalDimension_extendCones (kind : LinearCone) (cones : List Cone) :
    totalDimension (ConeRows.extendCones kind cones) = totalDimension cones + 1 := by
  fun_induction ConeRows.extendCones kind cones with
  | case7 cone cones _ ih => simp [ih, add_assoc]
  | _ => simp [dimension]

/-- A linear cone contains the coordinates that it admits one by one. -/
theorem contains_linear_iff (kind : LinearCone) {n : ℕ} {s : List ℝ} :
    (kind.cone n).Contains s ↔ s.length = n ∧ ∀ x ∈ s, kind.Admits x := by
  cases kind <;> rfl

@[simp] theorem dimension_linear (kind : LinearCone) (n : ℕ) : (kind.cone n).dimension = n := by
  cases kind <;> rfl

private theorem inProduct_open_iff (kind : LinearCone) {cones : List Cone} {s : List ℝ} {x : ℝ}
    (h : s.length = totalDimension cones) :
    InProduct (cones ++ [kind.cone 1]) (s ++ [x]) ↔ InProduct cones s ∧ kind.Admits x := by
  rw [inProduct_append_iff h, inProduct_singleton_iff (by simp), contains_linear_iff]
  simp

private theorem inProduct_extend_iff (kind : LinearCone) {n : ℕ} {s : List ℝ} {x : ℝ}
    (h : s.length = n) :
    InProduct [kind.cone (n + 1)] (s ++ [x]) ↔ InProduct [kind.cone n] s ∧ kind.Admits x := by
  rw [inProduct_singleton_iff (by simp [h]), inProduct_singleton_iff (by simp [h]),
    contains_linear_iff, contains_linear_iff]
  simp [h, or_imp, forall_and]

/-- The slack of one more row has to be one that its cone admits, whether the last cone is extended
or a new one is opened. -/
theorem inProduct_extendCones_iff {kind : LinearCone} {cones : List Cone} {s : List ℝ} {x : ℝ}
    (h : s.length = totalDimension cones) :
    InProduct (ConeRows.extendCones kind cones) (s ++ [x]) ↔
      InProduct cones s ∧ kind.Admits x := by
  fun_induction ConeRows.extendCones kind cones generalizing s with
  | case1 hk | case5 _ _ hk =>
    subst hk
    exact inProduct_open_iff .zero h
  | case2 hk | case6 _ _ hk =>
    subst hk
    exact inProduct_open_iff .nonnegative h
  | case3 n hk =>
    subst hk
    exact inProduct_extend_iff .zero h
  | case4 n hk =>
    subst hk
    exact inProduct_extend_iff .nonnegative h
  | case7 cone cones _ ih =>
    rw [totalDimension_cons] at h
    have hrest : (s.drop cone.dimension).length = totalDimension cones := by
      rw [List.length_drop]
      omega
    have hle : cone.dimension ≤ s.length := by omega
    rw [InProduct, InProduct, List.take_append_of_le_length hle, List.drop_append_of_le_length hle,
      ih hrest, and_assoc]

end Cone

/-! ## Slacks of rows -/

namespace ConeRows

/-- A row of the matrix times column values. -/
def product (r : ConeRows ℝ) (z : ℕ → ℝ) (i : ℕ) : ℝ :=
  ((r.entries.filter (·.row = i)).map fun e => e.value * z e.column).sum

/-- What the rows leave of their right hand sides. -/
def slacks (r : ConeRows ℝ) (z : ℕ → ℝ) : List ℝ :=
  r.rhs.zipIdx.map fun (b, i) => b - r.product z i

/-- The slacks lie in the product of the cones. -/
def Satisfied (r : ConeRows ℝ) (z : ℕ → ℝ) : Prop := Cone.InProduct r.cones (r.slacks z)

/-- Entries stand in the rows and in the first columns. -/
structure Fits (r : ConeRows ℝ) (n : ℕ) : Prop where
  rows : ∀ e ∈ r.entries, e.row < r.numRows
  columns : ∀ e ∈ r.entries, e.column < n

/-- Besides, every row belongs to a cone. -/
structure Within (r : ConeRows ℝ) (n : ℕ) : Prop extends r.Fits n where
  dimensions : Cone.totalDimension r.cones = r.numRows

variable {r : ConeRows ℝ} {n n' : ℕ} {z z' : ℕ → ℝ} {row : Row ℝ} {b : ℝ}

@[simp] theorem length_slacks (r : ConeRows ℝ) (z : ℕ → ℝ) : (r.slacks z).length = r.numRows := by
  simp [slacks, numRows]

@[simp] theorem numRows_pushRow (r : ConeRows ℝ) (row : Row ℝ) (b : ℝ) :
    (r.pushRow row b).numRows = r.numRows + 1 := by
  simp [pushRow, numRows]

/-- No rows, no demands. -/
theorem within_empty (n : ℕ) : (empty : ConeRows ℝ).Within n :=
  ⟨⟨by simp [empty], by simp [empty]⟩, rfl⟩

/-- Without rows there is nothing to satisfy. -/
theorem satisfied_empty (z : ℕ → ℝ) : (empty : ConeRows ℝ).Satisfied z := rfl

/-- More columns hurt no rows. -/
theorem Within.mono (h : r.Within n) (hn : n ≤ n') : r.Within n' :=
  ⟨⟨h.rows, fun e he => (h.columns e he).trans_le hn⟩, h.dimensions⟩

/-- Only the columns of the rows matter. -/
theorem Within.satisfied_congr (h : r.Within n) (hz : ∀ j < n, z' j = z j) :
    r.Satisfied z' ↔ r.Satisfied z := by
  have hproduct : r.product z' = r.product z := by
    funext i
    unfold product
    congr 1
    exact List.map_congr_left fun e he => by rw [hz _ (h.columns e (List.mem_filter.1 he).1)]
  rw [Satisfied, Satisfied, slacks, slacks, hproduct]

/-- There is nothing in the matrix below the last row. -/
theorem Fits.product_numRows (h : r.Fits n) (z : ℕ → ℝ) : r.product z r.numRows = 0 := by
  have hnone : r.entries.filter (·.row = r.numRows) = [] := by
    rw [List.filter_eq_nil_iff]
    intro e he
    simpa using (h.rows e he).ne
  rw [product, hnone, List.map_nil, List.sum_nil]

/-- The matrix part of a pushed row is the row, that of the other rows stays. -/
theorem product_pushRow (r : ConeRows ℝ) (row : Row ℝ) (b : ℝ) (z : ℕ → ℝ) (i : ℕ) :
    (r.pushRow row b).product z i = r.product z i + if i = r.numRows then row.eval z else 0 := by
  unfold product
  rw [pushRow, List.filter_append, List.map_append, List.sum_append]
  split
  · next hi => simp [hi, List.filter_map, Function.comp_def, Row.eval]
  · next hi => simp [Ne.symm hi, List.filter_map, Function.comp_def]

/-- Pushing a row appends its slack. -/
theorem Fits.slacks_pushRow (h : r.Fits n) :
    (r.pushRow row b).slacks z = r.slacks z ++ [b - row.eval z] := by
  have hrhs : (r.pushRow row b).rhs.zipIdx = r.rhs.zipIdx ++ [(b, r.numRows)] := by
    simp [pushRow, numRows, List.zipIdx_append]
  rw [slacks, slacks, hrhs, List.map_append, List.map_singleton]
  congr 1
  · refine List.map_congr_left fun p hp => ?_
    have hne : p.2 ≠ r.numRows := (List.snd_lt_of_mem_zipIdx hp).ne
    simp [product_pushRow, hne]
  · simp [product_pushRow, h.product_numRows]

/-- A pushed row keeps entries in place. -/
theorem Fits.pushRow (h : r.Fits n) (hrow : row.Within n) : (r.pushRow row b).Fits n := by
  have hentry : ∀ e ∈ (r.pushRow row b).entries,
      e ∈ r.entries ∨ e.row = r.numRows ∧ (e.column, e.value) ∈ row := by
    intro e he
    rw [ConeRows.pushRow, List.mem_append, List.mem_map] at he
    exact he.imp_right fun ⟨p, hp, hpe⟩ => hpe ▸ ⟨rfl, hp⟩
  refine ⟨fun e he => ?_, fun e he => ?_⟩
  · rw [numRows_pushRow]
    rcases hentry e he with he | ⟨he, -⟩
    · exact (h.rows e he).trans (Nat.lt_succ_self _)
    · omega
  · rcases hentry e he with he | ⟨-, he⟩
    · exact h.columns e he
    · exact hrow _ he

/-! ## Linear rows -/

/-- A linear row keeps entries in place and belongs to a cone. -/
theorem Within.pushLinear (h : r.Within n) (hrow : row.Within n) (kind : LinearCone) :
    (r.pushLinear row b kind).Within n := by
  obtain ⟨hrows, hcolumns⟩ := h.toFits.pushRow (b := b) hrow
  refine ⟨⟨hrows, hcolumns⟩, ?_⟩
  change Cone.totalDimension (extendCones kind r.cones) = (r.pushRow row b).numRows
  rw [Cone.totalDimension_extendCones, h.dimensions, numRows_pushRow]

/-- A linear row demands that its cone admits its slack. -/
theorem Within.satisfied_pushLinear_iff (h : r.Within n) (kind : LinearCone) :
    (r.pushLinear row b kind).Satisfied z ↔
      r.Satisfied z ∧ kind.Admits (b - row.eval z) := by
  change Cone.InProduct (extendCones kind r.cones) ((r.pushRow row b).slacks z) ↔ _
  rw [h.slacks_pushRow, Cone.inProduct_extendCones_iff (by simp [h.dimensions]), Satisfied]

/-! ## Second order cones -/

/-- Rows pushed one after the other append their slacks. -/
theorem Fits.foldl_pushRow {rows : List (Row ℝ × ℝ)} (h : r.Fits n)
    (hrows : ∀ p ∈ rows, Row.Within p.1 n) :
    let r' := rows.foldl (fun r (row, b) => r.pushRow row b) r
    r'.Fits n ∧ r'.cones = r.cones ∧ r'.numRows = r.numRows + rows.length ∧
      r'.slacks z = r.slacks z ++ rows.map fun p => p.2 - p.1.eval z := by
  induction rows generalizing r with
  | nil => simp [h]
  | cons p rows ih =>
    rw [List.forall_mem_cons] at hrows
    obtain ⟨hfits, hcones, hnum, hslacks⟩ := ih (h.pushRow (b := p.2) hrows.1) hrows.2
    refine ⟨hfits, hcones, ?_, ?_⟩
    · rw [List.foldl_cons, hnum, numRows_pushRow, List.length_cons]
      omega
    · rw [List.foldl_cons, hslacks, h.slacks_pushRow, List.append_assoc, List.map_cons,
        List.singleton_append]

/-- The rows of a second order cone are kept in place. -/
theorem Within.pushSecondOrder {rows : List (Row ℝ × ℝ)} (h : r.Within n)
    (hrows : ∀ p ∈ rows, Row.Within p.1 n) : (r.pushSecondOrder rows).Within n := by
  obtain ⟨⟨hrows, hcolumns⟩, hcones, hnum, -⟩ := h.toFits.foldl_pushRow (z := 0) hrows
  refine ⟨⟨hrows, hcolumns⟩, ?_⟩
  change Cone.totalDimension (_ ++ _) = _
  rw [Cone.totalDimension_append, hcones, h.dimensions]
  exact hnum.symm

/-- The rows of a second order cone demand that the slack of the first one is at least the length
of the others. -/
theorem Within.satisfied_pushSecondOrder_iff {head : Row ℝ × ℝ} {rows : List (Row ℝ × ℝ)}
    (h : r.Within n) (hhead : Row.Within head.1 n) (hrows : ∀ p ∈ rows, Row.Within p.1 n) :
    (r.pushSecondOrder (head :: rows)).Satisfied z ↔
      r.Satisfied z ∧
        √((rows.map fun p => p.2 - p.1.eval z).map fun x => x * x).sum ≤
          head.2 - head.1.eval z := by
  obtain ⟨-, hcones, -, hslacks⟩ :=
    h.toFits.foldl_pushRow (z := z) (List.forall_mem_cons.2 ⟨hhead, hrows⟩)
  change Cone.InProduct (_ ++ _) (slacks _ z) ↔ _
  rw [hcones, Satisfied]
  refine (iff_of_eq (congrArg _ hslacks)).trans ?_
  rw [Cone.inProduct_append_iff (by simp [h.dimensions]),
    Cone.inProduct_singleton_iff (by simp [Cone.dimension])]
  simp [Cone.Contains]

/-! ## The matrix -/

/-- A cell of the matrix: the sum of all entries that were added there. -/
def cell (r : ConeRows ℝ) (i j : ℕ) : ℝ :=
  ((r.entries.filter fun e => e.row = i ∧ e.column = j).map (·.value)).sum

/-- The matrix with the given number of columns. -/
def matrix (r : ConeRows ℝ) (n : ℕ) : Matrix (Fin r.numRows) (Fin n) ℝ := fun i j => r.cell i j

/-- The vector `b - A x`. -/
def residual (r : ConeRows ℝ) (x : List ℝ) : List ℝ :=
  List.ofFn fun i : Fin r.numRows => r.rhs.get i - (r.matrix x.length).mulVec x.get i

private theorem sum_row_eq {es : List (Entry ℝ)} (h : ∀ e ∈ es, e.column < n) (z : ℕ → ℝ) (i : ℕ) :
    ((es.filter (·.row = i)).map fun e => e.value * z e.column).sum =
      ∑ j ∈ Finset.range n,
        ((es.filter fun e => e.row = i ∧ e.column = j).map (·.value)).sum * z j := by
  induction es with
  | nil => simp
  | cons e es ih =>
    rw [List.forall_mem_cons] at h
    have hcell : ∀ j, (((e :: es).filter fun e => e.row = i ∧ e.column = j).map (·.value)).sum =
        (if e.row = i ∧ e.column = j then e.value else 0) +
          ((es.filter fun e => e.row = i ∧ e.column = j).map (·.value)).sum := by
      intro j
      rw [List.filter_cons]
      split <;> simp_all
    simp only [hcell, add_mul, Finset.sum_add_distrib, ← ih h.2]
    by_cases hi : e.row = i <;> simp [hi, h.1]

/-- A row of the matrix times column values is the sum over its cells. -/
theorem Fits.product_eq (h : r.Fits n) (z : ℕ → ℝ) (i : ℕ) :
    r.product z i = ∑ j ∈ Finset.range n, r.cell i j * z j :=
  sum_row_eq h.columns z i

/-- The slacks at column values are what the matrix leaves of the right hand sides. -/
theorem Fits.slacks_eq (h : r.Fits n) (z : ℕ → ℝ) : r.slacks z =
    List.ofFn fun i : Fin r.numRows => r.rhs.get i - (r.matrix n).mulVec (fun j => z j) i := by
  refine List.ext_getElem (by simp [numRows]) fun i hi hi' => ?_
  simp [slacks, h.product_eq, Matrix.mulVec, dotProduct, matrix, Finset.sum_range]
  rfl

/-- The slacks are the vector `b - A x`. -/
theorem Fits.residual_eq {x : List ℝ} (h : r.Fits x.length) :
    r.residual x = r.slacks (entryAt x) := by
  have hvalues : x.get = fun j : Fin x.length => entryAt x j := by
    funext j
    simp [entryAt]
  rw [h.slacks_eq, residual, hvalues]

/-- Values of all columns satisfy the rows when `b - A x` lies in the product of the cones. -/
theorem Within.inProduct_residual_iff {x : List ℝ} (h : r.Within n) (hx : x.length = n) :
    Cone.InProduct r.cones (r.residual x) ↔ r.Satisfied (entryAt x) := by
  subst hx
  rw [h.residual_eq, Satisfied]

end ConeRows

end AdjustableRobust
