import AdjustableRobust.Proofs.Expression.Value
import AdjustableRobust.Proofs.Success

/-!
# Substitution

Substituting affine expressions for variables succeeds when it does for every variable that occurs.
The result has the value that the expression has at the values of its images, and refers to what
the images refer to.
-/

namespace AdjustableRobust

variable {V W : Type} {f : V → Except (ModelError ℝ) (AffineExpr ℝ W)}

/-- An expression in new variables is the image of one in old variables. -/
structure IsImage (f : V → Except (ModelError ℝ) (AffineExpr ℝ W)) (vs : List V) (ws : List W)
    (value : (V → ℝ) → ℝ) (image : (W → ℝ) → ℝ) : Prop where
  resolves : ∀ v ∈ vs, ∃ g, f v = .ok g
  vars : ∀ w ∈ ws, ∃ v ∈ vs, ∃ g, f v = .ok g ∧ w ∈ g.vars
  /-- The value of the image is that of the expression at the values of the images. -/
  eval : ∀ ω ξ, (∀ v g, f v = .ok g → g.eval ω = ξ v) → image ω = value ξ

namespace IsImage

variable {vs vs' : List V} {ws ws' : List W} {value value' : (V → ℝ) → ℝ}
variable {image image' : (W → ℝ) → ℝ}

/-- Without variables only constants are images. -/
theorem const (c : ℝ) : IsImage f [] [] (fun _ => c) fun _ => c :=
  ⟨by simp, by simp, fun _ _ _ => rfl⟩

/-- Images are combined like the expressions. -/
theorem combine (h : IsImage f vs ws value image) (h' : IsImage f vs' ws' value' image')
    (op : ℝ → ℝ → ℝ) :
    IsImage f (vs ++ vs') (ws ++ ws') (fun ξ => op (value ξ) (value' ξ))
      fun ω => op (image ω) (image' ω) := by
  refine ⟨fun v hv => ?_, fun w hw => ?_, fun ω ξ hξ => by rw [h.eval ω ξ hξ, h'.eval ω ξ hξ]⟩
  · rcases List.mem_append.1 hv with hv | hv
    · exact h.resolves v hv
    · exact h'.resolves v hv
  · rcases List.mem_append.1 hw with hw | hw
    · obtain ⟨v, hv, hg⟩ := h.vars w hw
      exact ⟨v, List.mem_append_left _ hv, hg⟩
    · obtain ⟨v, hv, hg⟩ := h'.vars w hw
      exact ⟨v, List.mem_append_right _ hv, hg⟩

/-- The image of a variable, scaled. -/
theorem scaled {v : V} {g : AffineExpr ℝ W} (hg : f v = .ok g) (c : ℝ) :
    IsImage f [v] g.vars (fun ξ => c * ξ v) fun ω => c * g.eval ω := by
  refine ⟨?_, fun w hw => ⟨v, List.mem_singleton_self v, g, hg, hw⟩, fun ω ξ hξ => ?_⟩
  · rw [List.forall_mem_singleton]
    exact ⟨g, hg⟩
  · rw [hξ v g hg]

end IsImage

private theorem foldlM_substitute_eq_ok {ts : List (Term ℝ V)} {start g : AffineExpr ℝ W}
    {vs : List V} {value : (V → ℝ) → ℝ} (hstart : IsImage f vs start.vars value start.eval)
    (hrun : ts.foldlM (fun result t => return result.add ((← f t.var).scale t.scale)) start =
      (.ok g : Except (ModelError ℝ) _)) :
    IsImage f (vs ++ ts.map (·.var)) g.vars
      (fun ξ => value ξ + (ts.map fun t => t.scale * ξ t.var).sum) g.eval := by
  induction ts generalizing start vs value with
  | nil =>
    rw [List.foldlM_nil, pure_eq_ok_iff] at hrun
    subst hrun
    simpa using hstart
  | cons t ts ih =>
    simp only [List.foldlM_cons, bind_eq_ok_iff, pure_eq_ok_iff] at hrun
    obtain ⟨_, ⟨image, himage, rfl⟩, hrest⟩ := hrun
    have hnext : IsImage f (vs ++ [t.var]) (start.add (image.scale t.scale)).vars
        (fun ξ => value ξ + t.scale * ξ t.var) (start.add (image.scale t.scale)).eval := by
      have hsum := hstart.combine (.scaled himage t.scale) (· + ·)
      rw [AffineExpr.vars_add, AffineExpr.vars_scale]
      have heval : (start.add (image.scale t.scale)).eval =
          fun ω => start.eval ω + t.scale * image.eval ω := by
        funext ω
        rw [AffineExpr.eval_add, AffineExpr.eval_scale, mul_comm]
      rwa [heval]
    have hall := ih hnext hrest
    simpa only [List.append_assoc, List.singleton_append, List.map_cons, List.sum_cons, add_assoc]
      using hall

/-- Substituting in a linear expression. -/
theorem LinearExpr.substitute_eq_ok {e : LinearExpr ℝ V} {g : AffineExpr ℝ W}
    (hrun : e.substitute f = .ok g) : IsImage f e.vars g.vars e.eval g.eval := by
  have hstart : IsImage f [] (AffineExpr.zero : AffineExpr ℝ W).vars (fun _ => 0)
      (AffineExpr.zero : AffineExpr ℝ W).eval := by
    have hzero : (AffineExpr.zero : AffineExpr ℝ W).eval = fun _ => 0 :=
      funext AffineExpr.eval_zero
    rw [AffineExpr.vars_zero, hzero]
    exact .const 0
  have himage := foldlM_substitute_eq_ok hstart hrun
  simp only [List.nil_append, zero_add] at himage
  exact himage

/-- Substituting succeeds when every variable has an image. -/
theorem LinearExpr.exists_substitute_eq_ok {e : LinearExpr ℝ V}
    (h : ∀ v ∈ e.vars, ∃ g, f v = .ok g) : ∃ g, e.substitute f = .ok g := by
  have hyields : Yields (e.substitute f) fun _ => True := by
    refine Yields.foldlM (fun _ _ t ht => ?_) trivial
    obtain ⟨g, hg⟩ := h _ (List.mem_map_of_mem ht)
    exact .bind_ok hg (.pure trivial)
  obtain ⟨g, hg, -⟩ := hyields
  exact ⟨g, hg⟩

/-- Substituting in an affine expression. -/
theorem AffineExpr.substitute_eq_ok {e : AffineExpr ℝ V} {g : AffineExpr ℝ W}
    (hrun : e.substitute f = .ok g) : IsImage f e.vars g.vars e.eval g.eval := by
  simp only [substitute, bind_eq_ok_iff, pure_eq_ok_iff] at hrun
  obtain ⟨l, hl, rfl⟩ := hrun
  have himage := LinearExpr.substitute_eq_ok hl
  refine ⟨himage.resolves, fun w hw => ?_, fun ω ξ hξ => ?_⟩
  · rw [vars_addConstant] at hw
    exact himage.vars w hw
  · rw [eval_addConstant, himage.eval ω ξ hξ, eval, add_comm]

private theorem mapM_substitute_eq_ok {es : List (AffineExpr ℝ V)} {gs : List (AffineExpr ℝ W)}
    (hrun : es.mapM (·.substitute f) = .ok gs) :
    (∀ v ∈ es.flatMap (·.vars), ∃ g, f v = .ok g) ∧
      (∀ w ∈ gs.flatMap (·.vars), ∃ v ∈ es.flatMap (·.vars), ∃ g, f v = .ok g ∧ w ∈ g.vars) ∧
      ∀ ω ξ, (∀ v g, f v = .ok g → g.eval ω = ξ v) →
        gs.map (·.eval ω) = es.map (·.eval ξ) := by
  rw [mapM_eq_ok_iff] at hrun
  induction hrun with
  | nil => simp
  | cons hg _ ih =>
    obtain ⟨hresolves, hvars, heval⟩ := ih
    have himage := AffineExpr.substitute_eq_ok hg
    refine ⟨fun v hv => ?_, fun w hw => ?_, fun ω ξ hξ => ?_⟩
    · rw [List.flatMap_cons, List.mem_append] at hv
      exact hv.elim (himage.resolves v) (hresolves v)
    · rw [List.flatMap_cons, List.mem_append] at hw
      rcases hw with hw | hw
      · obtain ⟨v, hv, hrest⟩ := himage.vars w hw
        exact ⟨v, List.mem_append_left _ hv, hrest⟩
      · obtain ⟨v, hv, hrest⟩ := hvars w hw
        exact ⟨v, List.mem_append_right _ hv, hrest⟩
    · rw [List.map_cons, List.map_cons, himage.eval ω ξ hξ, heval ω ξ hξ]

/-- Substituting in the norm of a vector. -/
theorem NormedVector.substitute_eq_ok {n : NormedVector ℝ V} {g : NormedVector ℝ W}
    (hrun : n.substitute f = .ok g) : IsImage f n.vars g.vars n.eval g.eval := by
  simp only [substitute, bind_eq_ok_iff, pure_eq_ok_iff] at hrun
  obtain ⟨rows, hrows, rfl⟩ := hrun
  obtain ⟨hresolves, hvars, heval⟩ := mapM_substitute_eq_ok hrows
  refine ⟨hresolves, hvars, fun ω ξ hξ => ?_⟩
  rw [eval, eval, heval ω ξ hξ]

private theorem optionMapM_eq_ok {α β ε : Type} {f : α → Except ε β} {x? : Option α} {y? : Option β}
    (hrun : x?.mapM f = .ok y?) :
    (x? = none ∧ y? = none) ∨ ∃ x y, x? = some x ∧ f x = .ok y ∧ y? = some y := by
  cases x? with
  | none =>
    rw [Option.mapM_none, pure_eq_ok_iff] at hrun
    exact .inl ⟨rfl, hrun.symm⟩
  | some x =>
    rw [Option.mapM_some] at hrun
    simp only [Functor.map, Except.map] at hrun
    cases hy : f x with
    | error err => simp [hy] at hrun
    | ok y =>
      simp only [hy, Except.ok.injEq] at hrun
      exact .inr ⟨x, y, rfl, hy, hrun.symm⟩

/-- Substituting in a conic expression. -/
theorem ConicExpr.substitute_eq_ok {e : ConicExpr ℝ V} {g : ConicExpr ℝ W}
    (hrun : e.substitute f = .ok g) : IsImage f e.vars g.vars e.eval g.eval := by
  obtain ⟨normed?, affine⟩ := e
  simp only [substitute, bind_eq_ok_iff, pure_eq_ok_iff] at hrun
  obtain ⟨n?, hn, a, ha, rfl⟩ := hrun
  have haffine := AffineExpr.substitute_eq_ok ha
  obtain ⟨rfl, rfl⟩ | ⟨n, m, rfl, hm, rfl⟩ := optionMapM_eq_ok hn
  · exact (IsImage.const 0).combine haffine (· + ·)
  · exact (NormedVector.substitute_eq_ok hm).combine haffine (· + ·)

/-- Substituting in a conic expression keeps the norm, and gives its affine part and the rows of
the norm the values that they have at the values of the images. -/
theorem ConicExpr.parts_of_substitute {e : ConicExpr ℝ V} {g : ConicExpr ℝ W}
    (hrun : e.substitute f = .ok g) :
    g.normed?.map (·.norm) = e.normed?.map (·.norm) ∧
      ∀ ω ξ, (∀ v g, f v = .ok g → g.eval ω = ξ v) → g.affine.eval ω = e.affine.eval ξ ∧
        (g.normed?.elim [] (·.rows)).map (·.eval ω) =
          (e.normed?.elim [] (·.rows)).map (·.eval ξ) := by
  obtain ⟨normed?, affine⟩ := e
  simp only [substitute, bind_eq_ok_iff, pure_eq_ok_iff] at hrun
  obtain ⟨n?, hn, a, ha, rfl⟩ := hrun
  have haffine := (AffineExpr.substitute_eq_ok ha).eval
  obtain ⟨rfl, rfl⟩ | ⟨n, m, rfl, hm, rfl⟩ := optionMapM_eq_ok hn
  · exact ⟨rfl, fun ω ξ hξ => ⟨haffine ω ξ hξ, rfl⟩⟩
  · simp only [NormedVector.substitute, bind_eq_ok_iff, pure_eq_ok_iff] at hm
    obtain ⟨rows, hrows, rfl⟩ := hm
    exact ⟨rfl, fun ω ξ hξ => ⟨haffine ω ξ hξ, (mapM_substitute_eq_ok hrows).2.2 ω ξ hξ⟩⟩

end AdjustableRobust
