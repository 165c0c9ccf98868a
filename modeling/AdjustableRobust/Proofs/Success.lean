import AdjustableRobust.Proofs.Runs

/-!
# Computations that succeed

What makes a composed computation succeed, from every state, with a result of a given kind. The
statements follow the ways of composing computations, like those about successful runs.
-/

namespace AdjustableRobust

section Results

variable {ε ε' α β : Type}

/-- The computation succeeds with a result of the given kind. -/
def Yields (x : Except ε β) (Q : β → Prop) : Prop := ∃ b, x = .ok b ∧ Q b

/-- What follows from the kind of the result. -/
theorem Yields.imp {x : Except ε β} {P Q : β → Prop} (hx : Yields x P) (h : ∀ b, P b → Q b) :
    Yields x Q :=
  Exists.imp (fun b hb => ⟨hb.1, h b hb.2⟩) hx

/-- A sequence succeeds when its parts do. -/
theorem Yields.bind {x : Except ε α} {f : α → Except ε β} {P : α → Prop} {Q : β → Prop}
    (hx : Yields x P) (hf : ∀ a, P a → Yields (f a) Q) : Yields (x >>= f) Q := by
  obtain ⟨a, ha, hP⟩ := hx
  obtain ⟨b, hb, hQ⟩ := hf a hP
  exact ⟨b, bind_eq_ok_iff.2 ⟨a, ha, hb⟩, hQ⟩

/-- A sequence whose first part has a known result succeeds when the rest does from there. -/
theorem Yields.bind_ok {x : Except ε α} {f : α → Except ε β} {a : α} {Q : β → Prop}
    (hx : x = .ok a) (hf : Yields (f a) Q) : Yields (x >>= f) Q := by
  rw [hx]
  exact hf

/-- Returning a value succeeds. -/
theorem Yields.pure {b : β} {Q : β → Prop} (hb : Q b) : Yields (Pure.pure b : Except ε β) Q :=
  ⟨b, rfl, hb⟩

/-- Renaming errors does not matter. -/
theorem Yields.mapError {x : Except ε β} {f : ε → ε'} {Q : β → Prop} (hx : Yields x Q) :
    Yields (x.mapError f) Q := by
  obtain ⟨b, hb, hQ⟩ := hx
  exact ⟨b, mapError_eq_ok_iff.2 hb, hQ⟩

/-- A fold succeeds when each of its steps keeps a property and succeeds where it holds. -/
theorem Yields.foldlM {f : β → α → Except ε β} {I : β → Prop} {xs : List α}
    (hstep : ∀ b, I b → ∀ x ∈ xs, Yields (f b x) I) {b : β} (hb : I b) :
    Yields (xs.foldlM f b) I := by
  induction xs generalizing b with
  | nil => exact .pure hb
  | cons x xs ih =>
    rw [List.foldlM_cons]
    exact (hstep b hb x List.mem_cons_self).bind
      fun c hc => ih (fun b hb y hy => hstep b hb y (List.mem_cons_of_mem _ hy)) hc

/-- A map over a list succeeds when it does at every entry. -/
theorem Yields.mapM {f : α → Except ε β} {Q : β → Prop} {xs : List α}
    (hf : ∀ x ∈ xs, Yields (f x) Q) : Yields (xs.mapM f) fun ys => ∀ y ∈ ys, Q y := by
  induction xs with
  | nil => exact .pure (by simp)
  | cons x xs ih =>
    rw [List.mapM_cons]
    exact (hf x List.mem_cons_self).bind fun y hy =>
      (ih fun z hz => hf z (List.mem_cons_of_mem _ hz)).bind fun ys hys =>
        .pure (List.forall_mem_cons.2 ⟨hy, hys⟩)

end Results

namespace Step

variable {σ τ ε ε' α β : Type}

/-- From every state the step succeeds with a result of the given kind. -/
def Yields (x : Step σ ε β) (Q : β → Prop) : Prop := ∀ s, ∃ b t, x s = .ok b t ∧ Q b

/-- A sequence succeeds when its parts do. -/
theorem Yields.bind {x : Step σ ε α} {f : α → Step σ ε β} {P : α → Prop} {Q : β → Prop}
    (hx : Yields x P) (hf : ∀ a, P a → Yields (f a) Q) : Yields (x >>= f) Q := by
  intro s
  obtain ⟨a, s', ha, hP⟩ := hx s
  obtain ⟨b, t, hb, hQ⟩ := hf a hP s'
  exact ⟨b, t, bind_eq_ok_iff.2 ⟨a, s', ha, hb⟩, hQ⟩

/-- Returning a value succeeds. -/
theorem Yields.pure {b : β} {Q : β → Prop} (hb : Q b) :
    Yields (Pure.pure b : Step σ ε β) Q :=
  fun s => ⟨b, s, rfl, hb⟩

/-- A result as a step succeeds when it does. -/
theorem Yields.ofExcept {wrap : ε → ε'} {x : Except ε β} {Q : β → Prop}
    (hx : AdjustableRobust.Yields x Q) : Yields (Step.ofExcept wrap x : Step σ ε' β) Q := by
  intro s
  obtain ⟨b, hb, hQ⟩ := hx
  exact ⟨b, s, ofExcept_eq_ok_iff.2 ⟨hb, rfl⟩, hQ⟩

/-- A sequence that begins with a known result succeeds when the rest does from there. -/
theorem Yields.ofExcept_bind {wrap : ε → ε'} {x : Except ε α} {f : α → Step σ ε' β} {a : α}
    {Q : β → Prop} (hx : x = .ok a) (hf : Yields (f a) Q) :
    Yields (Step.ofExcept wrap x >>= f) Q := by
  rw [hx]
  exact hf

/-- A total change succeeds. -/
theorem Yields.ofChange {f : σ → β × σ} {Q : β → Prop} (hf : ∀ s, Q (f s).1) :
    Yields (Step.ofChange f : Step σ ε β) Q :=
  fun s => ⟨_, _, ofChange_eq_ok_iff.2 rfl, hf s⟩

/-- Changing the state succeeds. -/
theorem Yields.modify {f : σ → σ} : Yields (modify f : Step σ ε PUnit) fun _ => True :=
  fun _ => ⟨⟨⟩, _, modify_eq_ok_iff.2 rfl, trivial⟩

/-- A step on a part of the state succeeds when it does on every part. -/
theorem Yields.focus {part : σ → τ} {replace : σ → τ → σ} {wrap : ε → ε'} {x : Step τ ε β}
    {Q : β → Prop} (hx : Yields x Q) : Yields (Step.focus part replace wrap x) Q := by
  intro s
  obtain ⟨b, t, hb, hQ⟩ := hx (part s)
  exact ⟨b, _, focus_eq_ok_iff.2 ⟨t, hb, rfl⟩, hQ⟩

/-- A fold succeeds when each of its steps keeps a property and succeeds where it holds. -/
theorem Yields.foldlM {f : β → α → Step σ ε β} {I : β → Prop} {xs : List α}
    (hstep : ∀ b, I b → ∀ x ∈ xs, Yields (f b x) I) {b : β} (hb : I b) :
    Yields (xs.foldlM f b) I := by
  induction xs generalizing b with
  | nil => exact .pure hb
  | cons x xs ih =>
    rw [List.foldlM_cons]
    exact (hstep b hb x List.mem_cons_self).bind
      fun c hc => ih (fun b hb y hy => hstep b hb y (List.mem_cons_of_mem _ hy)) hc

/-- A map over a list succeeds when it does at every entry. -/
theorem Yields.mapM {f : α → Step σ ε β} {Q : β → Prop} {xs : List α}
    (hf : ∀ x ∈ xs, Yields (f x) Q) : Yields (xs.mapM f) fun ys => ∀ y ∈ ys, Q y := by
  induction xs with
  | nil => exact .pure (by simp)
  | cons x xs ih =>
    rw [List.mapM_cons]
    exact (hf x List.mem_cons_self).bind fun y hy =>
      (ih fun z hz => hf z (List.mem_cons_of_mem _ hz)).bind fun ys hys =>
        .pure (List.forall_mem_cons.2 ⟨hy, hys⟩)

/-- A loop succeeds when the step of every entry does. -/
theorem Yields.forM {f : α → Step σ ε PUnit} {xs : List α}
    (hf : ∀ x ∈ xs, Yields (f x) fun _ => True) : Yields (xs.forM f) fun _ => True := by
  induction xs with
  | nil => exact .pure trivial
  | cons x xs ih =>
    exact Yields.bind (x := f x) (hf x List.mem_cons_self)
      fun _ _ => ih fun z hz => hf z (List.mem_cons_of_mem _ hz)

end Step

end AdjustableRobust
