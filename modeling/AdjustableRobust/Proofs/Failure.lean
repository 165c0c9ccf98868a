import AdjustableRobust.Proofs.Keeping

/-!
# Computations that fail

What can be the cause when a composed computation fails. The statements follow the ways of composing
computations, with or without a state, like those about computations that succeed.
-/

namespace AdjustableRobust

section Results

variable {ε ε' α β : Type} {P : ε → Prop}

/-- Whatever the computation fails with is of the given kind. -/
def Blames (P : ε → Prop) (x : Except ε β) : Prop := ∀ e, x = .error e → P e

namespace Blames

/-- Returning a value does not fail. -/
theorem pure {b : β} : Blames P (Pure.pure b : Except ε β) := nofun

/-- Failing on purpose. -/
theorem throw {e : ε} (he : P e) : Blames P (MonadExcept.throw e : Except ε β) :=
  fun _ h => Except.error.inj h ▸ he

/-- A sequence fails where one of its parts does. -/
theorem bind {x : Except ε α} {f : α → Except ε β} (hx : Blames P x) (hf : ∀ a, Blames P (f a)) :
    Blames P (x >>= f) := by
  intro e h
  cases x with
  | error e' => exact hx e (congrArg Except.error (Except.error.inj h))
  | ok a => exact hf a e h

/-- A sequence whose first part has a known result fails where the rest does from there. -/
theorem bind_ok {x : Except ε α} {f : α → Except ε β} {a : α} (hx : x = .ok a)
    (hf : Blames P (f a)) : Blames P (x >>= f) := by
  rw [hx]
  exact hf

/-- Renaming errors. -/
theorem mapError {f : ε' → ε} {x : Except ε' β} (hf : ∀ e, P (f e)) : Blames P (x.mapError f) := by
  intro e h
  cases x with
  | error e' => exact Except.error.inj h ▸ hf e'
  | ok a => cases h

/-- A fold fails where one of its steps does. The steps may rely on what all of them keep. -/
theorem foldlM_invariant {f : β → α → Except ε β} {I : β → Prop} {xs : List α}
    (hI : ∀ b, ∀ x ∈ xs, ∀ b', I b → f b x = .ok b' → I b')
    (hf : ∀ b, I b → ∀ x ∈ xs, Blames P (f b x)) {b : β} (hb : I b) : Blames P (xs.foldlM f b) := by
  induction xs generalizing b with
  | nil => exact pure
  | cons x xs ih =>
    rw [List.foldlM_cons]
    cases hfirst : f b x with
    | error e =>
      intro e' h
      exact Except.error.inj h ▸ hf b hb x List.mem_cons_self e hfirst
    | ok c =>
      exact ih (fun b y hy => hI b y (List.mem_cons_of_mem x hy))
        (fun b hb y hy => hf b hb y (List.mem_cons_of_mem x hy))
        (hI b x List.mem_cons_self c hb hfirst)

/-- A fold fails where one of its steps does. -/
theorem foldlM {f : β → α → Except ε β} {xs : List α} (hf : ∀ b, ∀ x ∈ xs, Blames P (f b x))
    {b : β} : Blames P (xs.foldlM f b) :=
  foldlM_invariant (I := fun _ => True) (fun _ _ _ _ _ _ => trivial) (fun b _ => hf b) trivial

/-- A map over a list fails where it does at an entry. -/
theorem mapM {f : α → Except ε β} {xs : List α} (hf : ∀ x ∈ xs, Blames P (f x)) :
    Blames P (xs.mapM f) := by
  induction xs with
  | nil => exact pure
  | cons x xs ih =>
    rw [List.mapM_cons]
    exact bind (hf x List.mem_cons_self) fun _ =>
      bind (ih fun y hy => hf y (List.mem_cons_of_mem x hy)) fun _ => pure

end Blames

end Results

namespace Step

variable {σ τ ε ε' α β : Type} {P : ε → Prop}

/-- From every state, whatever the step fails with is of the given kind. -/
def Blames (P : ε → Prop) (x : Step σ ε β) : Prop := ∀ s, AdjustableRobust.Blames P (x.perform s).1

namespace Blames

/-- Returning a value does not fail. -/
theorem pure {b : β} : Blames P (Pure.pure b : Step σ ε β) := fun _ => .pure

/-- Failing on purpose. -/
theorem throw {e : ε} (he : P e) : Blames P (MonadExcept.throw e : Step σ ε β) := fun _ => .throw he

/-- Reading the state does not fail. -/
theorem get : Blames P (MonadState.get : Step σ ε σ) := fun _ => .pure

/-- Changing the state does not fail. -/
theorem modify {f : σ → σ} : Blames P (modify f : Step σ ε PUnit) := fun _ => .pure

/-- A total change does not fail. -/
theorem ofChange {f : σ → β × σ} : Blames P (Step.ofChange f : Step σ ε β) := fun _ => .pure

/-- A sequence fails where one of its parts does. -/
theorem bind {x : Step σ ε α} {f : α → Step σ ε β} (hx : Blames P x) (hf : ∀ a, Blames P (f a)) :
    Blames P (x >>= f) := by
  intro s
  have hs := hx s
  rw [perform_bind]
  cases hrun : x.perform s with
  | mk result t =>
    rw [hrun] at hs
    cases result with
    | error e => exact .throw (hs e rfl)
    | ok a => exact hf a t

/-- A result without a state fails as it does by itself. -/
theorem ofExcept {wrap : ε' → ε} {x : Except ε' β}
    (hx : AdjustableRobust.Blames (fun e => P (wrap e)) x) :
    Blames P (Step.ofExcept wrap x : Step σ ε β) := by
  cases x with
  | error e => exact throw (hx e rfl)
  | ok b => exact pure

/-- A step on a part of the state fails as it does on the part. -/
theorem focus {part : σ → τ} {replace : σ → τ → σ} {wrap : ε' → ε} {x : Step τ ε' β}
    (hx : Blames (fun e => P (wrap e)) x) : Blames P (Step.focus part replace wrap x) := by
  intro s
  have hs := hx (part s)
  rw [perform_focus]
  cases hrun : (x.perform (part s)).1 with
  | error e => exact .throw (hs e hrun)
  | ok b => exact .pure

/-- What follows a check that may fail. -/
theorem check {c : Prop} [Decidable c] {e : ε} {f : Unit → Step σ ε β} (he : P e)
    (hf : Blames P (f ())) :
    Blames P (if c then (MonadExcept.throw e : Step σ ε Unit) >>= f else f ()) := by
  split
  · exact bind (throw he) fun _ => hf
  · exact hf

/-- A fold fails where one of its steps does. -/
theorem foldlM {f : β → α → Step σ ε β} {xs : List α} (hf : ∀ b, ∀ x ∈ xs, Blames P (f b x))
    {b : β} : Blames P (xs.foldlM f b) := by
  induction xs generalizing b with
  | nil => exact pure
  | cons x xs ih =>
    rw [List.foldlM_cons]
    exact bind (hf b x List.mem_cons_self) fun _ =>
      ih fun c y hy => hf c y (List.mem_cons_of_mem x hy)

/-- A map over a list fails where it does at an entry. -/
theorem mapM {f : α → Step σ ε β} {xs : List α} (hf : ∀ x ∈ xs, Blames P (f x)) :
    Blames P (xs.mapM f) := by
  induction xs with
  | nil => exact pure
  | cons x xs ih =>
    rw [List.mapM_cons]
    exact bind (hf x List.mem_cons_self) fun _ =>
      bind (ih fun y hy => hf y (List.mem_cons_of_mem x hy)) fun _ => pure

/-- A loop fails where the step of an entry does. -/
theorem forM {f : α → Step σ ε PUnit} {xs : List α} (hf : ∀ x ∈ xs, Blames P (f x)) :
    Blames P (xs.forM f) := by
  induction xs with
  | nil => exact pure
  | cons x xs ih =>
    exact bind (x := f x) (hf x List.mem_cons_self) fun _ =>
      ih fun y hy => hf y (List.mem_cons_of_mem x hy)

end Blames

end Step

end AdjustableRobust
