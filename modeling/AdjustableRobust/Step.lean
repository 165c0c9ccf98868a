/-!
# Steps that may fail

A step changes a state and may fail on the way. Unlike a result with an optional state, a failed
step keeps the state it had reached, so what was done before the failure stays visible.
-/

namespace AdjustableRobust

/-- A computation on states `σ` with failures `ε`. -/
abbrev Step (σ ε β : Type) := EStateM ε σ β

namespace Step

variable {σ τ ε ε' β : Type}

/-- A result without a state as a step that leaves the state alone. -/
def ofExcept (wrap : ε → ε') : Except ε β → Step σ ε' β
  | .ok x => pure x
  | .error e => throw (wrap e)

/-- A total change of the state. -/
def ofChange (f : σ → β × σ) : Step σ ε β := modifyGet f

/-- Run a step on a part of the state. -/
def focus (part : σ → τ) (replace : σ → τ → σ) (wrap : ε → ε') (x : Step τ ε β) : Step σ ε' β :=
  fun s =>
    match x (part s) with
    | .ok b t => .ok b (replace s t)
    | .error e t => .error (wrap e) (replace s t)

/-- Run one of two steps, whichever fits the state. -/
def either (x : Step σ ε β) (y : Step τ ε β) : Step (σ ⊕ τ) ε β := fun
  | .inl s => match x s with
    | .ok b s => .ok b (.inl s)
    | .error e s => .error e (.inl s)
  | .inr t => match y t with
    | .ok b t => .ok b (.inr t)
    | .error e t => .error e (.inr t)

/-- The result and the state reached. -/
def perform (x : Step σ ε β) (s : σ) : Except ε β × σ :=
  match x s with
  | .ok b t => (.ok b, t)
  | .error e t => (.error e, t)

/-- A part that succeeds is put back into the state. -/
theorem focus_eq_ok {part : σ → τ} {replace : σ → τ → σ} {wrap : ε → ε'} {x : Step τ ε β} {s : σ}
    {b : β} {t : τ} (h : x (part s) = .ok b t) :
    focus part replace wrap x s = .ok b (replace s t) := by
  simp [focus, h]

end Step

end AdjustableRobust
