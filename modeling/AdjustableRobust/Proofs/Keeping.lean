import AdjustableRobust.Step
import Mathlib.Order.Defs.Unbundled

/-!
# What steps keep

A failed step leaves the state that it had reached. A property that is to hold whatever is asked of
a state has to survive failures as well: the statements follow the ways of composing steps. Where a
result is about the state that goes with it, a relation that is reflexive and transitive takes the
place of the property.
-/

namespace AdjustableRobust

namespace Step

variable {σ τ ε ε' α β : Type} {I : σ → Prop}

/-! ## What a step ends with -/

/-- Reading the state. -/
theorem perform_get (s : σ) : (get : Step σ ε σ).perform s = (.ok s, s) := rfl

/-- Changing the state. -/
theorem perform_modify (f : σ → σ) (s : σ) :
    (modify f : Step σ ε PUnit).perform s = (.ok ⟨⟩, f s) := rfl

/-- A sequence goes on with the second part where the first one succeeds. -/
theorem perform_bind (x : Step σ ε α) (f : α → Step σ ε β) (s : σ) :
    (x >>= f).perform s = match x.perform s with
      | (.ok a, t) => (f a).perform t
      | (.error e, t) => (.error e, t) := by
  change perform (EStateM.bind x f) s = _
  rw [perform, perform, EStateM.bind]
  cases x s <;> rfl

/-- A step on a part of the state ends as it ends there. -/
theorem perform_focus (part : σ → τ) (replace : σ → τ → σ) (wrap : ε → ε') (x : Step τ ε β)
    (s : σ) :
    (focus part replace wrap x).perform s =
      ((x.perform (part s)).1.mapError wrap, replace s (x.perform (part s)).2) := by
  rw [perform, perform, focus]
  cases x (part s) <;> rfl

/-! ## What outlasts a step -/

/-- A property of the state outlasts the step, whether it succeeds or not. -/
def Keeps (I : σ → Prop) (x : Step σ ε β) : Prop := ∀ s, I s → I (x.perform s).2

namespace Keeps

/-- Returning a value keeps the state. -/
theorem pure {b : β} : Keeps I (Pure.pure b : Step σ ε β) := fun _ hs => hs

/-- Failing keeps the state. -/
theorem throw {e : ε} : Keeps I (MonadExcept.throw e : Step σ ε β) := fun _ hs => hs

/-- What holds before a step holds where it ends with success. -/
theorem of_eq_ok {x : Step σ ε β} (hx : Keeps I x) {s t : σ} {b : β} (hs : I s)
    (hrun : x s = .ok b t) : I t := by
  have ht := hx s hs
  rwa [perform, hrun] at ht

/-- What holds after the first part of a sequence, however it ends, and is kept by the second part,
holds after the sequence. -/
theorem bind_of_perform {x : Step σ ε α} {f : α → Step σ ε β} {s : σ}
    (hx : I (x.perform s).2) (hf : ∀ a, Keeps I (f a)) : I ((x >>= f).perform s).2 := by
  rw [perform_bind]
  cases hrun : x.perform s with
  | mk result t =>
    rw [hrun] at hx
    cases result with
    | error e => exact hx
    | ok a => exact hf a t hx

/-- A sequence keeps what both parts keep. -/
theorem bind {x : Step σ ε α} {f : α → Step σ ε β} (hx : Keeps I x) (hf : ∀ a, Keeps I (f a)) :
    Keeps I (x >>= f) :=
  fun s hs => bind_of_perform (hx s hs) hf

/-- What is read off the state may rely on the property. -/
theorem bind_get {f : σ → Step σ ε β} (hf : ∀ s, I s → Keeps I (f s)) : Keeps I (get >>= f) :=
  fun s hs => hf s hs s hs

/-- Replacing the state by one with the property. -/
theorem set {t : σ} (ht : I t) : Keeps I (MonadStateOf.set t : Step σ ε PUnit) := fun _ _ => ht

/-- A change of the state that keeps the property. -/
theorem modify {f : σ → σ} (hf : ∀ s, I s → I (f s)) :
    Keeps I (modify f : Step σ ε PUnit) :=
  fun s hs => hf s hs

/-- A total change of the state that keeps the property. -/
theorem ofChange {f : σ → β × σ} (hf : ∀ s, I s → I (f s).2) :
    Keeps I (Step.ofChange f : Step σ ε β) :=
  fun s hs => hf s hs

/-- What follows a step that is taken on a condition. -/
theorem before {c : Prop} [Decidable c] {x : Step σ ε Unit} {f : Unit → Step σ ε β}
    (hx : Keeps I x) (hf : Keeps I (f ())) : Keeps I (if c then x >>= f else f ()) := by
  split
  · exact bind hx fun _ => hf
  · exact hf

/-- What follows a check that may fail. -/
theorem check {c : Prop} [Decidable c] {e : ε} {f : Unit → Step σ ε β} (hf : Keeps I (f ())) :
    Keeps I (if c then (MonadExcept.throw e : Step σ ε Unit) >>= f else f ()) :=
  before throw hf

/-- A result without a state keeps the state. -/
theorem ofExcept {wrap : ε → ε'} {x : Except ε β} :
    Keeps I (Step.ofExcept wrap x : Step σ ε' β) := by
  cases x with
  | error e => exact throw
  | ok b => exact pure

/-- What follows a result without a state may rely on its success. -/
theorem bind_ofExcept {wrap : ε → ε'} {x : Except ε α} {f : α → Step σ ε' β}
    (hf : ∀ a, x = .ok a → Keeps I (f a)) : Keeps I (Step.ofExcept wrap x >>= f) := by
  cases x with
  | error e => exact throw
  | ok a => exact hf a rfl

/-- A step on a part of the state keeps what does not depend on that part. -/
theorem focus {part : σ → τ} {replace : σ → τ → σ} {wrap : ε → ε'} {x : Step τ ε β}
    (hreplace : ∀ s t, I s → I (replace s t)) : Keeps I (Step.focus part replace wrap x) := by
  intro s hs
  rw [perform, Step.focus]
  cases x (part s) with
  | error e t => exact hreplace s t hs
  | ok b t => exact hreplace s t hs

/-- A step on a part of the state keeps what it keeps of that part. -/
theorem focus_part {part : σ → τ} {replace : σ → τ → σ} {wrap : ε → ε'} {x : Step τ ε β}
    {J : τ → Prop} (hx : Keeps J x) (hpart : ∀ s, I s → J (part s))
    (hreplace : ∀ s t, I s → J t → I (replace s t)) : Keeps I (Step.focus part replace wrap x) := by
  intro s hs
  have ht := hx (part s) (hpart s hs)
  rw [perform] at ht
  rw [perform, Step.focus]
  cases hrun : x (part s) with
  | error e t =>
    rw [hrun] at ht
    exact hreplace s t hs ht
  | ok b t =>
    rw [hrun] at ht
    exact hreplace s t hs ht

/-- A fold keeps what its steps keep. -/
theorem foldlM {f : β → α → Step σ ε β} {xs : List α} {b : β}
    (hf : ∀ b, ∀ x ∈ xs, Keeps I (f b x)) : Keeps I (xs.foldlM f b) := by
  induction xs generalizing b with
  | nil => exact pure
  | cons x xs ih =>
    rw [List.foldlM_cons]
    exact bind (hf b x List.mem_cons_self) fun _ =>
      ih fun b y hy => hf b y (List.mem_cons_of_mem x hy)

/-- A map over a list keeps what the step of every entry keeps. -/
theorem mapM {f : α → Step σ ε β} {xs : List α} (hf : ∀ x ∈ xs, Keeps I (f x)) :
    Keeps I (xs.mapM f) := by
  induction xs with
  | nil => exact pure
  | cons x xs ih =>
    rw [List.mapM_cons]
    exact bind (hf x List.mem_cons_self) fun _ =>
      bind (ih fun y hy => hf y (List.mem_cons_of_mem x hy)) fun _ => pure

/-- A loop keeps what the step of every entry keeps. -/
theorem forM {f : α → Step σ ε PUnit} {xs : List α} (hf : ∀ x ∈ xs, Keeps I (f x)) :
    Keeps I (xs.forM f) := by
  induction xs with
  | nil => exact pure
  | cons x xs ih =>
    exact bind (x := f x) (hf x List.mem_cons_self)
      fun _ => ih fun y hy => hf y (List.mem_cons_of_mem x hy)

end Keeps

/-! ## What a failure spares -/

/-- A property of the state outlasts the step when the step fails. -/
def Spares (I : σ → Prop) (x : Step σ ε β) : Prop := ∀ s e t, I s → x s = .error e t → I t

namespace Spares

/-- What outlasts a step outlasts its failure. -/
theorem of_keeps {x : Step σ ε β} (hx : Keeps I x) : Spares I x := by
  intro s e t hs hrun
  have ht := hx s hs
  rwa [perform, hrun] at ht

/-- What is read off the state may rely on the property. -/
theorem bind_get {f : σ → Step σ ε β} (hf : ∀ s, I s → Spares I (f s)) : Spares I (get >>= f) :=
  fun s e t hs hrun => hf s hs s e t hs hrun

/-- A total change of the state does not fail, and what follows may rely on its answer. -/
theorem bind_ofChange {g : σ → α × σ} {f : α → Step σ ε β} (hg : ∀ s, I s → I (g s).2)
    (hf : ∀ s, I s → Spares I (f (g s).1)) : Spares I (ofChange g >>= f) :=
  fun s e t hs hrun => hf s hs (g s).2 e t (hg s hs) hrun

/-- What follows a check that may fail. -/
theorem check {c : Prop} [Decidable c] {e : ε} {f : Unit → Step σ ε β}
    (hf : ¬c → Spares I (f ())) :
    Spares I (if c then (MonadExcept.throw e : Step σ ε Unit) >>= f else f ()) := by
  by_cases hc : c
  · rw [if_pos hc]
    intro s e' t hs hrun
    obtain ⟨-, rfl⟩ := EStateM.Result.error.inj hrun
    exact hs
  · rw [if_neg hc]
    exact hf hc

/-- What follows a result without a state. -/
theorem bind_ofExcept {wrap : ε → ε'} {x : Except ε α} {f : α → Step σ ε' β}
    (hf : ∀ a, x = .ok a → Spares I (f a)) : Spares I (ofExcept wrap x >>= f) := by
  cases x with
  | error e => exact of_keeps (.bind_ofExcept nofun)
  | ok a => exact hf a rfl

end Spares

/-! ## Where a step leads -/

/-- However the step ends, the state reached is in relation to the one before, and a result is of
the given kind there. -/
structure Leads (R : σ → σ → Prop) (x : Step σ ε β) (s : σ) (Q : β → σ → Prop) : Prop where
  reached : R s (x.perform s).2
  result : ∀ b, (x.perform s).1 = .ok b → Q b (x.perform s).2

namespace Leads

variable {R : σ → σ → Prop} {s : σ} {P : α → σ → Prop} {Q : β → σ → Prop}

/-- A change of the state. -/
theorem modify {f : σ → σ} {Q : PUnit → σ → Prop} (hR : R s (f s)) (hQ : Q ⟨⟩ (f s)) :
    Leads R (modify f : Step σ ε PUnit) s Q :=
  ⟨hR, fun _ _ => hQ⟩

/-- A total change of the state. -/
theorem ofChange {f : σ → β × σ} (hR : R s (f s).2) (hQ : Q (f s).1 (f s).2) :
    Leads R (Step.ofChange f : Step σ ε β) s Q :=
  ⟨hR, fun _ hb => Except.ok.inj hb ▸ hQ⟩

/-- What is read off the state is the state. -/
theorem bind_get {f : σ → Step σ ε β} (hf : Leads R (f s) s Q) : Leads R (get >>= f) s Q :=
  ⟨hf.reached, hf.result⟩

/-- A step on a part of the state leads where it leads on the part. -/
theorem focus {part : σ → τ} {replace : σ → τ → σ} {wrap : ε → ε'} {x : Step τ ε β}
    {R' : τ → τ → Prop} {Q' : β → τ → Prop} (hx : Leads R' x (part s) Q')
    (hR : ∀ t, R' (part s) t → R s (replace s t))
    (hQ : ∀ b t, R' (part s) t → Q' b t → Q b (replace s t)) :
    Leads R (Step.focus part replace wrap x) s Q := by
  obtain ⟨hreached, hresult⟩ := hx
  refine ⟨?_, fun b hb => ?_⟩
  · rw [perform_focus]
    exact hR _ hreached
  · rw [perform_focus] at hb ⊢
    cases hrun : (x.perform (part s)).1 with
    | error e =>
      rw [hrun] at hb
      cases hb
    | ok c =>
      rw [hrun] at hb
      obtain rfl : c = b := Except.ok.inj hb
      exact hQ c _ hreached (hresult c hrun)

/-- Returning a value. -/
theorem pure [Std.Refl R] {b : β} (hb : Q b s) : Leads R (Pure.pure b : Step σ ε β) s Q :=
  ⟨refl_of R s, fun _ h => Except.ok.inj h ▸ hb⟩

/-- Failing. -/
theorem throw [Std.Refl R] {e : ε} : Leads R (MonadExcept.throw e : Step σ ε β) s Q :=
  ⟨refl_of R s, fun _ h => nomatch h⟩

/-- A result without a state. -/
theorem ofExcept [Std.Refl R] {wrap : ε → ε'} {x : Except ε β} (hx : ∀ b, x = .ok b → Q b s) :
    Leads R (Step.ofExcept wrap x : Step σ ε' β) s Q := by
  cases x with
  | error e => exact throw
  | ok b => exact pure (hx b rfl)

/-- A sequence leads where its second part does. -/
theorem bind [IsTrans σ R] {x : Step σ ε α} {f : α → Step σ ε β} (hx : Leads R x s P)
    (hf : ∀ a t, R s t → P a t → Leads R (f a) t Q) : Leads R (x >>= f) s Q := by
  obtain ⟨hreached, hresult⟩ := hx
  cases hrun : x.perform s with
  | mk result t =>
    rw [hrun] at hreached hresult
    cases result with
    | error e =>
      have hbind : (x >>= f).perform s = (.error e, t) := by rw [perform_bind, hrun]
      exact ⟨by rwa [hbind], fun b hb => by rw [hbind] at hb; cases hb⟩
    | ok a =>
      have hbind : (x >>= f).perform s = (f a).perform t := by rw [perform_bind, hrun]
      have ha := hf a t hreached (hresult a rfl)
      exact ⟨by rw [hbind]; exact trans_of R hreached ha.reached, by rw [hbind]; exact ha.result⟩

variable [IsPreorder σ R]

/-- What follows a step that is taken on a condition. -/
theorem before {c : Prop} [Decidable c] {x : Step σ ε Unit} {f : Unit → Step σ ε β}
    (hx : Leads R x s fun _ _ => True) (hf : ∀ t, R s t → Leads R (f ()) t Q) :
    Leads R (if c then x >>= f else f ()) s Q := by
  split
  · exact bind hx fun _ t hst _ => hf t hst
  · exact hf s (refl_of R s)

/-- A fold, whose steps keep the kind of what is folded. -/
theorem foldlM {f : β → α → Step σ ε β} {xs : List α}
    (hf : ∀ b t, R s t → Q b t → ∀ x ∈ xs, Leads R (f b x) t Q) {b : β} (hb : Q b s) :
    Leads R (xs.foldlM f b) s Q := by
  induction xs generalizing s b with
  | nil => exact pure hb
  | cons x xs ih =>
    rw [List.foldlM_cons]
    exact bind (hf b s (refl_of R s) hb x List.mem_cons_self) fun c t hst hc =>
      ih (fun d u htu hd y hy => hf d u (trans_of R hst htu) hd y (List.mem_cons_of_mem x hy)) hc

/-- A map over a list, whose results stay of their kind. -/
theorem mapM {f : α → Step σ ε β} (hQ : ∀ b t u, R t u → Q b t → Q b u) {xs : List α}
    (hf : ∀ t, R s t → ∀ x ∈ xs, Leads R (f x) t Q) :
    Leads R (xs.mapM f) s fun bs t => ∀ b ∈ bs, Q b t := by
  induction xs generalizing s with
  | nil => exact pure (by simp)
  | cons x xs ih =>
    rw [List.mapM_cons]
    exact bind (hf s (refl_of R s) x List.mem_cons_self) fun b t hst hb =>
      bind (ih fun u htu y hy => hf u (trans_of R hst htu) y (List.mem_cons_of_mem x hy))
        fun bs u htu hbs => pure (List.forall_mem_cons.2 ⟨hQ b t u htu hb, hbs⟩)

/-- A loop. -/
theorem forM {f : α → Step σ ε PUnit} {xs : List α}
    (hf : ∀ t, R s t → ∀ x ∈ xs, Leads R (f x) t fun _ _ => True) :
    Leads R (xs.forM f) s fun _ _ => True := by
  induction xs generalizing s with
  | nil => exact pure trivial
  | cons x xs ih =>
    exact bind (x := f x) (hf s (refl_of R s) x List.mem_cons_self) fun _ t hst _ =>
      ih fun u htu y hy => hf u (trans_of R hst htu) y (List.mem_cons_of_mem x hy)

end Leads

end Step

end AdjustableRobust
