import AdjustableRobust.Policy.Error
import AdjustableRobust.Step
import Mathlib.Tactic

/-!
# Successful runs

What it takes for a composed computation to succeed, one statement for each way of composing
computations that may fail, with or without a state.
-/

namespace AdjustableRobust

section Results

variable {ε ε' α β : Type}

/-- A sequence of two results is successful exactly when both parts are. -/
theorem bind_eq_ok_iff {x : Except ε α} {f : α → Except ε β} {b : β} :
    x >>= f = .ok b ↔ ∃ a, x = .ok a ∧ f a = .ok b := by
  cases x with
  | error e => simp [bind, Except.bind]
  | ok a => simp [bind, Except.bind]

/-- Returning a value yields that value. -/
theorem pure_eq_ok_iff {a b : α} : (pure a : Except ε α) = .ok b ↔ a = b := by
  simp [pure, Except.pure]

/-- Failing is no success. -/
theorem throw_ne_ok {e : ε} {b : β} : (throw e : Except ε β) ≠ .ok b := by
  simp [throw, throwThe, MonadExceptOf.throw]

/-- Renaming errors changes no success. -/
theorem mapError_eq_ok_iff {f : ε → ε'} {x : Except ε α} {a : α} :
    x.mapError f = .ok a ↔ x = .ok a := by
  cases x <;> simp [Except.mapError]

/-- Store operations succeed alike as model operations. -/
theorem liftM_eq_ok_iff {x : Except StoreError β} {b : β} :
    (liftM x : Except (ModelError α) β) = .ok b ↔ x = .ok b := by
  cases x with
  | error e => simp [liftM, monadLift, MonadLift.monadLift]
  | ok a => simp [liftM, monadLift, MonadLift.monadLift]

/-- When two lists are related entry by entry, every entry of the first one has a partner. -/
theorem exists_of_forall₂_left {R : α → β → Prop} {xs : List α} {ys : List β}
    (h : List.Forall₂ R xs ys) {x : α} (hx : x ∈ xs) : ∃ y ∈ ys, R x y := by
  induction h with
  | nil => cases hx
  | cons hR _ ih =>
    cases hx with
    | head => exact ⟨_, List.mem_cons_self, hR⟩
    | tail _ hx =>
      obtain ⟨y, hy, hR⟩ := ih hx
      exact ⟨y, List.mem_cons_of_mem _ hy, hR⟩

/-- Every entry of the second list has a partner, too. -/
theorem exists_of_forall₂_right {R : α → β → Prop} {xs : List α} {ys : List β}
    (h : List.Forall₂ R xs ys) {y : β} (hy : y ∈ ys) : ∃ x ∈ xs, R x y :=
  exists_of_forall₂_left h.flip hy

/-- A successful map over a list succeeds at every entry, and its results stand in order. -/
theorem mapM_eq_ok_iff {f : α → Except ε β} {xs : List α} {ys : List β} :
    xs.mapM f = .ok ys ↔ List.Forall₂ (fun x y => f x = .ok y) xs ys := by
  induction xs generalizing ys with
  | nil => rw [List.mapM_nil, pure_eq_ok_iff, List.forall₂_nil_left_iff, eq_comm]
  | cons x xs ih =>
    simp only [List.mapM_cons, bind_eq_ok_iff, pure_eq_ok_iff, ih]
    constructor
    · rintro ⟨y, hy, zs, hzs, rfl⟩
      exact .cons hy hzs
    · rintro (_ | ⟨hy, hzs⟩)
      exact ⟨_, hy, _, hzs, rfl⟩

/-- A successful map over a list succeeds at every entry. -/
theorem exists_of_mapM_eq_ok {f : α → Except ε β} {xs : List α} {ys : List β}
    (hrun : xs.mapM f = .ok ys) {x : α} (hx : x ∈ xs) : ∃ y, f x = .ok y := by
  obtain ⟨y, -, hy⟩ := exists_of_forall₂_left (mapM_eq_ok_iff.1 hrun) hx
  exact ⟨y, hy⟩

/-- What every successful step of a fold keeps, the fold keeps. -/
theorem foldlM_invariant {f : β → α → Except ε β} {I : β → Prop} {xs : List α}
    (hstep : ∀ b, ∀ x ∈ xs, ∀ b', I b → f b x = .ok b' → I b') {b b' : β} (hb : I b)
    (hrun : xs.foldlM f b = .ok b') : I b' := by
  induction xs generalizing b with
  | nil =>
    rw [List.foldlM_nil, pure_eq_ok_iff] at hrun
    exact hrun ▸ hb
  | cons x xs ih =>
    rw [List.foldlM_cons, bind_eq_ok_iff] at hrun
    obtain ⟨b₁, hfirst, hrest⟩ := hrun
    exact ih (fun b y hy => hstep b y (List.mem_cons_of_mem _ hy))
      (hstep b x List.mem_cons_self b₁ hb hfirst) hrest

/-- What holds of no entries, and every step extends by its entry, a fold achieves for its list. -/
theorem foldlM_prefix {f : β → α → Except ε β} {I : List α → β → Prop} {xs : List α}
    (hstep : ∀ ps x rest b b', ps ++ x :: rest = xs → I ps b → f b x = .ok b' → I (ps ++ [x]) b')
    {b b' : β} (hb : I [] b) (hrun : xs.foldlM f b = .ok b') : I xs b' := by
  suffices h : ∀ ps ys b, ps ++ ys = xs → I ps b → ys.foldlM f b = .ok b' → I xs b' from
    h [] xs b rfl hb hrun
  intro ps ys
  induction ys generalizing ps with
  | nil =>
    intro b hps hb hrun
    rw [List.foldlM_nil, pure_eq_ok_iff] at hrun
    rwa [← hrun, ← hps, List.append_nil]
  | cons x ys ih =>
    intro b hps hb hrun
    rw [List.foldlM_cons, bind_eq_ok_iff] at hrun
    obtain ⟨b₁, hfirst, hrest⟩ := hrun
    exact ih (ps ++ [x]) b₁ (by rw [List.append_assoc, List.singleton_append, hps])
      (hstep ps x ys b b₁ hps hb hfirst) hrest

/-- When each step of a fold appends something to a list, the fold appends all of it. -/
theorem foldlM_appends {γ : Type} {f : β → α → Except ε β} (read : β → List γ) (new : α → List γ)
    {xs : List α} (hstep : ∀ x ∈ xs, ∀ b b', f b x = .ok b' → read b' = read b ++ new x) {b b' : β}
    (hrun : xs.foldlM f b = .ok b') : read b' = read b ++ xs.flatMap new := by
  refine foldlM_prefix (I := fun ps c => read c = read b ++ ps.flatMap new) ?_ (by simp) hrun
  intro ps x rest c c' hps hc hc'
  rw [hstep x (hps ▸ by simp) c c' hc', hc, List.flatMap_append, List.append_assoc]
  simp

/-- What each step of a fold achieves for its entry, and no later step destroys, the fold achieves
for all entries. -/
theorem foldlM_forall {f : β → α → Except ε β} {P : α → β → Prop} {xs : List α}
    (hstep : ∀ b, ∀ x ∈ xs, ∀ b', f b x = .ok b' → P x b' ∧ ∀ y, P y b → P y b') {b b' : β}
    (hrun : xs.foldlM f b = .ok b') : ∀ x ∈ xs, P x b' := by
  induction xs generalizing b with
  | nil => simp
  | cons x xs ih =>
    rw [List.foldlM_cons, bind_eq_ok_iff] at hrun
    obtain ⟨b₁, hfirst, hrest⟩ := hrun
    have htail := fun b y hy => hstep b y (List.mem_cons_of_mem x hy)
    rw [List.forall_mem_cons]
    refine ⟨foldlM_invariant (fun c y hy c' hc hc' => (htail c y hy c' hc').2 x hc) ?_ hrest,
      ih htail hrest⟩
    exact (hstep b x List.mem_cons_self b₁ hfirst).1

end Results

namespace Step

variable {σ τ ε ε' α β : Type} {s t : σ}

/-- A sequence of two steps is successful exactly when both parts are. -/
theorem bind_eq_ok_iff {x : Step σ ε α} {f : α → Step σ ε β} {b : β} :
    (x >>= f) s = .ok b t ↔ ∃ a s', x s = .ok a s' ∧ f a s' = .ok b t := by
  change EStateM.bind x f s = _ ↔ _
  unfold EStateM.bind
  cases x s with
  | error e s' => simp
  | ok a s' => simp

/-- A sequence of two steps fails where its first part does, or its second one after that. -/
theorem bind_eq_error_iff {x : Step σ ε α} {f : α → Step σ ε β} {e : ε} :
    (x >>= f) s = .error e t ↔ x s = .error e t ∨ ∃ a s', x s = .ok a s' ∧ f a s' = .error e t := by
  change EStateM.bind x f s = _ ↔ _
  unfold EStateM.bind
  cases x s with
  | error e s' => simp
  | ok a s' => simp

/-- What follows the reading of the state is run on it. -/
theorem get_bind_eq (f : σ → Step σ ε β) (s : σ) : (get >>= f) s = f s s := rfl

/-- A check fails on its condition and keeps the state; otherwise what follows decides. -/
theorem check_eq_error_iff {c : Prop} [Decidable c] {e e' : ε} {f : Unit → Step σ ε β} :
    (if c then (throw e' : Step σ ε Unit) >>= f else f ()) s = .error e t ↔
      (c ∧ e' = e ∧ s = t) ∨ (¬c ∧ f () s = .error e t) := by
  by_cases hc : c
  · rw [if_pos hc]
    change (EStateM.Result.error e' s : EStateM.Result ε σ β) = _ ↔ _
    simp [hc]
  · simp [hc]

/-- Returning a value yields that value and keeps the state. -/
theorem pure_eq_ok_iff {a b : α} : (pure a : Step σ ε α) s = .ok b t ↔ a = b ∧ s = t := by
  change EStateM.pure a s = _ ↔ _
  simp [EStateM.pure]

/-- Failing is no success. -/
theorem throw_ne_ok {e : ε} {b : β} : (throw e : Step σ ε β) s ≠ .ok b t := by
  change (EStateM.Result.error e s : EStateM.Result ε σ β) ≠ _
  simp

/-- Reading the state yields it and keeps it. -/
theorem get_eq_ok_iff {b : σ} : (get : Step σ ε σ) s = .ok b t ↔ s = b ∧ s = t := by
  change (EStateM.Result.ok s s : EStateM.Result ε σ σ) = _ ↔ _
  simp

/-- Changing the state succeeds. -/
theorem modify_eq_ok_iff {f : σ → σ} {b : PUnit} :
    (modify f : Step σ ε PUnit) s = .ok b t ↔ f s = t := by
  change (EStateM.Result.ok PUnit.unit (f s) : EStateM.Result ε σ PUnit) = _ ↔ _
  simp

/-- A result as a step succeeds exactly when it is a success, and keeps the state. -/
theorem ofExcept_eq_ok_iff {wrap : ε → ε'} {x : Except ε β} {b : β} :
    ofExcept wrap x s = .ok b t ↔ x = .ok b ∧ s = t := by
  cases x with
  | error e => simp [ofExcept, throw_ne_ok]
  | ok a => simp [ofExcept, pure_eq_ok_iff]

/-- A total change succeeds. -/
theorem ofChange_eq_ok_iff {f : σ → β × σ} {b : β} :
    (ofChange f : Step σ ε β) s = .ok b t ↔ f s = (b, t) := by
  change (EStateM.Result.ok (f s).1 (f s).2 : EStateM.Result ε σ β) = _ ↔ _
  simp [Prod.ext_iff]

/-- A loop over no entries keeps the state. -/
theorem forM_nil_eq_ok_iff {f : α → Step σ ε PUnit} {u : PUnit} :
    (List.forM [] f : Step σ ε PUnit) s = .ok u t ↔ s = t := by
  change (pure ⟨⟩ : Step σ ε PUnit) s = _ ↔ _
  rw [pure_eq_ok_iff, and_iff_right rfl]

/-- A loop runs the step of the first entry, then the others. -/
theorem forM_cons_eq_ok_iff {f : α → Step σ ε PUnit} {x : α} {xs : List α} {u : PUnit} :
    (List.forM (x :: xs) f : Step σ ε PUnit) s = .ok u t ↔
      ∃ s', f x s = .ok ⟨⟩ s' ∧ (List.forM xs f : Step σ ε PUnit) s' = .ok u t := by
  change ((f x >>= fun _ => List.forM xs f : Step σ ε PUnit) s = _) ↔ _
  rw [bind_eq_ok_iff]
  exact ⟨fun ⟨_, s', hx, hxs⟩ => ⟨s', hx, hxs⟩, fun ⟨s', hx, hxs⟩ => ⟨_, s', hx, hxs⟩⟩

/-- A loop that fails has come past entries whose steps succeed to one whose step fails. The entries
behind it do not matter. -/
theorem exists_of_forM_eq_error {f : α → Step σ ε PUnit} {xs : List α} {e : ε}
    (hrun : (List.forM xs f : Step σ ε PUnit) s = .error e t) :
    ∃ before x after s', xs = before ++ x :: after ∧
      (List.forM before f : Step σ ε PUnit) s = .ok ⟨⟩ s' ∧ f x s' = .error e t := by
  induction xs generalizing s with
  | nil => cases hrun
  | cons x xs ih =>
    change (f x >>= fun _ => List.forM xs f : Step σ ε PUnit) s = _ at hrun
    obtain hfirst | ⟨_, s', hfirst, hrest⟩ := bind_eq_error_iff.1 hrun
    · exact ⟨[], x, xs, s, rfl, rfl, hfirst⟩
    · obtain ⟨before, y, after, s₁, rfl, hbefore, hy⟩ := ih hrest
      exact ⟨x :: before, y, after, s₁, rfl, forM_cons_eq_ok_iff.2 ⟨s', hfirst, hbefore⟩, hy⟩

/-- A successful loop comes past the step of every entry, in between states that go before and after
those of the others. -/
theorem forM_passes {f : α → Step σ ε PUnit} {R : σ → σ → Prop} [IsPreorder σ R]
    (hR : ∀ x s t, f x s = .ok ⟨⟩ t → R s t) {xs : List α} {u : PUnit}
    (hrun : (List.forM xs f : Step σ ε PUnit) s = .ok u t) :
    R s t ∧ ∀ x ∈ xs, ∃ s' t', R s s' ∧ f x s' = .ok ⟨⟩ t' ∧ R t' t := by
  induction xs generalizing s with
  | nil => exact ⟨forM_nil_eq_ok_iff.1 hrun ▸ refl_of R s, by simp⟩
  | cons x xs ih =>
    obtain ⟨s', hfirst, hrest⟩ := forM_cons_eq_ok_iff.1 hrun
    have hhead := hR x s s' hfirst
    obtain ⟨htail, hall⟩ := ih hrest
    refine ⟨trans_of R hhead htail,
      List.forall_mem_cons.2 ⟨⟨s, s', refl_of R s, hfirst, htail⟩, ?_⟩⟩
    intro y hy
    obtain ⟨s₁, t₁, hs₁, hstep, ht₁⟩ := hall y hy
    exact ⟨s₁, t₁, trans_of R hhead hs₁, hstep, ht₁⟩

/-- What the successful step of every entry shows about its entry, a successful map shows about all
entries. -/
theorem mapM_forall {f : α → Step σ ε β} {Q : α → Prop} {xs : List α}
    (hQ : ∀ x ∈ xs, ∀ s b t, f x s = .ok b t → Q x) {bs : List β}
    (hrun : xs.mapM f s = .ok bs t) : ∀ x ∈ xs, Q x := by
  induction xs generalizing s t bs with
  | nil => simp
  | cons x xs ih =>
    simp only [List.mapM_cons, bind_eq_ok_iff] at hrun
    obtain ⟨b, s', hfirst, bs, t', hrest, -⟩ := hrun
    exact List.forall_mem_cons.2 ⟨hQ x List.mem_cons_self s b s' hfirst,
      ih (fun y hy => hQ y (List.mem_cons_of_mem x hy)) hrest⟩

/-- A step on a part of the state succeeds exactly when it succeeds on the part. -/
theorem focus_eq_ok_iff {part : σ → τ} {replace : σ → τ → σ} {wrap : ε → ε'} {x : Step τ ε β}
    {b : β} :
    focus part replace wrap x s = .ok b t ↔
      ∃ p, x (part s) = .ok b p ∧ replace s p = t := by
  unfold focus
  cases x (part s) with
  | error e p => simp
  | ok a p => simp

end Step

end AdjustableRobust
