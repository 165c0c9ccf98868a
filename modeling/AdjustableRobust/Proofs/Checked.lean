import AdjustableRobust.Proofs.Keeping
import AdjustableRobust.Proofs.Runs
import AdjustableRobust.Proofs.Scalar.Real

/-!
# Checked computations

The operations of this library are total: a quotient by zero is zero, a difference of positions that
would be negative is zero, and a position outside of a list is one more cause of failure. A checked
computation stops where a machine cannot go on, and keeps such a fault apart from the failures that
the computation reports by itself. When it agrees with the computation that it checks, in results
and in failures, it comes past all of its checks.
-/

namespace AdjustableRobust

/-- What a machine cannot go on from. -/
inductive Fault where
  | divisionByZero
  | outOfRange (position length : ℕ)
  | negativePosition
  /-- A variable has its lower bound above its upper bound. -/
  | crossedBounds
  deriving DecidableEq, Repr

/-- Why a checked computation stops. -/
inductive Stop (ε : Type) where
  /-- It cannot go on. -/
  | fault (cause : Fault)
  /-- It reports a failure. -/
  | failed (cause : ε)

/-- Rename the failures that are reported. -/
def Stop.map {ε ε' : Type} (wrap : ε → ε') : Stop ε → Stop ε'
  | .fault cause => .fault cause
  | .failed cause => .failed (wrap cause)

/-- The result of a computation that checks what it does. -/
abbrev Checked (ε β : Type) := Except (Stop ε) β

namespace Checked

variable {ε ε' α β γ : Type}

/-! ## Operations -/

/-- A computation in which there is nothing to check. -/
def plain (x : Except ε β) : Checked ε β := x.mapError .failed

/-- Rename the failures that are reported. -/
def relabel (wrap : ε → ε') (x : Checked ε β) : Checked ε' β := x.mapError (.map wrap)

/-- Division, which needs a divisor other than zero. -/
noncomputable def divide (x y : ℝ) : Checked ε ℝ :=
  if y = 0 then .error (.fault .divisionByZero) else .ok (x / y)

/-- Difference of positions, which must not be negative. -/
def minus (m n : ℕ) : Checked ε ℕ :=
  if m < n then .error (.fault .negativePosition) else .ok (m - n)

/-- Entry of a list, which has to be there. -/
def entry (xs : List β) (i : ℕ) : Checked ε β :=
  match xs[i]? with
  | some x => .ok x
  | none => .error (.fault (.outOfRange i xs.length))

/-- Bounds, which have to be in order. -/
noncomputable def inOrder (lower? upper? : Option ℝ) : Checked ε Unit :=
  if ∃ l ∈ lower?, ∃ u ∈ upper?, u < l then .error (.fault .crossedBounds) else .ok ()

/-- Entries of a table that runs parallel to a store, for those handles that the store accepts. -/
def lookUps {κ : EntityKind} (s : Store κ α) (table : List β) (hs : List (Handle κ)) :
    Checked ε Unit :=
  hs.forM fun h => if s.contains h then do let _ ← entry table h.slot else pure ()

/-- Division by what is not zero passes the check. -/
theorem divide_of_ne (x : ℝ) {y : ℝ} (hy : y ≠ 0) : (divide x y : Checked ε ℝ) = .ok (x / y) :=
  if_neg hy

/-- A difference of positions that does not go below zero passes the check. -/
theorem minus_of_le {m n : ℕ} (h : n ≤ m) : (minus m n : Checked ε ℕ) = .ok (m - n) :=
  if_neg (not_lt.2 h)

/-- An entry that exists is found. -/
theorem entry_of_eq_some {xs : List β} {i : ℕ} {x : β} (h : xs[i]? = some x) :
    (entry xs i : Checked ε β) = .ok x := by
  rw [entry, h]

/-- A position below the length has an entry. -/
theorem entry_of_lt {xs : List β} {i : ℕ} (h : i < xs.length) :
    (entry xs i : Checked ε β) = .ok xs[i] :=
  entry_of_eq_some (List.getElem?_eq_getElem h)

/-- Ends in order pass the check. -/
theorem inOrder_of_le {lower? upper? : Option ℝ} (h : ∀ l u, lower? = some l → upper? = some u →
    l ≤ u) : (inOrder lower? upper? : Checked ε Unit) = .ok () :=
  if_neg fun ⟨l, hl, u, hu, hlt⟩ => absurd (h l u hl hu) (not_le.2 hlt)

/-- All look-ups succeed in a table that has an entry for each entity. -/
theorem lookUps_of_length {κ : EntityKind} {s : Store κ α} {table : List β}
    (h : table.length = s.size) (hs : List (Handle κ)) :
    (lookUps s table hs : Checked ε Unit) = .ok () := by
  rw [lookUps]
  induction hs with
  | nil => rfl
  | cons x xs ih =>
    have hfirst : (if s.contains x then do let _ ← entry table x.slot else pure () :
        Checked ε Unit) = .ok () := by
      split
      · next hx =>
        have hslot : x.slot < s.size := by
          rw [Store.contains] at hx
          split at hx
          · next hvalid => exact ((s.validate_eq_ok_iff x).1 hvalid).2.2
          · cases hx
        rw [entry_of_lt (h ▸ hslot)]
        rfl
      · rfl
    change ((if s.contains x then do let _ ← entry table x.slot else pure () : Checked ε Unit) >>=
      fun _ => _) = _
    rw [hfirst]
    exact ih

/-- Asking all entries for something that each of them answers. -/
theorem allM_eq_ok {p : α → Checked ε Bool} {q : α → Bool} {xs : List α}
    (h : ∀ x ∈ xs, p x = .ok (q x)) : xs.allM p = .ok (xs.all q) := by
  induction xs with
  | nil => rfl
  | cons x xs ih =>
    have hrest := ih fun y hy => h y (List.mem_cons_of_mem x hy)
    simp only [List.allM, h x List.mem_cons_self, hrest, List.all_cons]
    cases q x <;> rfl

/-! ## Agreement -/

/-- The checked computation has the results and the failures of the one that it checks. -/
def Agrees (x : Checked ε β) (y : Except ε β) : Prop := x = plain y

namespace Agrees

/-- Where there is nothing to check. -/
theorem plain {y : Except ε β} : Agrees (Checked.plain y) y := rfl

/-- Returning a value. -/
theorem pure {b : β} : Agrees (Pure.pure b : Checked ε β) (Pure.pure b) := rfl

/-- Failing on purpose. -/
theorem throw {e : ε} : Agrees (MonadExcept.throw (.failed e) : Checked ε β)
    (MonadExcept.throw e) := rfl

/-- The result of a computation that succeeds. -/
theorem eq_ok {x : Checked ε β} {b : β} (h : Agrees x (.ok b)) : x = .ok b := h

/-- Sequences agree when their parts do. The second parts matter for results of the first ones
only. -/
theorem bind {x : Checked ε α} {y : Except ε α} {f : α → Checked ε β} {g : α → Except ε β}
    (hx : Agrees x y) (hf : ∀ a, y = .ok a → Agrees (f a) (g a)) :
    Agrees (x >>= f) (y >>= g) := by
  rw [hx]
  cases y with
  | error e => rfl
  | ok a => exact hf a rfl

/-- A check that is passed does not matter. -/
theorem bind_ok {x : Checked ε α} {f : α → Checked ε β} {y : Except ε β} {a : α} (hx : x = .ok a)
    (hf : Agrees (f a) y) : Agrees (x >>= f) y := by
  rw [hx]
  exact hf

/-- Renaming failures on both sides. -/
theorem relabel {x : Checked ε β} {y : Except ε β} (wrap : ε → ε') (h : Agrees x y) :
    Agrees (x.relabel wrap) (y.mapError wrap) := by
  rw [h]
  cases y <;> rfl

/-- A look-up of a handle whose position is in the table. -/
theorem lookup {κ : EntityKind} {h : Handle κ} {table : List β} (hlt : h.slot < table.length)
    (wrap : StoreError → ε) : Agrees (entry table h.slot) ((h.lookup table).mapError wrap) := by
  rw [h.lookup_of_lt table hlt]
  exact entry_of_lt hlt

/-- Folds over lists whose entries belong together agree when their steps do. The steps may rely on
what all of them keep about the entries that are left. -/
theorem foldlM_forall₂ {R : α → γ → Prop} {I : List γ → β → Prop} {f : β → α → Checked ε β}
    {g : β → γ → Except ε β} {xs : List α} {ys : List γ} (hxs : List.Forall₂ R xs ys)
    (hI : ∀ y rest b b', I (y :: rest) b → g b y = .ok b' → I rest b')
    (hstep : ∀ x y rest b, R x y → I (y :: rest) b → Agrees (f b x) (g b y)) {b : β}
    (hb : I ys b) : Agrees (xs.foldlM f b) (ys.foldlM g b) := by
  induction hxs generalizing b with
  | nil => exact pure
  | cons hx _ ih =>
    rw [List.foldlM_cons, List.foldlM_cons]
    exact (hstep _ _ _ b hx hb).bind fun c hc => ih (hI _ _ b c hb hc)

/-- Folds over a list agree when their steps do. The steps may rely on what all of them keep. -/
theorem foldlM_invariant {I : β → Prop} {f : β → α → Checked ε β} {g : β → α → Except ε β}
    {xs : List α} (hI : ∀ b, ∀ x ∈ xs, ∀ b', I b → g b x = .ok b' → I b')
    (hstep : ∀ b, I b → ∀ x ∈ xs, Agrees (f b x) (g b x)) {b : β} (hb : I b) :
    Agrees (xs.foldlM f b) (xs.foldlM g b) := by
  induction xs generalizing b with
  | nil => exact pure
  | cons x xs ih =>
    rw [List.foldlM_cons, List.foldlM_cons]
    exact (hstep b hb x List.mem_cons_self).bind fun c hc =>
      ih (fun b y hy => hI b y (List.mem_cons_of_mem x hy))
        (fun b hb y hy => hstep b hb y (List.mem_cons_of_mem x hy))
        (hI b x List.mem_cons_self c hb hc)

/-- Folds over a list agree when their steps do. -/
theorem foldlM {f : β → α → Checked ε β} {g : β → α → Except ε β} {xs : List α}
    (hstep : ∀ b, ∀ x ∈ xs, Agrees (f b x) (g b x)) {b : β} :
    Agrees (xs.foldlM f b) (xs.foldlM g b) :=
  foldlM_invariant (I := fun _ => True) (fun _ _ _ _ _ _ => trivial) (fun b _ => hstep b) trivial

/-- Maps over lists whose entries belong together agree when they do at the entries. -/
theorem mapM_forall₂ {R : α → γ → Prop} {f : α → Checked ε β} {g : γ → Except ε β} {xs : List α}
    {ys : List γ} (hxs : List.Forall₂ R xs ys) (hstep : ∀ x y, R x y → Agrees (f x) (g y)) :
    Agrees (xs.mapM f) (ys.mapM g) := by
  induction hxs with
  | nil => exact pure
  | cons hx _ ih =>
    rw [List.mapM_cons, List.mapM_cons]
    exact (hstep _ _ hx).bind fun _ _ => ih.bind fun _ _ => pure

/-- Maps over a list agree when they do at its entries. -/
theorem mapM {f : α → Checked ε β} {g : α → Except ε β} {xs : List α}
    (hf : ∀ x ∈ xs, Agrees (f x) (g x)) : Agrees (xs.mapM f) (xs.mapM g) :=
  mapM_forall₂ (R := fun x y => Agrees (f x) (g y)) (List.forall₂_same.2 hf) fun _ _ h => h

end Agrees

end Checked

namespace Step

variable {σ ε ε' α β : Type}

/-- From every state, the checked step ends as the one that it checks. -/
def Agrees (x : Step σ (Stop ε) β) (y : Step σ ε β) : Prop :=
  ∀ s, x.perform s = (Checked.plain (y.perform s).1, (y.perform s).2)

namespace Agrees

/-- Returning a value. -/
theorem pure {b : β} : Agrees (Pure.pure b : Step σ (Stop ε) β) (Pure.pure b) := fun _ => rfl

/-- Total changes. -/
theorem ofChange {f : σ → β × σ} : Agrees (Step.ofChange f) (Step.ofChange f : Step σ ε β) :=
  fun _ => rfl

/-- Sequences agree when their parts do. -/
theorem bind {x : Step σ (Stop ε) α} {y : Step σ ε α} {f : α → Step σ (Stop ε) β}
    {g : α → Step σ ε β} (hx : Agrees x y) (hf : ∀ a, Agrees (f a) (g a)) :
    Agrees (x >>= f) (y >>= g) := by
  intro s
  rw [perform_bind, perform_bind, hx s]
  cases y.perform s with
  | mk result t =>
    cases result with
    | error e => rfl
    | ok a => exact hf a t

/-- Sequences that begin with results without a state. The second parts matter for these results
only. -/
theorem ofExcept_bind {x : Checked ε α} {y : Except ε α} {f : α → Step σ (Stop ε) β}
    {g : α → Step σ ε β} (hx : x.Agrees y) (hf : ∀ a, y = .ok a → Agrees (f a) (g a)) :
    Agrees (Step.ofExcept id x >>= f) (Step.ofExcept id y >>= g) := by
  rw [hx]
  cases y with
  | error e => exact fun _ => rfl
  | ok a => exact hf a rfl

/-- A check that is passed does not matter. -/
theorem bind_ok {x : Checked ε α} {f : α → Step σ (Stop ε) β} {y : Step σ ε β} {a : α}
    (hx : x = .ok a) (hf : Agrees (f a) y) : Agrees (Step.ofExcept id x >>= f) y := by
  rw [hx]
  exact hf

/-- Results without a state. -/
theorem ofExcept {x : Checked ε β} {y : Except ε β} (h : x.Agrees y) :
    Agrees (Step.ofExcept id x) (Step.ofExcept id y : Step σ ε β) := by
  rw [h]
  cases y <;> exact fun _ => rfl

/-- Failing on purpose. -/
theorem throw {e : ε} : Agrees (MonadExcept.throw (.failed e) : Step σ (Stop ε) β)
    (MonadExcept.throw e) := fun _ => rfl

/-- Looking at the state. -/
theorem get : Agrees (MonadState.get : Step σ (Stop ε) σ) MonadState.get := fun _ => rfl

/-- Steps in which there is nothing to check. -/
theorem plain (y : Step σ ε β) : Agrees (EStateM.adaptExcept .failed y) y := by
  intro s
  rw [perform, perform, EStateM.adaptExcept]
  cases y s <;> rfl

/-- Loops agree when their bodies do at the entries. -/
theorem forM {f : α → Step σ (Stop ε) PUnit} {g : α → Step σ ε PUnit} {xs : List α}
    (h : ∀ x ∈ xs, Agrees (f x) (g x)) : Agrees (xs.forM f) (xs.forM g) := by
  induction xs with
  | nil => exact pure
  | cons x xs ih =>
    exact (h x List.mem_cons_self).bind fun _ => ih fun y hy => h y (List.mem_cons_of_mem x hy)

section

variable {x : Step σ (Stop ε) β} {y : Step σ ε β} {s t : σ}

/-- The checked step has no fault. -/
theorem ne_fault (h : Agrees x y) (cause : Fault) : x s ≠ .error (.fault cause) t := by
  intro hrun
  have hs := h s
  rw [perform, perform, hrun] at hs
  cases hy : y s <;> simp [hy, Checked.plain, Except.mapError] at hs

/-- The checked step succeeds as the one that it checks. -/
theorem eq_ok_iff (h : Agrees x y) {b : β} : x s = .ok b t ↔ y s = .ok b t := by
  have hs := h s
  rw [perform, perform] at hs
  cases hx : x s <;> cases hy : y s <;> simp_all [Checked.plain, Except.mapError]

/-- The checked step fails as the one that it checks. -/
theorem eq_error_iff (h : Agrees x y) {e : ε} : x s = .error (.failed e) t ↔ y s = .error e t := by
  have hs := h s
  rw [perform, perform] at hs
  cases hx : x s <;> cases hy : y s <;> simp_all [Checked.plain, Except.mapError]

end

end Agrees

end Step

end AdjustableRobust
