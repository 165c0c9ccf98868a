/-!
# Stores and handles

A store is an append-only list of entities. It hands out handles that record who issued them and
when, so a store can tell its own current handles from those of another store and from those it
issued before it was last cleared. A copy of a store keeps the owner, so handles issued before
the copy was made are good for both.
-/

namespace AdjustableRobust

/-- The kinds of entities that handles refer to. Handles of different kinds are different types. -/
inductive EntityKind where
  /-- Uncertainty variables of a robust model. -/
  | uncertainty
  /-- Decision variables of a robust model. -/
  | decision
  /-- Variables of a conic model. -/
  | conic
  /-- Alternative constraint sets of an uncertainty set. -/
  | alternative
  /-- Entries of a store that stands on its own. -/
  | entry
  deriving DecidableEq

/-- Identity of the store that issues a handle. -/
structure OwnerId where
  /-- Number of the owner, in order of creation. -/
  number : Nat
  deriving DecidableEq, Repr

/-- Source of owner identities. -/
structure OwnerSupply where
  next : Nat
  deriving Repr

/-- Draw an identity that was not drawn before. -/
def OwnerSupply.fresh (s : OwnerSupply) : OwnerId × OwnerSupply := (⟨s.next⟩, ⟨s.next + 1⟩)

/-- Refers to an entity of a store. -/
structure Handle (κ : EntityKind) where
  /-- The store that issued the handle. -/
  owner : OwnerId
  /-- How often that store had been cleared. -/
  epoch : Nat
  slot : Nat
  deriving DecidableEq, Repr

/-- Why a handle is not accepted. -/
inductive StoreError where
  /-- Another store issued the handle. -/
  | ownerMismatch
  /-- The store was cleared after it issued the handle. -/
  | staleIndex
  /-- The position does not exist. -/
  | outOfRange (slot size : Nat)
  deriving DecidableEq, Repr

/-- Text of the error. -/
def StoreError.message : StoreError → String
  | .ownerMismatch => "Tried to use an index issued by a different owner"
  | .staleIndex => "Tried to use an index issued before the store was cleared"
  | .outOfRange slot size =>
    s!"Index {slot} is out of range for a collection of size {size}"

namespace Handle

variable {κ : EntityKind}

/-- Look the position of the handle up in a table that runs parallel to the issuing store. Only
the position is checked. -/
def lookup {β : Type} (h : Handle κ) (table : List β) : Except StoreError β :=
  match table[h.slot]? with
  | some x => .ok x
  | none => .error (.outOfRange h.slot table.length)

/-- Handles are ordered by owner, then epoch, then position. -/
def compare (a b : Handle κ) : Ordering :=
  (Ord.compare a.owner.number b.owner.number).then
    ((Ord.compare a.epoch b.epoch).then (Ord.compare a.slot b.slot))

/-- The part of the printed handle that does not depend on how many stores exist. -/
def text (h : Handle κ) : String := s!"{h.epoch}#{h.slot})"

/-- A position inside the table is found there. -/
theorem lookup_of_lt {β : Type} (h : Handle κ) (table : List β) (hlt : h.slot < table.length) :
    h.lookup table = .ok table[h.slot] := by
  simp [lookup, hlt]

end Handle

/-- An append-only collection of entities. -/
structure Store (κ : EntityKind) (β : Type) where
  /-- Stamped into every handle. -/
  owner : OwnerId
  /-- How often the store has been cleared. -/
  epoch : Nat
  items : List β

namespace Store

variable {κ : EntityKind} {β : Type}

/-- The empty store of an owner. -/
def new (owner : OwnerId) : Store κ β := ⟨owner, 0, []⟩

/-- The handle that belongs to a position. -/
def handleFor (s : Store κ β) (slot : Nat) : Handle κ := ⟨s.owner, s.epoch, slot⟩

/-- Number of entities. -/
def size (s : Store κ β) : Nat := s.items.length

/-- Whether there are no entities. -/
def isEmpty (s : Store κ β) : Bool := s.items.isEmpty

/-- Append an entity that is built from the handle it is about to receive. -/
def addWith (s : Store κ β) (build : Handle κ → β) : Handle κ × Store κ β :=
  let h := s.handleFor s.size
  (h, { s with items := s.items ++ [build h] })

/-- Append an entity. -/
def add (s : Store κ β) (item : β) : Handle κ × Store κ β := s.addWith fun _ => item

/-- Check that the handle was issued by this store, since its last clear, for a position in it. -/
def validate (s : Store κ β) (h : Handle κ) : Except StoreError Unit :=
  if h.owner ≠ s.owner then .error .ownerMismatch
  else if h.epoch ≠ s.epoch then .error .staleIndex
  else if s.size ≤ h.slot then .error (.outOfRange h.slot s.size)
  else .ok ()

/-- The entity behind a handle. -/
def get (s : Store κ β) (h : Handle κ) : Except StoreError β := do
  s.validate h
  h.lookup s.items

/-- Change the entity behind a handle. -/
def modify (s : Store κ β) (h : Handle κ) (f : β → β) : Except StoreError (Store κ β) := do
  s.validate h
  return { s with items := s.items.modify h.slot f }

/-- Change every entity. -/
def mapItems (s : Store κ β) (f : β → β) : Store κ β := { s with items := s.items.map f }

/-- Whether the store accepts the handle. -/
def contains (s : Store κ β) (h : Handle κ) : Bool :=
  match s.validate h with
  | .ok _ => true
  | .error _ => false

/-- The current handle of a position. -/
def handleAt (s : Store κ β) (slot : Nat) : Except StoreError (Handle κ) :=
  if s.size ≤ slot then .error (.outOfRange slot s.size) else .ok (s.handleFor slot)

/-- All current handles in order of addition. -/
def handles (s : Store κ β) : List (Handle κ) := (List.range s.size).map s.handleFor

/-- All entities with their handles, in order of addition. -/
def entries (s : Store κ β) : List (Handle κ × β) :=
  s.items.zipIdx.map fun (item, slot) => (s.handleFor slot, item)

/-- Drop every entity; handles issued before become stale. -/
def clear (s : Store κ β) : Store κ β := { s with epoch := s.epoch + 1, items := [] }

/-- A fresh store has no entity. -/
@[simp] theorem items_new (owner : OwnerId) : (new owner : Store κ β).items = [] := rfl

/-- Adding appends. -/
@[simp] theorem items_add (s : Store κ β) (item : β) : (s.add item).2.items = s.items ++ [item] :=
  rfl

/-- Adding keeps the owner. -/
@[simp] theorem owner_add (s : Store κ β) (item : β) : (s.add item).2.owner = s.owner := rfl

/-- Adding keeps the epoch. -/
@[simp] theorem epoch_add (s : Store κ β) (item : β) : (s.add item).2.epoch = s.epoch := rfl

/-- The new handle refers to the end of the store. -/
@[simp] theorem handle_add (s : Store κ β) (item : β) : (s.add item).1 = s.handleFor s.size := rfl

/-- A handle is accepted exactly when owner and epoch agree and its position exists. -/
theorem validate_eq_ok_iff (s : Store κ β) (h : Handle κ) :
    s.validate h = .ok () ↔ h.owner = s.owner ∧ h.epoch = s.epoch ∧ h.slot < s.size := by
  unfold validate
  split
  · simp_all
  · split
    · simp_all
    · split <;> simp_all

/-- An accepted handle yields the entity at its position. -/
theorem get_eq_ok_iff (s : Store κ β) (h : Handle κ) (x : β) :
    s.get h = .ok x ↔ h.owner = s.owner ∧ h.epoch = s.epoch ∧ s.items[h.slot]? = some x := by
  unfold get
  cases hv : s.validate h with
  | error e =>
    have hn : ¬ (h.owner = s.owner ∧ h.epoch = s.epoch ∧ h.slot < s.size) := by
      rw [← validate_eq_ok_iff, hv]; simp
    simp only [bind, Except.bind, reduceCtorEq, false_iff]
    rintro ⟨ho, he, hx⟩
    exact hn ⟨ho, he, (List.getElem?_eq_some_iff.1 hx).1⟩
  | ok u =>
    obtain ⟨ho, he, _⟩ := (validate_eq_ok_iff s h).1 hv
    simp only [bind, Except.bind, Handle.lookup, ho, he, true_and]
    cases s.items[h.slot]? <;> simp

end Store

end AdjustableRobust
