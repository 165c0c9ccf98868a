import AdjustableRobust.Proofs.Uncertainty.Region

/-!
# Families of stores

Stores are created, copied, filled, written to and cleared in any order, and handles are kept for
any time. Beside each store stands its past: the edits that made it what it is, those of the store
it is a copy of included, with the handles that they issued. The past decides what a handle is good
for. Up to the next clear the store resolves it to the entity that was added with it, as last
written; from then on the handle is stale. Other stores have no part in this, and those that descend
from another creation reject the handle as foreign.
-/

namespace AdjustableRobust

namespace Store

variable {κ : EntityKind} {β : Type} {s : Store κ β} {h : Handle κ} {x : β}

/-! ## Edits -/

/-- Change every entity, with regard to its position. -/
def rewrite (s : Store κ β) (f : ℕ → β → β) : Store κ β := { s with items := s.items.mapIdx f }

/-- A change to a store through its interface. -/
inductive Edit (κ : EntityKind) (β : Type) where
  | add (item : β)
  | addWith (build : Handle κ → β)
  | write (h : Handle κ) (f : β → β)
  | rewrite (f : ℕ → β → β)
  | clear

/-- The store after an edit. A write through a handle that is not accepted changes nothing. -/
def edit (s : Store κ β) : Edit κ β → Store κ β
  | .add item => (s.add item).2
  | .addWith build => (s.addWith build).2
  | .write h f =>
    match s.modify h f with
    | .ok s' => s'
    | .error _ => s
  | .rewrite f => s.rewrite f
  | .clear => s.clear

/-- The handle that an edit issues. -/
def issued? (s : Store κ β) : Edit κ β → Option (Handle κ)
  | .add item => some (s.add item).1
  | .addWith build => some (s.addWith build).1
  | .write _ _ | .rewrite _ | .clear => none

/-- The entity that an edit adds under the handle that it issues. -/
def Edit.added? (h : Handle κ) : Edit κ β → Option β
  | .add item => some item
  | .addWith build => some (build h)
  | .write _ _ | .rewrite _ | .clear => none

/-- What an edit makes of the entity behind a handle. -/
def Edit.written (h : Handle κ) (x : β) : Edit κ β → β
  | .write h' f => if h' = h then f x else x
  | .rewrite f => f h.slot x
  | .add _ | .addWith _ | .clear => x

/-- Whether an edit drops every entity. -/
def Edit.isClear : Edit κ β → Bool
  | .clear => true
  | .add _ | .addWith _ | .write _ _ | .rewrite _ => false

/-! ## What a handle is good for -/

/-- The store accepts the handle, for reading and for writing, and the entity behind it is the given
one. -/
structure Resolves (s : Store κ β) (h : Handle κ) (x : β) : Prop where
  contains : s.contains h = true
  get : s.get h = .ok x
  modify : ∀ f, ∃ s', s.modify h f = .ok s' ∧ s'.get h = .ok (f x)

/-- The store refuses the handle, for reading and for writing, with the given cause. -/
structure Rejects (s : Store κ β) (h : Handle κ) (e : StoreError) : Prop where
  contains : s.contains h = false
  get : s.get h = .error e
  modify : ∀ f, s.modify h f = .error e

/-- The store was cleared after the handle was issued. -/
structure Outdates (s : Store κ β) (h : Handle κ) : Prop where
  owner : h.owner = s.owner
  epoch : h.epoch < s.epoch

/-- A handle that is not valid is refused with the cause. -/
theorem rejects_of_validate {e : StoreError} (hv : s.validate h = .error e) : s.Rejects h e := by
  refine ⟨?_, ?_, fun f => ?_⟩
  · rw [Store.contains, hv]
  · rw [Store.get, hv]
    rfl
  · rw [Store.modify, hv]
    rfl

/-- A handle of another epoch is stale. -/
theorem Outdates.rejects (hs : s.Outdates h) : s.Rejects h .staleIndex := by
  refine rejects_of_validate ?_
  rw [validate, if_neg (not_not.2 hs.owner), if_pos hs.epoch.ne]

/-- A handle resolves when owner and epoch agree and the entity is at its position. -/
theorem resolves_iff :
    s.Resolves h x ↔ h.owner = s.owner ∧ h.epoch = s.epoch ∧ s.items[h.slot]? = some x := by
  constructor
  · intro hs
    exact (get_eq_ok_iff s h x).1 hs.get
  · rintro ⟨ho, he, hx⟩
    have hv : s.validate h = .ok () :=
      (validate_eq_ok_iff s h).2 ⟨ho, he, (List.getElem?_eq_some_iff.1 hx).1⟩
    refine ⟨by rw [Store.contains, hv], (get_eq_ok_iff s h x).2 ⟨ho, he, hx⟩, fun f => ?_⟩
    refine ⟨{ s with items := s.items.modify h.slot f }, by rw [Store.modify, hv]; rfl, ?_⟩
    rw [get_eq_ok_iff]
    exact ⟨ho, he, by rw [List.getElem?_modify_eq, hx]; rfl⟩

/-- A write is accepted by a store that accepts its handle, and changes what is at the position. -/
theorem edit_write (s : Store κ β) (h : Handle κ) (f : β → β) :
    s.edit (.write h f) =
      if s.contains h = true then { s with items := s.items.modify h.slot f } else s := by
  rw [edit, Store.modify, Store.contains]
  cases s.validate h <;> rfl

/-- No edit changes the owner. -/
@[simp] theorem owner_edit (s : Store κ β) (e : Edit κ β) : (s.edit e).owner = s.owner := by
  cases e with
  | write h f =>
    rw [edit_write]
    split <;> rfl
  | add item => rfl
  | addWith build => rfl
  | rewrite f => rfl
  | clear => rfl

/-- An epoch ends with a clear only. -/
theorem epoch_edit (s : Store κ β) (e : Edit κ β) :
    (s.edit e).epoch = s.epoch + if e.isClear then 1 else 0 := by
  cases e with
  | write h f =>
    rw [edit_write]
    split <;> rfl
  | add item => rfl
  | addWith build => rfl
  | rewrite f => rfl
  | clear => rfl

/-- The handle that an edit issues resolves to the entity that it adds. -/
theorem resolves_issued {e : Edit κ β} (hh : s.issued? e = some h) (hx : e.added? h = some x) :
    (s.edit e).Resolves h x := by
  cases e with
  | add item =>
    obtain rfl := Option.some.inj hh
    obtain rfl := Option.some.inj hx
    exact resolves_iff.2 ⟨rfl, rfl, List.getElem?_concat_length⟩
  | addWith build =>
    obtain rfl := Option.some.inj hh
    obtain rfl := Option.some.inj hx
    exact resolves_iff.2 ⟨rfl, rfl, List.getElem?_concat_length⟩
  | write h' f => cases hh
  | rewrite f => cases hh
  | clear => cases hh

/-- Up to a clear a handle keeps resolving, to what the edit makes of the entity. -/
theorem Resolves.edit (hs : s.Resolves h x) {e : Edit κ β} (he : e.isClear = false) :
    (s.edit e).Resolves h (e.written h x) := by
  have hcontains := hs.contains
  obtain ⟨ho, hepoch, hx⟩ := resolves_iff.1 hs
  have hlt := (List.getElem?_eq_some_iff.1 hx).1
  rw [resolves_iff, owner_edit, epoch_edit, he]
  refine ⟨ho, hepoch, ?_⟩
  cases e with
  | add item => exact (List.getElem?_append_left hlt).trans hx
  | addWith build => exact (List.getElem?_append_left hlt).trans hx
  | write h' f =>
    rw [edit_write, Edit.written]
    by_cases hh : h' = h
    · rw [hh, if_pos hcontains, if_pos rfl, List.getElem?_modify_eq, hx]
      rfl
    · rw [if_neg hh]
      split
      · next hcontains' =>
        -- An accepted handle that is another one has another position.
        have hslot : h'.slot ≠ h.slot := by
          intro hslot
          rw [Store.contains] at hcontains'
          cases hv : s.validate h' with
          | error e => simp [hv] at hcontains'
          | ok u =>
            obtain ⟨ho', he', -⟩ := (validate_eq_ok_iff s h').1 hv
            obtain ⟨owner, epoch, slot⟩ := h
            obtain ⟨owner', epoch', slot'⟩ := h'
            subst ho hepoch hslot ho' he'
            exact hh rfl
        exact (List.getElem?_modify_ne f _ hslot).trans hx
      · exact hx
  | rewrite f =>
    rw [Edit.written]
    change (s.items.mapIdx f)[h.slot]? = _
    rw [List.getElem?_mapIdx, hx]
    rfl
  | clear => cases he

/-- A clear outdates the handles that resolved before. -/
theorem Resolves.outdates (hs : s.Resolves h x) {e : Edit κ β} (he : e.isClear = true) :
    (s.edit e).Outdates h := by
  obtain ⟨ho, hepoch, -⟩ := resolves_iff.1 hs
  refine ⟨ho.trans (owner_edit s e).symm, ?_⟩
  rw [epoch_edit, he, hepoch]
  exact Nat.lt_succ_self _

/-- An outdated handle stays outdated. -/
theorem Outdates.edit (hs : s.Outdates h) (e : Edit κ β) : (s.edit e).Outdates h := by
  refine ⟨hs.owner.trans (owner_edit s e).symm, ?_⟩
  rw [epoch_edit]
  exact hs.epoch.trans_le (Nat.le_add_right _ _)

/-- An edit lists the handle that it issues after those that are listed already. -/
theorem handles_edit {e : Edit κ β} (he : e.isClear = false) :
    (s.edit e).handles = s.handles ++ (s.issued? e).toList := by
  have hadd : ∀ items : List β, items.length = s.items.length + 1 →
      ({ s with items := items } : Store κ β).handles = s.handles ++ [s.handleFor s.size] := by
    intro items hitems
    rw [handles, handles, size, hitems, List.range_succ, List.map_append]
    rfl
  cases e with
  | add item => exact hadd _ (List.length_append ..)
  | addWith build => exact hadd _ (List.length_append ..)
  | write h f =>
    rw [issued?, Option.toList_none, List.append_nil, edit_write]
    split
    · rw [handles, handles, size, size, List.length_modify]
      rfl
    · rfl
  | rewrite f =>
    rw [issued?, Option.toList_none, List.append_nil, edit, handles, handles, size, size,
      Store.rewrite, List.length_mapIdx]
    rfl
  | clear => cases he

/-- The entries are the listed handles, each with the entity that it resolves to. -/
theorem resolves_of_mem_entries {e : Handle κ × β} (he : e ∈ s.entries) : s.Resolves e.1 e.2 := by
  obtain ⟨i, hi, hh⟩ := mem_entries_iff.1 he
  rw [hh]
  exact resolves_iff.2 ⟨rfl, rfl, hi⟩

/-! ## One store and its past -/

/-- An edit with the store that it was made on. -/
structure Deed (κ : EntityKind) (β : Type) where
  /-- The store before the edit. -/
  store : Store κ β
  edit : Edit κ β

namespace Deed

/-- The handle that the edit issued. -/
def issued? (d : Deed κ β) : Option (Handle κ) := d.store.issued? d.edit

/-- The edit added an entity and issued a handle for it. -/
def Issues (d : Deed κ β) (h : Handle κ) (x : β) : Prop :=
  d.issued? = some h ∧ d.edit.added? h = some x

/-- What a sequence of edits makes of the entity behind a handle. -/
def lastWritten (h : Handle κ) (x : β) (ds : List (Deed κ β)) : β :=
  ds.foldl (fun y d => d.edit.written h y) x

/-- A handle is issued for an entity. -/
theorem exists_issues {d : Deed κ β} (hh : d.issued? = some h) : ∃ x, d.Issues h x := by
  obtain ⟨store, edit⟩ := d
  cases edit with
  | add item => exact ⟨item, hh, rfl⟩
  | addWith build => exact ⟨build h, hh, rfl⟩
  | write h' f => cases hh
  | rewrite f => cases hh
  | clear => cases hh

/-- A clear issues no handle. -/
theorem issued?_eq_none {d : Deed κ β} (hd : d.edit.isClear = true) : d.issued? = none := by
  obtain ⟨store, edit⟩ := d
  cases edit with
  | clear => rfl
  | add item => cases hd
  | addWith build => cases hd
  | write h f => cases hd
  | rewrite f => cases hd

end Deed

/-- A store with its past. -/
structure Member (κ : EntityKind) (β : Type) where
  store : Store κ β
  /-- Position of the member that was created, rather than copied, first. -/
  origin : ℕ
  /-- What was done to the store and, before it was copied, to its source. -/
  past : List (Deed κ β)

namespace Member

variable {m : Member κ β}

/-- The store after an edit, which its past records. -/
def edit (m : Member κ β) (e : Edit κ β) : Member κ β :=
  ⟨m.store.edit e, m.origin, m.past ++ [⟨m.store, e⟩]⟩

/-- The handles issued in the past of a store, in order. -/
def issued (m : Member κ β) : List (Handle κ) := m.past.filterMap Deed.issued?

/-- The past of a store tells which handles are accepted, and what is behind them. -/
structure Faithful (m : Member κ β) : Prop where
  /-- Up to a clear a handle resolves to the entity that was added with it, as last written. -/
  resolves : ∀ before d after h x, m.past = before ++ d :: after → d.Issues h x →
    (∀ d' ∈ after, d'.edit.isClear = false) → m.store.Resolves h (Deed.lastWritten h x after)
  /-- After a clear it is outdated. -/
  outdates : ∀ before d after h, m.past = before ++ d :: after → d.issued? = some h →
    (∃ d' ∈ after, d'.edit.isClear = true) → m.store.Outdates h
  handles : m.store.handles = m.issued.filter m.store.contains
  epoch : m.store.epoch = m.past.countP (·.edit.isClear)

/-- A new store has no past. -/
theorem faithful_new (owner : OwnerId) (origin : ℕ) :
    (⟨.new owner, origin, []⟩ : Member κ β).Faithful where
  resolves before d after h x hpast _ _ := absurd hpast (by simp)
  outdates before d after h hpast _ _ := absurd hpast (by simp)
  handles := rfl
  epoch := rfl

/-- An issued handle is resolved or outdated. -/
theorem Faithful.resolves_or_outdates (hm : m.Faithful) (hh : h ∈ m.issued) :
    (∃ x, m.store.Resolves h x) ∨ m.store.Outdates h := by
  obtain ⟨d, hd, hissued⟩ := List.mem_filterMap.1 hh
  obtain ⟨before, after, hpast⟩ := List.append_of_mem hd
  obtain ⟨x, hx⟩ := Deed.exists_issues hissued
  by_cases hclear : ∃ d' ∈ after, d'.edit.isClear = true
  · exact .inr (hm.outdates before d after h hpast hissued hclear)
  · refine .inl ⟨_, hm.resolves before d after h x hpast hx fun d' hd' => ?_⟩
    exact Bool.eq_false_iff.2 fun hc => hclear ⟨d', hd', hc⟩

/-- Every issued handle has the owner of the store. -/
theorem Faithful.owner (hm : m.Faithful) (hh : h ∈ m.issued) : h.owner = m.store.owner := by
  obtain ⟨x, hx⟩ | hout := hm.resolves_or_outdates hh
  · exact (resolves_iff.1 hx).1
  · exact hout.owner

/-- After a clear no issued handle is accepted. -/
theorem Faithful.contains_clear (hm : m.Faithful) {e : Edit κ β} (he : e.isClear = true)
    (hh : h ∈ m.issued) : (m.store.edit e).contains h = false := by
  obtain ⟨x, hx⟩ | hout := hm.resolves_or_outdates hh
  · exact (hx.outdates he).rejects.contains
  · exact (hout.edit e).rejects.contains

/-- Any other edit accepts the issued handles that were accepted before. -/
theorem Faithful.contains_edit (hm : m.Faithful) {e : Edit κ β} (he : e.isClear = false)
    (hh : h ∈ m.issued) : (m.store.edit e).contains h = m.store.contains h := by
  obtain ⟨x, hx⟩ | hout := hm.resolves_or_outdates hh
  · exact (hx.edit he).contains.trans hx.contains.symm
  · exact (hout.edit e).rejects.contains.trans hout.rejects.contains.symm

/-- An edit appends the handle that it issues. -/
theorem issued_edit (m : Member κ β) (e : Edit κ β) :
    (m.edit e).issued = m.issued ++ (m.store.issued? e).toList := by
  rw [issued, issued, edit, List.filterMap_append]
  cases h : m.store.issued? e <;> simp [Deed.issued?, h]

/-- The listed handles stay the issued ones that are accepted. -/
theorem Faithful.handles_edit (hm : m.Faithful) (e : Edit κ β) :
    (m.edit e).store.handles = (m.edit e).issued.filter (m.edit e).store.contains := by
  have hstore : (m.edit e).store = m.store.edit e := rfl
  rw [issued_edit, List.filter_append, hstore]
  cases he : e.isClear with
  | true =>
    have hissued : m.store.issued? e = none := Deed.issued?_eq_none (d := ⟨m.store, e⟩) he
    have hempty : (m.store.edit e).handles = [] := by
      cases e with
      | clear => rfl
      | _ => cases he
    rw [hempty, hissued, List.filter_eq_nil_iff.2 fun h hh => by simp [hm.contains_clear he hh]]
    rfl
  | false =>
    have hnew : (m.store.issued? e).toList.filter (m.store.edit e).contains
        = (m.store.issued? e).toList := by
      refine List.filter_eq_self.2 fun h hh => ?_
      have hissued : m.store.issued? e = some h := Option.mem_toList.1 hh
      obtain ⟨x, hx⟩ := Deed.exists_issues (d := ⟨m.store, e⟩) hissued
      exact (resolves_issued hx.1 hx.2).contains
    rw [Store.handles_edit he, hnew, hm.handles]
    congr 1
    exact List.filter_congr fun h hh => (hm.contains_edit he hh).symm

/-- An edit keeps the past faithful. -/
theorem Faithful.edit (hm : m.Faithful) (e : Edit κ β) : (m.edit e).Faithful where
  resolves before d after h x hpast hx hafter := by
    obtain rfl | ⟨after, d', rfl⟩ := List.eq_nil_or_concat' after
    · -- The edit itself issued the handle.
      obtain ⟨-, hd⟩ := List.append_inj' hpast rfl
      obtain rfl := (List.cons.inj hd).1
      exact resolves_issued hx.1 hx.2
    · -- It was issued before, and the edit is the last of those after.
      rw [← List.cons_append, ← List.append_assoc] at hpast
      obtain ⟨hbefore, hd⟩ := List.append_inj' hpast rfl
      obtain rfl := (List.cons.inj hd).1
      rw [Deed.lastWritten, List.foldl_append]
      refine (hm.resolves before d after h x hbefore hx fun d' hd' => ?_).edit ?_
      · exact hafter d' (List.mem_append_left _ hd')
      · exact hafter _ (List.mem_append_right _ (List.mem_singleton_self _))
  outdates before d after h hpast hissued hclear := by
    obtain rfl | ⟨after, d', rfl⟩ := List.eq_nil_or_concat' after
    · obtain ⟨d', hd', -⟩ := hclear
      exact absurd hd' List.not_mem_nil
    · rw [← List.cons_append, ← List.append_assoc] at hpast
      obtain ⟨hbefore, hd⟩ := List.append_inj' hpast rfl
      obtain rfl := (List.cons.inj hd).1
      have hh : h ∈ m.issued :=
        List.mem_filterMap.2 ⟨d, hbefore ▸ List.mem_append_right _ List.mem_cons_self, hissued⟩
      obtain ⟨d', hd', hc⟩ := hclear
      obtain ⟨x, hx⟩ | hout := hm.resolves_or_outdates hh
      · obtain hd' | hd' := List.mem_append.1 hd'
        · exact (hm.outdates before d after h hbefore hissued ⟨d', hd', hc⟩).edit e
        · obtain rfl := List.mem_singleton.1 hd'
          exact hx.outdates hc
      · exact hout.edit e
  handles := hm.handles_edit e
  epoch := by
    have hstore : (m.edit e).store = m.store.edit e := rfl
    have hpast : (m.edit e).past = m.past ++ [⟨m.store, e⟩] := rfl
    rw [hstore, hpast, epoch_edit, hm.epoch, List.countP_append, List.countP_singleton]

end Member

/-! ## Families -/

/-- Stores with their pasts, and the source of their owners. -/
structure Family (κ : EntityKind) (β : Type) where
  /-- Where the owner of the next store comes from. -/
  supply : OwnerSupply
  members : List (Member κ β)

/-- What can happen to a family. -/
inductive Event (κ : EntityKind) (β : Type) where
  | create
  | copy (source : ℕ)
  | edit (target : ℕ) (e : Edit κ β)

namespace Family

/-- The family after an event. Nothing happens at a position without a store. -/
def step (F : Family κ β) : Event κ β → Family κ β
  | .create =>
    let (owner, supply) := F.supply.fresh
    ⟨supply, F.members ++ [⟨.new owner, F.members.length, []⟩]⟩
  | .copy source => ⟨F.supply, F.members ++ F.members[source]?.toList⟩
  | .edit target e => ⟨F.supply, F.members.modify target (·.edit e)⟩

/-- The family that events lead to, from no store at all. -/
def run (supply : OwnerSupply) (events : List (Event κ β)) : Family κ β :=
  events.foldl step ⟨supply, []⟩

/-- Pasts are faithful, and stores have the same owner when they descend from the same creation. -/
structure Ordered (F : Family κ β) : Prop where
  faithful : ∀ m ∈ F.members, m.Faithful
  owner_lt : ∀ m ∈ F.members, m.store.owner.number < F.supply.next
  origin_lt : ∀ m ∈ F.members, m.origin < F.members.length
  /-- The owners tell the descent. -/
  owner_iff : ∀ m ∈ F.members, ∀ m' ∈ F.members,
    m'.store.owner = m.store.owner ↔ m'.origin = m.origin

private theorem Ordered.create {F : Family κ β} (hF : F.Ordered) : (F.step .create).Ordered := by
  -- owner and position of the new store are larger than any before
  have hnew : ∀ m ∈ F.members, m.store.owner ≠ ⟨F.supply.next⟩ := fun m hm howner =>
    (hF.owner_lt m hm).ne (congrArg OwnerId.number howner)
  have horigin : ∀ m ∈ F.members, m.origin ≠ F.members.length := fun m hm =>
    (hF.origin_lt m hm).ne
  refine ⟨?_, ?_, ?_, ?_⟩ <;> simp only [Family.step, OwnerSupply.fresh, List.forall_mem_append,
    List.forall_mem_singleton, List.length_append, List.length_singleton]
  · exact ⟨hF.faithful, Member.faithful_new _ _⟩
  · exact ⟨fun m hm => (hF.owner_lt m hm).trans (Nat.lt_succ_self _), Nat.lt_succ_self _⟩
  · exact ⟨fun m hm => (hF.origin_lt m hm).trans (Nat.lt_succ_self _), Nat.lt_succ_self _⟩
  · refine ⟨fun m hm => ⟨hF.owner_iff m hm, ?_⟩, fun m hm => ?_, trivial⟩
    · exact iff_of_false (hnew m hm).symm (horigin m hm).symm
    · exact iff_of_false (hnew m hm) (horigin m hm)

private theorem Ordered.of_descends {F F' : Family κ β} (hF : F.Ordered)
    (hsupply : F'.supply = F.supply) (hlength : F.members.length ≤ F'.members.length)
    (hmem : ∀ m ∈ F'.members, m.Faithful ∧
      ∃ m₀ ∈ F.members, m.store.owner = m₀.store.owner ∧ m.origin = m₀.origin) : F'.Ordered := by
  refine ⟨fun m hm => (hmem m hm).1, fun m hm => ?_, fun m hm => ?_, fun m hm m' hm' => ?_⟩
  · obtain ⟨-, m₀, hm₀, howner, -⟩ := hmem m hm
    rw [howner, hsupply]
    exact hF.owner_lt m₀ hm₀
  · obtain ⟨-, m₀, hm₀, -, horigin⟩ := hmem m hm
    rw [horigin]
    exact (hF.origin_lt m₀ hm₀).trans_le hlength
  · obtain ⟨-, m₀, hm₀, howner, horigin⟩ := hmem m hm
    obtain ⟨-, m₁, hm₁, howner', horigin'⟩ := hmem m' hm'
    rw [howner, howner', horigin, horigin']
    exact hF.owner_iff m₀ hm₀ m₁ hm₁

/-- An event keeps a family ordered. -/
theorem Ordered.step {F : Family κ β} (hF : F.Ordered) (event : Event κ β) :
    (F.step event).Ordered := by
  cases event with
  | create => exact hF.create
  | copy source =>
    refine hF.of_descends rfl (by simp [Family.step]) fun m hm => ?_
    have hm₀ : m ∈ F.members := by
      obtain hm | hm := List.mem_append.1 hm
      · exact hm
      · exact List.mem_of_getElem? (Option.mem_toList.1 hm)
    exact ⟨hF.faithful m hm₀, m, hm₀, rfl, rfl⟩
  | edit target e =>
    refine hF.of_descends rfl (List.length_modify ..).ge fun m hm => ?_
    obtain ⟨i, hi⟩ := List.mem_iff_getElem?.1 hm
    simp only [Family.step, List.getElem?_modify, Option.map_eq_map, Option.map_eq_some_iff] at hi
    obtain ⟨m₀, hm₀, rfl⟩ := hi
    have hmem := List.mem_of_getElem? hm₀
    split
    · exact ⟨(hF.faithful m₀ hmem).edit e, m₀, hmem, owner_edit _ _, rfl⟩
    · exact ⟨hF.faithful m₀ hmem, m₀, hmem, rfl, rfl⟩

/-- Copies share their owner, so that one resolves a handle that the other one issued after they
parted to the entity that it has at the position itself. -/
example :
    let F := run (κ := .entry) ⟨1⟩ [.create, .copy 0, .edit 0 (.add 7), .edit 1 (.add 8)]
    F.members.map (·.issued) = [[⟨⟨1⟩, 0, 0⟩], [⟨⟨1⟩, 0, 0⟩]] ∧
      F.members.map (·.store.items) = [[7], [8]] := by
  decide

end Family

end Store

end AdjustableRobust
