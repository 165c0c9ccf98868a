import AdjustableRobust.Robust.Decision
import Mathlib.Data.List.Induction
import Mathlib.Data.List.Nodup

/-!
# Entries of pairs

Pairs are turned into entries one after the other: a new key comes last, and a key that repeats
keeps its place and takes the new value. So the keys stand in the order in which they occur first,
each of them once and with its last value, and pairs without repeated keys stay as they are.
-/

namespace AdjustableRobust

variable {κ β : Type} [DecidableEq κ]

/-! ## One pair -/

/-- A new key comes last. -/
theorem setEntry_of_notMem {key : κ} {x : β} {entries : List (κ × β)}
    (h : key ∉ entries.map (·.1)) : setEntry key x entries = entries ++ [(key, x)] := by
  induction entries with
  | nil => rfl
  | cons e entries ih =>
    rw [List.map_cons, List.mem_cons, not_or] at h
    rw [setEntry, if_neg (Ne.symm h.1), ih h.2, List.cons_append]

/-- A key that occurs keeps its place. -/
theorem keys_setEntry_of_mem {key : κ} {x : β} {entries : List (κ × β)}
    (h : key ∈ entries.map (·.1)) : (setEntry key x entries).map (·.1) = entries.map (·.1) := by
  induction entries with
  | nil => exact absurd h List.not_mem_nil
  | cons e entries ih =>
    rw [setEntry]
    split_ifs with hkey
    · rfl
    · have hmem := (List.mem_cons.1 h).resolve_left (Ne.symm hkey)
      rw [List.map_cons, List.map_cons, ih hmem]

/-- Looking a key up compares it with the first key. -/
theorem lookup_cons_ite (key k : κ) (x : β) (entries : List (κ × β)) :
    ((key, x) :: entries).lookup k = if k = key then some x else entries.lookup k := by
  by_cases hk : k = key <;> simp [List.lookup_cons, hk, beq_false_of_ne]

/-- The key has its new value, and the other keys have the values they had. -/
theorem lookup_setEntry (key k : κ) (x : β) (entries : List (κ × β)) :
    (setEntry key x entries).lookup k = if k = key then some x else entries.lookup k := by
  induction entries with
  | nil => exact lookup_cons_ite key k x []
  | cons e entries ih =>
    rw [setEntry]
    split_ifs with hkey hk hk
    · rw [hk, lookup_cons_ite, if_pos hkey.symm]
    · rw [lookup_cons_ite, lookup_cons_ite, if_neg (hkey ▸ hk), if_neg (hkey ▸ hk)]
    · rw [lookup_cons_ite, ih, if_pos hk, if_neg (hk ▸ Ne.symm hkey)]
    · rw [lookup_cons_ite, lookup_cons_ite, ih, if_neg hk]

/-! ## All pairs -/

/-- One more pair is set last. -/
theorem entriesOf_append_singleton (pairs : List (κ × β)) (p : κ × β) :
    entriesOf (pairs ++ [p]) = setEntry p.1 p.2 (entriesOf pairs) := by
  rw [entriesOf, List.foldl_append]
  rfl

/-- The keys stand in the order in which they occur first, each of them once. -/
theorem keys_entriesOf (pairs : List (κ × β)) :
    (entriesOf pairs).map (·.1) = (pairs.map (·.1)).eraseDups := by
  induction pairs using List.reverseRecOn with
  | nil => rfl
  | append_singleton pairs p ih =>
    rw [entriesOf_append_singleton, List.map_append, List.eraseDups_append, ← ih]
    by_cases hmem : p.1 ∈ pairs.map (·.1)
    · rw [keys_setEntry_of_mem (by rwa [ih, List.mem_eraseDups])]
      simp [List.removeAll, hmem]
    · rw [setEntry_of_notMem (by rwa [ih, List.mem_eraseDups])]
      simp [List.removeAll, hmem, List.eraseDups_cons]

/-- Every key has its last value. -/
theorem lookup_entriesOf (pairs : List (κ × β)) (k : κ) :
    (entriesOf pairs).lookup k = pairs.reverse.lookup k := by
  induction pairs using List.reverseRecOn with
  | nil => rfl
  | append_singleton pairs p ih =>
    rw [entriesOf_append_singleton, lookup_setEntry, ih, List.reverse_append,
      List.reverse_singleton, List.singleton_append, lookup_cons_ite]

/-- No key occurs twice. -/
theorem nodup_keys_entriesOf (pairs : List (κ × β)) : ((entriesOf pairs).map (·.1)).Nodup := by
  induction pairs using List.reverseRecOn with
  | nil => exact List.nodup_nil
  | append_singleton pairs p ih =>
    rw [entriesOf_append_singleton]
    by_cases hmem : p.1 ∈ (entriesOf pairs).map (·.1)
    · rwa [keys_setEntry_of_mem hmem]
    · rw [setEntry_of_notMem hmem, List.map_append]
      refine List.nodup_append.2 ⟨ih, List.nodup_singleton _, fun k hk k' hk' heq => hmem ?_⟩
      have hkey : k' = p.1 := List.mem_singleton.1 hk'
      rwa [← hkey, ← heq]

/-- Keys of entries are keys of the pairs they come from. -/
theorem fst_mem_of_mem_entriesOf {pairs : List (κ × β)} {e : κ × β} (he : e ∈ entriesOf pairs) :
    ∃ p ∈ pairs, p.1 = e.1 := by
  have hkey : e.1 ∈ (entriesOf pairs).map (·.1) := List.mem_map_of_mem he
  rw [keys_entriesOf, List.mem_eraseDups] at hkey
  exact List.mem_map.1 hkey

/-- Pairs without repeated keys are entries as they stand. -/
theorem entriesOf_of_nodup {pairs : List (κ × β)} (h : (pairs.map (·.1)).Nodup) :
    entriesOf pairs = pairs := by
  induction pairs using List.reverseRecOn with
  | nil => rfl
  | append_singleton pairs p ih =>
    rw [List.map_append] at h
    obtain ⟨hpairs, -, hdisjoint⟩ := List.nodup_append.1 h
    rw [entriesOf_append_singleton, ih hpairs, setEntry_of_notMem]
    exact fun hmem => hdisjoint _ hmem _ List.mem_cons_self rfl

end AdjustableRobust
