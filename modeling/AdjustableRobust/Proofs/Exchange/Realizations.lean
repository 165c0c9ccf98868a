import AdjustableRobust.Exchange.Realizations
import AdjustableRobust.Proofs.Exchange.Number

/-!
# Reading realizations back

Realizations are written as arrays of numbers and read back as they were, row by row, with empty
rows and rows of different lengths. Only numbers are read, though, and a value that is not finite
is written as null: one such value anywhere, and the text that was written is refused.
-/

namespace AdjustableRobust

open Json

/-- A map that keeps some entries as they are and fails at the others. -/
theorem mapM_eq_ite {β : Type} {f : β → Option β} {p : β → Bool}
    (hf : ∀ x, f x = if p x then some x else none) (xs : List β) :
    xs.mapM f = if xs.all p then some xs else none := by
  induction xs with
  | nil => rfl
  | cons x xs ih =>
    rw [List.mapM_cons, hf, ih, List.all_cons]
    cases p x <;> cases xs.all p <;> rfl

namespace Realizations

section

variable {α : Type} [ScalarExchange α] {isFinite : α → Bool}

/-- What is written for realizations is well formed. -/
theorem wellFormed_toJson (h : ScalarExchange.Lawful isFinite) (rows : List (List α)) :
    (toJson rows).WellFormed := by
  refine .array fun j hj => ?_
  obtain ⟨row, -, rfl⟩ := List.mem_map.1 hj
  refine .array fun j hj => ?_
  obtain ⟨x, -, rfl⟩ := List.mem_map.1 hj
  exact h.wellFormed_toJson x

/-- The realizations are read from their document, if all their values are finite. -/
theorem ofJson?_toJson (h : ScalarExchange.Lawful isFinite) (rows : List (List α)) :
    ofJson? (toJson rows) = if rows.all (·.all isFinite) then some rows else none := by
  rw [toJson, ofJson?, List.mapM_map]
  refine mapM_eq_ite (fun row => ?_) rows
  rw [Function.comp_apply, rowOfJson?, List.mapM_map]
  exact mapM_eq_ite h.ofJson?_toJson row

/-- However scalars are exchanged, as long as the exchange is lawful: realizations are read back
exactly if all their values are finite. -/
theorem ofText_toText_of_lawful (h : ScalarExchange.Lawful isFinite) (rows : List (List α)) :
    ofText (toText rows) =
      if rows.all (·.all isFinite) then .ok rows else .error .unableToParse := by
  rw [ofText, toText, (wellFormed_toJson h rows).ofText?_text, Option.bind_some, ofJson?_toJson h]
  split_ifs <;> rfl

end

/-- Realizations are read back from the text that is written for them exactly if all their values
are finite; the text of all others is refused. -/
theorem ofText_toText (rows : List (List Float)) :
    ofText (toText rows) =
      if rows.all (·.all Float.isFinite) then .ok rows else .error .unableToParse :=
  ofText_toText_of_lawful ScalarExchange.lawful_float rows

/-- Rows of different lengths, one of them empty. -/
example : toText [[1.5, -0.5], [], [(1e-7 : Float)]] = "[[1.5,-0.5],[],[1e-7]]" := by
  decide +kernel

/-- One value that is not finite is written without complaint, and all realizations of its text
are lost. -/
theorem infinite_unread : toText [[1.5], [(1 / 0 : Float)]] = "[[1.5],[null]]" ∧
    ofText (toText [[1.5], [1 / 0]]) =
      (.error .unableToParse : Except (ExchangeError Float) (List (List Float))) := by
  have hread : (Json.ofText? (toText [[1.5], [(1 / 0 : Float)]])).bind ofJson? =
      (none : Option (List (List Float))) := by decide +kernel
  exact ⟨by decide +kernel, by rw [ofText, hread]⟩

end Realizations

end AdjustableRobust
