/-
# Records in a buffer

A framing puts records one after another into a buffer. Every record has one
encoding, which is not empty, and a reader that takes a record off the front of
the input is exact: it accepts what the encoding wrote, and it accepts nothing
else.

Reading a whole buffer takes records off its front until the reader fails. A
buffer that holds encoded records and then something else is read record by
record, so the records written are the records read.
-/

import Mathlib.Data.List.Basic

namespace Orderbook.Math

universe u v

/-- A format of records over an alphabet, with an exact reader. -/
structure Framing (α : Type u) (β : Type v) where
  encode : α → List β
  read : List β → Option (α × List β)
  encode_ne_nil : ∀ record, encode record ≠ []
  read_encode : ∀ record rest, read (encode record ++ rest) = some (record, rest)
  encode_of_read : ∀ input record rest, read input = some (record, rest) →
    input = encode record ++ rest

namespace Framing

variable {α : Type u} {β : Type v} (framing : Framing α β)

/-- A buffer filled with records. -/
def encodeAll (records : List α) : List β := records.flatMap framing.encode

@[simp]
theorem encodeAll_nil : framing.encodeAll [] = [] := rfl

@[simp]
theorem encodeAll_cons (record : α) (records : List α) :
    framing.encodeAll (record :: records) = framing.encode record ++ framing.encodeAll records :=
  rfl

@[simp]
theorem encodeAll_append (records later : List α) :
    framing.encodeAll (records ++ later) =
      framing.encodeAll records ++ framing.encodeAll later :=
  List.flatMap_append

/-- What the reader leaves is shorter than what it was given. -/
theorem length_lt_of_read {input rest : List β} {record : α}
    (hread : framing.read input = some (record, rest)) : rest.length < input.length := by
  have hinput := framing.encode_of_read input record rest hread
  have hpositive := List.length_pos_of_ne_nil (framing.encode_ne_nil record)
  rw [hinput, List.length_append]
  omega

/-- Take records off the front of a buffer until the reader fails. -/
def readAll (input : List β) : List α :=
  match _hread : framing.read input with
  | none => []
  | some (record, rest) => record :: readAll rest
termination_by input.length
decreasing_by exact framing.length_lt_of_read (by assumption)

theorem readAll_of_none {input : List β} (hread : framing.read input = none) :
    framing.readAll input = [] := by
  rw [readAll]
  split
  · rfl
  · simp_all

theorem readAll_of_some {input rest : List β} {record : α}
    (hread : framing.read input = some (record, rest)) :
    framing.readAll input = record :: framing.readAll rest := by
  rw [readAll]
  split
  · simp_all
  · simp_all

/-- The reader fails on an empty buffer. -/
theorem read_nil : framing.read [] = none := by
  cases hread : framing.read [] with
  | none => rfl
  | some taken =>
      have hless := framing.length_lt_of_read hread
      simp at hless

/-- The records written are the records read. -/
theorem readAll_encodeAll (records : List α) (rest : List β) :
    framing.readAll (framing.encodeAll records ++ rest) = records ++ framing.readAll rest := by
  induction records with
  | nil => rfl
  | cons record records ih =>
      rw [encodeAll_cons, List.append_assoc,
        framing.readAll_of_some (framing.read_encode record _), ih, List.cons_append]

/-- What is left when the reader fails. -/
def remainder (input : List β) : List β :=
  input.drop (framing.encodeAll (framing.readAll input)).length

/-- A buffer is the records read and what is left, and the reader fails on what is left. -/
theorem readAll_spec (input : List β) :
    framing.encodeAll (framing.readAll input) ++ framing.remainder input = input ∧
      framing.read (framing.remainder input) = none := by
  induction hlength : input.length using Nat.strongRecOn generalizing input with
  | ind length ih =>
      cases hread : framing.read input with
      | none =>
          rw [remainder, framing.readAll_of_none hread]
          exact ⟨rfl, hread⟩
      | some taken =>
          obtain ⟨record, rest⟩ := taken
          have hshorter := framing.length_lt_of_read hread
          obtain ⟨hsplit, hstuck⟩ := ih rest.length (hlength ▸ hshorter) rest rfl
          have hremainder : framing.remainder input = framing.remainder rest := by
            rw [remainder, framing.readAll_of_some hread, encodeAll_cons, List.length_append]
            nth_rewrite 1 [framing.encode_of_read input record rest hread]
            rw [List.drop_append, List.drop_of_length_le (Nat.le_add_right _ _),
              Nat.add_sub_cancel_left, List.nil_append, remainder]
          rw [hremainder, framing.readAll_of_some hread, encodeAll_cons, List.append_assoc, hsplit]
          exact ⟨(framing.encode_of_read input record rest hread).symm, hstuck⟩

end Framing

end Orderbook.Math
