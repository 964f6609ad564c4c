import Mathlib.Data.List.Basic

/-! When two lists of parts, joined at a separator that may also occur inside the parts, give
the same text: exactly when the parts break up into the same words.
-/

namespace JoinedKeys

variable {α : Type} [BEq α] [LawfulBEq α]

/-- The words of several parts, in order. -/
def wordsOf (separator : α) (parts : List (List α)) : List (List α) :=
  parts.flatMap (List.splitOn separator)

/-- Splitting a join gives the words of its parts, by induction on the parts. -/
theorem splitOn_join (separator : α) {parts : List (List α)} (some_part : parts ≠ [])
    : ([separator].intercalate parts).splitOn separator = wordsOf separator parts := by
  induction parts with
  | nil => exact absurd rfl some_part
  | cons part rest ih =>
      cases rest with
      | nil => simp [wordsOf]
      | cons next rest =>
          have tail := ih (List.cons_ne_nil next rest)
          rw [List.intercalate_cons_cons, List.append_assoc, List.singleton_append,
            List.splitOn_append_cons_self, tail]
          rfl

/-- Joins agree exactly where the words agree: a join is recovered from its words. -/
theorem join_eq_iff (separator : α) {parts parts' : List (List α)} (some_part : parts ≠ [])
    (some_part' : parts' ≠ [])
    : [separator].intercalate parts = [separator].intercalate parts'
      ↔ wordsOf separator parts = wordsOf separator parts' := by
  rw [← splitOn_join separator some_part, ← splitOn_join separator some_part']
  constructor
  · exact congrArg (List.splitOn separator)
  · intro same
    have joined := congrArg [separator].intercalate same
    rwa [List.intercalate_splitOn, List.intercalate_splitOn] at joined

end JoinedKeys
