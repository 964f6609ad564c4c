import Mathlib.Data.List.Basic
import Mathlib.Tactic.Ring

/-! An append-only log that is kept in chunks of a fixed width, each chunk written as one text with
its entries joined by a separator.
-/

namespace ChunkedLog

variable {α : Type*} {width : Nat} {entries : List α}

-----------------------------------------------------------------------------------------
-- Chunks
-----------------------------------------------------------------------------------------

/-- One chunk of the log. -/
def chunk (width : Nat) (entries : List α) (i : Nat) : List α :=
  (entries.drop (i * width)).take width

/-- Chunks before the last are full. -/
theorem length_chunk_full {i : Nat} (full : (i + 1) * width ≤ entries.length)
    : (chunk width entries i).length = width := by
  rw [Nat.succ_mul] at full
  simp only [chunk, List.length_take, List.length_drop]
  omega

/-- An append goes to the chunk in which the next entry is due, and changes no other. -/
theorem chunk_append (pos : 0 < width) (entries : List α) (entry : α) (i : Nat)
    : chunk width (entries ++ [entry]) i
      = if i = entries.length / width then chunk width entries i ++ [entry]
        else chunk width entries i := by
  have last := Nat.div_add_mod entries.length width
  have less := Nat.mod_lt entries.length pos
  rw [Nat.mul_comm] at last
  unfold chunk
  split
  case isTrue here =>
    subst here
    rw [List.drop_append_of_le_length (by omega), List.take_of_length_le, List.take_of_length_le]
    · simp only [List.length_drop]
      omega
    · simp only [List.length_append, List.length_drop, List.length_singleton]
      omega
  case isFalse other =>
    rcases Nat.lt_or_gt_of_ne other with earlier | later
    · have full : (i + 1) * width ≤ entries.length := by
        have next : (i + 1) * width ≤ entries.length / width * width :=
          Nat.mul_le_mul_right width earlier
        omega
      rw [Nat.succ_mul] at full
      rw [List.drop_append_of_le_length (by omega), List.take_append_of_le_length (by
        simp only [List.length_drop]
        omega)]
    · have beyond : entries.length + 1 ≤ i * width := by
        have next : (entries.length / width + 1) * width ≤ i * width :=
          Nat.mul_le_mul_right width later
        rw [Nat.succ_mul] at next
        omega
      rw [List.drop_eq_nil_of_le (by simpa using beyond), List.drop_eq_nil_of_le (by omega)]

/-- Walking the chunks one after the other reads the log, by induction on their number. -/
theorem flatMap_chunks (width : Nat) (entries : List α) (count : Nat)
    : (List.range count).flatMap (chunk width entries) = entries.take (count * width) := by
  induction count with
  | zero => simp
  | succ count ih =>
      rw [List.range_succ, List.flatMap_append, ih, Nat.succ_mul, List.take_add]
      simp [chunk]

-----------------------------------------------------------------------------------------
-- Texts
-----------------------------------------------------------------------------------------

variable (sep : Char)

/-- The text of a chunk: its names, joined by the separator. -/
def text (names : List String) : String :=
  String.ofList ([sep].intercalate (names.map String.toList))

/-- The names of a text, cut at every separator. -/
def names (text : String) : List String := (text.toList.splitOn sep).map String.ofList

/-- An append to a text. -/
theorem text_append {before : List String} (some_before : before ≠ []) (name : String)
    : text sep (before ++ [name]) = text sep before ++ String.singleton sep ++ name := by
  have joined : [sep].intercalate (before.map String.toList ++ [name.toList])
      = [sep].intercalate (before.map String.toList) ++ [sep] ++ name.toList := by
    have some_before : before.map String.toList ≠ [] := by simpa using some_before
    generalize before.map String.toList = parts at *
    induction parts with
    | nil => exact absurd rfl some_before
    | cons part rest ih =>
        cases rest with
        | nil => simp [List.intercalate_cons_cons]
        | cons next rest =>
            rw [List.cons_append, List.cons_append, List.intercalate_cons_cons, ← List.cons_append,
              ih (List.cons_ne_nil _ _), List.intercalate_cons_cons]
            simp only [List.append_assoc]
  rw [text, List.map_append, List.map_singleton, joined, String.ofList_append,
    String.ofList_append, String.ofList_toList]
  rfl

/-- Names without the separator are read back as they were written. -/
theorem names_text {written : List String} (some_written : written ≠ [])
    (clean : ∀ name ∈ written, sep ∉ name.toList)
    : names sep (text sep written) = written := by
  have cut : (text sep written).toList.splitOn sep = written.map String.toList := by
    rw [text, String.toList_ofList]
    refine List.splitOn_intercalate sep ?_ (by simpa using some_written)
    intro part there
    obtain ⟨name, written, rfl⟩ := List.mem_map.mp there
    exact clean name written
  rw [names, cut, List.map_map]
  exact (List.map_congr_left fun name _ => String.ofList_toList).trans (List.map_id _)

/-- A text of names that are not empty is not empty. -/
theorem text_ne {name : String} {rest : List String} (named : name ≠ "")
    (clean : ∀ n ∈ name :: rest, sep ∉ n.toList)
    : text sep (name :: rest) ≠ "" := by
  intro empty
  have back := names_text sep (List.cons_ne_nil name rest) clean
  rw [empty] at back
  exact named (List.cons.inj back).1.symm

end ChunkedLog
