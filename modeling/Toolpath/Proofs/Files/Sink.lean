import Mathlib.Data.List.TakeDrop
import Toolpath.Files.Sink

/-! # What a sink takes

Writing pieces one after the other comes to the same as writing all of their
bytes in one go: a sink takes the front of the bytes that fits its room, and
the first piece that does not fit is the last one that is tried. Where writing
breaks off, the bytes up to there have been written.
-/

namespace Toolpath.Sink

/-- A list behind an array is put there in one go or in two. -/
theorem appendList_append {α : Type} (as : Array α) (first second : List α) :
    as ++ (first ++ second) = as ++ first ++ second := by
  apply Array.ext'
  simp only [Array.toList_appendList, List.append_assoc]

variable (sink : Sink)

theorem write_nil : sink.write [] = (.ok (), sink) := by
  rcases sink with ⟨_ | capacity, failure, taken⟩
  · rw [write, Array.appendList_nil]
  · simp only [write, List.take_nil, Array.appendList_nil, List.length_nil, Nat.zero_le, if_true]

/-- Bytes behind some others are written if the others fit, and are not tried if they do not. -/
theorem write_append (first second : List UInt8) :
    sink.write (first ++ second) =
      match sink.write first with
      | (.ok (), after) => after.write second
      | (.error failure, after) => (.error failure, after) := by
  rcases sink with ⟨_ | capacity, failure, taken⟩
  · simp only [write, appendList_append]
  · simp only [write, List.take_append, List.length_append]
    by_cases hfirst : first.length ≤ capacity - taken.size
    · -- The room that is left is what the first bytes have not taken.
      have hroom : capacity - (taken ++ first).size = capacity - taken.size - first.length := by
        rw [← Array.length_toList, Array.toList_appendList, List.length_append,
          Array.length_toList]
        omega
      have hfits : first.length + second.length ≤ capacity - taken.size ↔
          second.length ≤ capacity - taken.size - first.length := by
        omega
      simp only [if_pos hfirst, List.take_of_length_le hfirst, hroom, hfits, appendList_append]
    · have hnone : capacity - taken.size - first.length = 0 := by omega
      have hover : ¬first.length + second.length ≤ capacity - taken.size := by omega
      simp only [if_neg hfirst, if_neg hover, hnone, List.take_zero, List.append_nil]

/-- However bytes are cut into pieces, writing the pieces is writing the bytes. -/
theorem writeAll_eq_write (pieces : List (List UInt8)) :
    sink.writeAll pieces = sink.write pieces.flatten := by
  induction pieces generalizing sink with
  | nil => exact sink.write_nil.symm
  | cons piece pieces ih =>
      rw [List.flatten_cons, write_append, writeAll]
      rcases sink.write piece with ⟨_ | _, after⟩
      · rfl
      · exact ih after

section New

variable (bytes : List UInt8)

/-- A new sink without a limit takes all bytes. -/
theorem write_of_unlimited : Sink.write {} bytes = (.ok (), { taken := bytes.toArray }) := by
  simp only [write, List.toArray_appendList, List.nil_append]

/-- A new sink with a limit takes the front of the bytes, and fails unless that is all of them. -/
theorem write_of_capacity (n : Nat) (failure : IoFailure) :
    Sink.write { capacity := some n, failure } bytes =
      (if bytes.length ≤ n then .ok () else .error failure,
        { capacity := some n, failure, taken := (bytes.take n).toArray }) := by
  simp only [write, List.toArray_appendList, List.nil_append, Array.size_empty, Nat.sub_zero]

end New

/-- The bytes that are written before writing breaks off, if it does. -/
def reached (broken? : Option Break) (bytes : List UInt8) : List UInt8 :=
  match broken? with
  | none => bytes
  | some broken => bytes.take broken.bytes

section Broken

variable (broken? : Option Break) (bytes : List UInt8)

theorem taken_write_upTo :
    ((upTo broken?).write bytes).2.taken.toList = reached broken? bytes := by
  cases broken? with
  | none => rw [upTo, write_of_unlimited, reached]
  | some broken => rw [upTo, write_of_capacity, reached]

/-- Writing does not fail only if it is not broken off before the end. -/
theorem write_upTo_eq_ok_iff :
    ((upTo broken?).write bytes).1 = .ok () ↔ reached broken? bytes = bytes := by
  cases broken? with
  | none => simp [upTo, write_of_unlimited, reached]
  | some broken =>
      rw [upTo, write_of_capacity, reached, List.take_eq_self_iff]
      by_cases hfits : bytes.length ≤ broken.bytes
      · rw [if_pos hfits]
        exact iff_of_true rfl hfits
      · rw [if_neg hfits]
        exact iff_of_false (fun herror => by cases herror) hfits

end Broken

end Toolpath.Sink
