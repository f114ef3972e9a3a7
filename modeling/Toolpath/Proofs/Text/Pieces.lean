import Toolpath.Text.Basic

/-! # Pieces between separators

A text, or any list, is cut at every separator; the pieces do not contain it.
What is done to the pieces one by one does not change which of them are empty,
as long as it makes nothing empty and keeps what is empty.
-/

namespace Toolpath.Text

variable {α β : Type} [DecidableEq α] {separator : α} {xs piece : List α}

omit [DecidableEq α] in
/-- A list is cut at the last place where some item stands. -/
theorem exists_eq_append_cons_of_mem {a : α} (h : a ∈ xs) :
    ∃ front behind, xs = front ++ a :: behind ∧ a ∉ behind := by
  obtain ⟨behind, front, hreverse, hbehind⟩ :=
    List.eq_append_cons_of_mem (List.mem_reverse.mpr h)
  refine ⟨front.reverse, behind.reverse, ?_, mt List.mem_reverse.mp hbehind⟩
  rw [← List.reverse_reverse xs, hreverse]
  simp

theorem not_mem_of_mem_splitOn (h : piece ∈ xs.splitOn separator) : separator ∉ piece := by
  induction hn : xs.length using Nat.strongRecOn generalizing xs with
  | ind n ih =>
      subst hn
      by_cases hmem : separator ∈ xs
      · obtain ⟨front, behind, rfl, hfront⟩ := List.eq_append_cons_of_mem hmem
        rw [List.splitOn_append_cons_self_of_not_mem hfront, List.mem_cons] at h
        rcases h with rfl | hrest
        · exact hfront
        · have hlength : behind.length < (front ++ separator :: behind).length := by
            rw [List.length_append, List.length_cons]
            omega
          exact ih _ hlength hrest rfl
      · rw [List.splitOn_eq_singleton hmem, List.mem_singleton] at h
        exact h ▸ hmem

theorem mem_of_mem_dropFinal {a x : α} (h : x ∈ dropFinal a xs) : x ∈ xs := by
  unfold dropFinal at h
  split at h
  · exact (List.dropLast_sublist xs).mem h
  · exact h

/-- Dropping an empty last piece can be done before or after. -/
theorem dropFinal_nil_map [DecidableEq β] {f : List α → List β} (hf : ∀ as, f as = [] ↔ as = [])
    (pieces : List (List α)) : dropFinal [] (pieces.map f) = (dropFinal [] pieces).map f := by
  have hlast : (pieces.map f).getLast? = some [] ↔ pieces.getLast? = some [] := by
    simp [List.getLast?_map, hf]
  rw [dropFinal, dropFinal, ← List.map_dropLast]
  simp only [hlast]
  split <;> rfl

end Toolpath.Text
