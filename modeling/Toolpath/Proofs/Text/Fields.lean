import Toolpath.Text.Basic

/-! # Fields and lines

A line is cut into fields at a separator, which may have any number of
characters but one at least. Fields that have none of its characters are found
again between the separators that were put between them, and lines without a
line feed are found again in the text in which each of them is ended by one.
-/

namespace Toolpath.Text

/-- The fields of a line: what stands between the places of a separator, which are looked for from
the left and do not overlap. -/
def fields (separator : List Char) : List Char → List (List Char)
  | [] => [[]]
  | c :: cs =>
      if separator.isPrefixOf (c :: cs) then [] :: fields separator (cs.drop (separator.length - 1))
      else (fields separator cs).modifyHead (c :: ·)
termination_by cs => cs.length
decreasing_by
  · rw [List.length_drop, List.length_cons]
    omega
  · rw [List.length_cons]
    exact Nat.lt_succ_self _

section Fields

variable {separator field rest : List Char}

/-- No separator begins with a character that it does not have. -/
theorem fields_cons {c : Char} (hne : separator ≠ []) (hc : c ∉ separator) (cs : List Char) :
    fields separator (c :: cs) = (fields separator cs).modifyHead (c :: ·) := by
  rw [fields, if_neg]
  intro hprefix
  obtain ⟨behind, hbehind⟩ := List.isPrefixOf_iff_prefix.mp hprefix
  obtain ⟨first, more, rfl⟩ := List.exists_cons_of_ne_nil hne
  exact hc (List.mem_cons.mpr (.inl (List.cons.inj hbehind).1.symm))

theorem fields_separator_append (hne : separator ≠ []) (rest : List Char) :
    fields separator (separator ++ rest) = [] :: fields separator rest := by
  obtain ⟨first, more, rfl⟩ := List.exists_cons_of_ne_nil hne
  have hprefix : (first :: more).isPrefixOf (first :: (more ++ rest)) = true :=
    List.isPrefixOf_iff_prefix.mpr ⟨rest, rfl⟩
  rw [List.cons_append, fields, if_pos hprefix, List.length_cons, Nat.add_sub_cancel,
    List.drop_left]

/-- A field goes up to the first separator. -/
theorem fields_append_separator (hne : separator ≠ []) (hfield : ∀ c ∈ field, c ∉ separator)
    (rest : List Char) :
    fields separator (field ++ separator ++ rest) = field :: fields separator rest := by
  rw [List.append_assoc]
  induction field with
  | nil => exact fields_separator_append hne rest
  | cons c field ih =>
      obtain ⟨hc, hfield⟩ := List.forall_mem_cons.mp hfield
      rw [List.cons_append, fields_cons hne hc, ih hfield, List.modifyHead_cons]

theorem fields_of_forall_not_mem (hne : separator ≠ []) (hfield : ∀ c ∈ field, c ∉ separator) :
    fields separator field = [field] := by
  induction field with
  | nil => rw [fields]
  | cons c field ih =>
      obtain ⟨hc, hfield⟩ := List.forall_mem_cons.mp hfield
      rw [fields_cons hne hc, ih hfield, List.modifyHead_cons]

/-- Fields with a separator between them are found again. -/
theorem fields_intercalate (hne : separator ≠ []) {parts : List (List Char)} (hparts : parts ≠ [])
    (hfree : ∀ part ∈ parts, ∀ c ∈ part, c ∉ separator) :
    fields separator (separator.intercalate parts) = parts := by
  induction parts with
  | nil => exact absurd rfl hparts
  | cons part parts ih =>
      obtain ⟨hpart, hrest⟩ := List.forall_mem_cons.mp hfree
      by_cases hlast : parts = []
      · rw [hlast, List.intercalate_singleton, fields_of_forall_not_mem hne hpart]
      · rw [List.intercalate_cons_of_ne_nil hlast, fields_append_separator hne hpart,
          ih hlast hrest]

end Fields

/-- A text of ended lines has nothing behind the last line feed. -/
theorem splitOn_flatMap_lines {lines : List (List Char)} (hlines : ∀ line ∈ lines, '\n' ∉ line) :
    (lines.flatMap fun line => line ++ ['\n']).splitOn '\n' = lines ++ [[]] := by
  induction lines with
  | nil => exact List.splitOn_nil '\n'
  | cons line lines ih =>
      obtain ⟨hline, hrest⟩ := List.forall_mem_cons.mp hlines
      rw [List.flatMap_cons, List.append_assoc, List.singleton_append,
        List.splitOn_append_cons_self_of_not_mem hline, ih hrest, List.cons_append]

end Toolpath.Text
