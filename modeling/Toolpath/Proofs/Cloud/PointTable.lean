import Mathlib.Data.List.Forall2
import Toolpath.Proofs.Cloud.Writing
import Toolpath.Proofs.Files.Storage
import Toolpath.Proofs.Motion.Samples
import Toolpath.Proofs.Number.Written
import Toolpath.Proofs.Text.Fields

/-! # Point files as tables

Apart from documents, a point file ends in a table with one line for each point
in order. A line is cut into its three numbers at the separator, which cannot be
taken for a part of a number, and each number is read as the coordinate that it
was written for. The header of a polygon file says how many lines its table has.
-/

namespace Toolpath

open Text

/-- Whether a separator can be told from numbers and from the end of a line. -/
structure IsSeparator (separator : List Char) : Prop where
  ne_nil : separator ≠ []
  not_mem : ∀ c ∈ separator, c.isDigit = false ∧ c ≠ '.' ∧ c ≠ '-' ∧ c ≠ '\n'

theorem isSeparator_space : IsSeparator [' '] :=
  ⟨List.cons_ne_nil _ _, List.forall_mem_singleton.mpr (by decide)⟩

namespace Number

variable {x : Float}

theorem not_mem_separator_of_mem_text (hx : x.isFinite = true) {separator : List Char}
    (hseparator : IsSeparator separator) : ∀ c ∈ text x, c ∉ separator := by
  intro c hc hmem
  obtain ⟨hdigit, hpoint, hminus, -⟩ := hseparator.not_mem c hmem
  rcases mem_text hx hc with h | h | h
  · rw [h] at hdigit
    cases hdigit
  · exact hpoint h
  · exact hminus h

theorem newline_not_mem_text (hx : x.isFinite = true) : '\n' ∉ text x := by
  intro hmem
  rcases mem_text hx hmem with h | h | h <;> exact absurd h (by decide)

theorem mapM_read?_map_text {xs : List Float} (hfinite : ∀ x ∈ xs, x.isFinite = true) :
    (xs.map text).mapM read? = some xs := by
  induction xs with
  | nil => rfl
  | cons x xs ih =>
      obtain ⟨hx, hrest⟩ := List.forall_mem_cons.mp hfinite
      rw [List.map_cons, List.mapM_cons, read?_text hx, ih hrest]
      rfl

end Number

namespace Point

/-- Whether a line says a point: it has one field for each coordinate, read as that coordinate. -/
def SaidBy (separator line : List Char) (p : Point) : Prop :=
  (fields separator line).mapM Number.read? = some p.toList

/-- The coordinates with a separator between them. -/
def row (separator : List Char) (p : Point) : List Char :=
  separator.intercalate (p.toList.map Number.text)

variable {p : Point} {separator : List Char}

theorem isFinite_of_mem_toList (hp : p.isFinite = true) : ∀ x ∈ p.toList, x.isFinite = true := by
  obtain ⟨hx, hy, hz⟩ := isFinite_iff.mp hp
  rw [toList, List.forall_mem_cons, List.forall_mem_cons, List.forall_mem_singleton]
  exact ⟨hx, hy, hz⟩

theorem saidBy_row (hseparator : IsSeparator separator) (hp : p.isFinite = true) :
    SaidBy separator (p.row separator) p := by
  have hfinite := isFinite_of_mem_toList hp
  have hfields : fields separator (p.row separator) = p.toList.map Number.text := by
    refine fields_intercalate hseparator.ne_nil (List.cons_ne_nil _ _) fun part hpart => ?_
    obtain ⟨x, hx, rfl⟩ : ∃ x ∈ p.toList, Number.text x = part := List.mem_map.mp hpart
    exact Number.not_mem_separator_of_mem_text (hfinite x hx) hseparator
  rw [SaidBy, hfields, Number.mapM_read?_map_text hfinite]

theorem newline_not_mem_row (hfree : '\n' ∉ separator) (hp : p.isFinite = true) :
    '\n' ∉ p.row separator := by
  obtain ⟨hx, hy, hz⟩ := isFinite_iff.mp hp
  simp [row, toList, List.intercalate_cons_cons, hfree, Number.newline_not_mem_text hx,
    Number.newline_not_mem_text hy, Number.newline_not_mem_text hz]

end Point

section Rows

variable {points : List Point} (hfinite : ∀ p ∈ points, p.isFinite = true) {separator : List Char}
  (hseparator : IsSeparator separator)

include hfinite hseparator

theorem forall₂_saidBy_rows :
    List.Forall₂ (Point.SaidBy separator) (points.map (Point.row separator)) points := by
  rw [List.forall₂_map_left_iff, List.forall₂_same]
  exact fun p hp => Point.saidBy_row hseparator (hfinite p hp)

/-- The lines of a table behind some other lines. -/
theorem splitOn_rows {front : List (List Char)} (hfront : ∀ line ∈ front, '\n' ∉ line) :
    ((front.flatMap fun line => line ++ ['\n']) ++
        (points.map (Point.line separator)).flatten).splitOn '\n' =
      front ++ points.map (Point.row separator) ++ [[]] := by
  have hrows : (points.map (Point.line separator)).flatten =
      (points.map (Point.row separator)).flatMap fun line => line ++ ['\n'] := by
    rw [List.flatMap_map]
    rfl
  rw [hrows, ← List.flatMap_append]
  apply splitOn_flatMap_lines
  rw [List.forall_mem_append, List.forall_mem_map]
  have hfree : '\n' ∉ separator := fun hmem => (hseparator.not_mem _ hmem).2.2.2 rfl
  exact ⟨hfront, fun p hp => Point.newline_not_mem_row hfree (hfinite p hp)⟩

end Rows

/-! ## The header of a polygon file -/

theorem integer?_digits (n : Nat) : Decimal.integer? (digits n) = some (n : Int) := by
  obtain ⟨hne, hdigits⟩ := isDigits_digits n
  have hread : Unsigned false (digits n) _ := .whole (isDigits_digits n)
  have hall : (digits n).all Char.isDigit = true := List.all_eq_true.mpr hdigits
  simp only [Decimal.integer?, hread.takeSign, hne, hall, digitsValue_digits]
  rfl

namespace PointCloud

/-- The number of vertices, if this is what a line of a header gives. -/
def vertexCount? (line : List Char) : Option Int :=
  ("element vertex ".toList.isPrefixOf? line).bind Decimal.integer?

/-- The lines of the header of a polygon file in front of the one that ends it. -/
def headerLines (count : Nat) : List (List Char) :=
  ["ply".toList, "format ascii 1.0".toList, "comment generated by gcodecloud".toList,
    "element vertex ".toList ++ digits count, "property double x".toList,
    "property double y".toList, "property double z".toList]

theorem plyHeader_eq (count : Nat) :
    ((plyHeader count).map String.toList).flatten =
      (headerLines count ++ ["end_header".toList]).flatMap fun line => line ++ ['\n'] := by
  have hcount : (s!"element vertex {count}\n").toList =
      "element vertex ".toList ++ digits count ++ ['\n'] := by
    change ("element vertex " ++ count.repr ++ "\n").toList = _
    rw [String.toList_append, String.toList_append, Nat.toList_repr]
    rfl
  simp only [plyHeader, headerLines, List.map_cons, hcount]
  rfl

theorem newline_not_mem_headerLines (count : Nat) :
    ∀ line ∈ headerLines count ++ ["end_header".toList], '\n' ∉ line := by
  have hdigits : '\n' ∉ digits count := fun hmem =>
    absurd ((isDigits_digits count).2 _ hmem) (by decide)
  simp [headerLines, hdigits]

theorem end_not_mem_headerLines (count : Nat) : "end_header".toList ∉ headerLines count := by
  simp [headerLines]

theorem vertexCount?_headerLines (count : Nat) :
    (headerLines count).filterMap vertexCount? = [(count : Int)] := by
  have hprefix : "element vertex ".toList.isPrefixOf? ("element vertex ".toList ++ digits count) =
      some (digits count) :=
    List.isPrefixOf?_eq_some_iff_append_eq.mpr rfl
  have hcount : vertexCount? ("element vertex ".toList ++ digits count) = some (count : Int) := by
    rw [vertexCount?, hprefix, Option.bind_some, integer?_digits]
  simp only [headerLines, List.filterMap_cons, hcount]
  rfl

/-! ## Reading point files -/

variable {cloud : PointCloud} (hfinite : ∀ p ∈ cloud.points.toList, p.isFinite = true)

include hfinite

/-- The formats without a header are tables. -/
theorem splitOn_render_table {format : PointFormat} {delimiter : String} {separator : List Char}
    (hseparator : IsSeparator separator)
    (hpieces : cloud.pieces format delimiter = cloud.points.toList.map (Point.line separator)) :
    ∃ rows, (cloud.render format delimiter).splitOn '\n' = rows ++ [[]] ∧
      List.Forall₂ (Point.SaidBy separator) rows cloud.points.toList := by
  have hlines := splitOn_rows hfinite hseparator (List.forall_mem_nil _)
  refine ⟨_, ?_, forall₂_saidBy_rows hfinite hseparator⟩
  rw [render, hpieces]
  exact hlines

/-- A polygon file is a table behind a header. -/
theorem splitOn_render_ply (delimiter : String) :
    (cloud.render .ply delimiter).splitOn '\n' =
      headerLines cloud.size ++
        "end_header".toList :: cloud.points.toList.map (Point.row [' ']) ++ [[]] := by
  have hlines := splitOn_rows hfinite isSeparator_space (newline_not_mem_headerLines cloud.size)
  rw [← plyHeader_eq, ← List.flatten_append] at hlines
  rw [render, pieces]
  refine hlines.trans ?_
  rw [List.append_assoc, List.append_assoc, List.append_assoc]
  rfl

/-- What is written of a cloud of finite points can be read back from its lines. In the plain
formats there is one line for each point, in order and ended by a line feed, and nothing else; cut
at the separator it has three fields, which are read as the coordinates of the point, bit for bit.
A polygon file has such lines behind the line that ends its header, and the header gives one number
of vertices, which is the number of these lines. -/
theorem read_back_lines (delimiter : String) :
    let points := cloud.points.toList
    let lines (format : PointFormat) := (cloud.render format delimiter).splitOn '\n'
    (∀ format, Utf8.decode? (cloud.write format delimiter {}).2.taken.toList =
      some (cloud.render format delimiter)) ∧
    (∃ rows, lines .xyz = rows ++ [[]] ∧ List.Forall₂ (Point.SaidBy [' ']) rows points) ∧
    (IsSeparator delimiter.toList →
      ∃ rows, lines .csv = rows ++ [[]] ∧
        List.Forall₂ (Point.SaidBy delimiter.toList) rows points) ∧
    ∃ header rows, lines .ply = header ++ "end_header".toList :: rows ++ [[]] ∧
      "end_header".toList ∉ header ∧ header.filterMap vertexCount? = [(rows.length : Int)] ∧
      List.Forall₂ (Point.SaidBy [' ']) rows points := by
  intro points lines
  refine ⟨fun format => ?_, splitOn_render_table hfinite isSeparator_space rfl,
    fun hseparator => splitOn_render_table hfinite hseparator rfl, ?_⟩
  · rw [write_unlimited]
    exact Utf8.decode?_encode _
  · refine ⟨headerLines cloud.size, _, splitOn_render_ply hfinite delimiter,
      end_not_mem_headerLines cloud.size, ?_, forall₂_saidBy_rows hfinite isSeparator_space⟩
    rw [vertexCount?_headerLines, List.length_map]
    rfl

omit hfinite in
/-- A separator of several characters, one of which may be a sign, tells the least and the largest
doubles and a negative zero apart. -/
theorem read_back_lines_of_extremes :
    let p : Point := ⟨-0.0, Float.ofBits 1, Float.ofBits 0xFFEFFFFFFFFFFFFF⟩
    let q : Point := ⟨0.1, -2.5, 1e22⟩
    let cloud := PointCloud.ofPoints [p, q]
    (∀ r ∈ cloud.points.toList, r.isFinite = true) ∧ IsSeparator "→+".toList ∧
      ∃ rows, (cloud.render .csv "→+").splitOn '\n' = rows ++ [[]] ∧
        List.Forall₂ (Point.SaidBy "→+".toList) rows [p, q] := by
  intro p q cloud
  have hfinite : ∀ r ∈ cloud.points.toList, r.isFinite = true := by decide +kernel
  have hseparator : IsSeparator ['→', '+'] :=
    ⟨List.cons_ne_nil _ _, List.forall_mem_cons.mpr ⟨by decide,
      List.forall_mem_singleton.mpr (by decide)⟩⟩
  exact ⟨hfinite, hseparator, (read_back_lines hfinite "→+").2.2.1 hseparator⟩

end PointCloud

end Toolpath
