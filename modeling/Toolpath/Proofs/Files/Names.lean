import Toolpath.Proofs.Files.Storage
import Toolpath.Proofs.Text.Pieces

/-! # The last name of a path

A path that leads to a file ends in a name. What stands in front of the name
leads to the directory of the file, and another name in its place leads to
another location. With another extension a path gets another name, unless it
has that extension already; so what is written under a path with another
extension leaves the file as it is.
-/

namespace Toolpath

open Text

namespace Path

/-- Whether a text can stand in front of the last piece of a path. -/
def IsFront (front : List Char) : Prop :=
  front = [] ∨ ∃ before, front = before ++ ['/']

/-- Whether a piece of a path is a name: neither empty nor one of the dots that stand for a
directory. -/
structure IsName (name : List Char) : Prop where
  slash_not_mem : '/' ∉ name
  ne_nil : name ≠ []
  ne_here : name ≠ ['.']
  ne_parent : name ≠ ['.', '.']

/-- The steps that the front of a path takes. -/
def steps (front : List Char) : List (List Char) :=
  (front.splitOn '/').filter (· ≠ [])

theorem exists_front (cs : List Char) :
    ∃ front last, cs = front ++ last ∧ IsFront front ∧ '/' ∉ last := by
  by_cases h : '/' ∈ cs
  · obtain ⟨before, last, rfl, hlast⟩ := exists_eq_append_cons_of_mem h
    exact ⟨before ++ ['/'], last, (List.append_cons _ _ _), .inr ⟨before, rfl⟩, hlast⟩
  · exact ⟨[], cs, rfl, .inl rfl, h⟩

section Append

variable {front last : List Char} (hlast : '/' ∉ last)

include hlast

/-- The last piece of a path is its last step. -/
theorem steps_append (hfront : IsFront front) (hne : last ≠ []) :
    steps (front ++ last) = steps front ++ [last] := by
  unfold steps
  rcases hfront with rfl | ⟨before, rfl⟩
  · rw [List.nil_append, List.splitOn_eq_singleton hlast, List.splitOn_nil]
    simp [hne]
  · have hempty : (before ++ ['/']).splitOn '/' = before.splitOn '/' ++ [[]] := by
      rw [List.splitOn_append_cons_self, List.splitOn_nil]
    rw [hempty, List.append_assoc, List.singleton_append, List.splitOn_append_cons_self,
      List.splitOn_eq_singleton hlast]
    simp [hne]

theorem head?_append_eq_slash_iff :
    (front ++ last).head? = some '/' ↔ front.head? = some '/' := by
  cases front with
  | nil =>
      cases last with
      | nil => rfl
      | cons c last =>
          have hc : c ≠ '/' := fun h => hlast (h ▸ List.mem_cons_self)
          simp [hc]
  | cons c front => rfl

end Append

/-! ## Names and extensions -/

/-- A file name with another extension in place of the one it has. -/
def rename (name extension : List Char) : List Char :=
  if (splitName name).2.isSome ∧ (splitName name).1 = ['.'] then ['.', '.']
  else (splitName name).1 ++ '.' :: extension

/-- A name is split at its last dot, or not at all. -/
theorem splitName_eq (name : List Char) :
    splitName name = (name, none) ∨
      ∃ stem last, splitName name = (stem, some last) ∧ name = stem ++ '.' :: last := by
  by_cases h : '.' ∈ name
  · obtain ⟨stem, last, rfl, hlast⟩ := exists_eq_append_cons_of_mem h
    have hpieces : (stem ++ '.' :: last).splitOn '.' = stem.splitOn '.' ++ [last] := by
      rw [List.splitOn_append_cons_self, List.splitOn_eq_singleton hlast]
    rw [splitName, hpieces]
    simp only [List.dropLast_concat, List.intercalate_splitOn, List.getLast?_concat]
    split
    · exact .inl rfl
    · exact .inr ⟨stem, last, rfl, rfl⟩
  · left
    rw [splitName, List.splitOn_eq_singleton h]
    simp

/-- A name that stays the same with another extension had that extension. -/
theorem splitName_of_rename_eq {name extension : List Char} (hname : IsName name)
    (h : rename name extension = name) : (splitName name).2 = some extension := by
  unfold rename at h
  rcases splitName_eq name with hsplit | ⟨stem, last, hsplit, rfl⟩
  · simp [hsplit] at h
  · rw [hsplit] at h ⊢
    split at h
    · exact absurd h.symm hname.ne_parent
    · exact congrArg some (List.cons.inj (List.append_cancel_left h)).2.symm

theorem slash_not_mem_rename {name extension : List Char} (hname : '/' ∉ name)
    (hextension : '/' ∉ extension) : '/' ∉ rename name extension := by
  have hstem : '/' ∉ (splitName name).1 := by
    rcases splitName_eq name with hsplit | ⟨stem, last, hsplit, rfl⟩
    · rwa [hsplit]
    · rw [hsplit]
      exact fun h => hname (List.mem_append_left _ h)
  unfold rename
  split
  · decide
  · simp [hstem, hextension]

theorem rename_ne_nil (name extension : List Char) : rename name extension ≠ [] := by
  unfold rename
  split <;> simp

/-- Nothing is dropped behind a name. -/
theorem dropEnd_append (front : List Char) {name : List Char} (hname : IsName name) :
    dropEnd (front ++ name) = front ++ name := by
  obtain ⟨init, c, rfl⟩ := (List.eq_nil_or_concat name).resolve_left hname.ne_nil
  have hc : c ≠ '/' := fun h => hname.slash_not_mem (by simp [h])
  have hreversed : dropEndReversed (c :: (init.reverse ++ front.reverse)) =
      c :: (init.reverse ++ front.reverse) := by
    unfold dropEndReversed
    split
    next heq => exact absurd (List.cons.inj heq).1 hc
    next heq =>
        -- the dot would be the whole name, or a name would hold a slash
        obtain ⟨rfl, hrest⟩ := List.cons.inj heq
        rcases List.eq_nil_or_concat init with rfl | ⟨init, d, rfl⟩
        · exact absurd rfl hname.ne_here
        · rw [List.concat_eq_append, List.reverse_concat, List.cons_append] at hrest
          exact absurd (by simp [(List.cons.inj hrest).1]) hname.slash_not_mem
    next => rfl
  rw [dropEnd]
  simp [hreversed]

section Name

variable {path : String} {front name : List Char} (hpath : path.toList = front ++ name)
  (hfront : IsFront front) (hname : IsName name)

include hpath hfront hname

theorem fileName?_eq : fileName? path = some name := by
  have hpart (first : Bool) : Part.ofPiece? first name = some (.name name) := by
    rw [Part.ofPiece?, if_neg hname.ne_nil, if_neg hname.ne_here, if_neg hname.ne_parent]
  have hlast : (parts path).getLast? = some (.name name) := by
    rw [parts, hpath]
    rcases hfront with rfl | ⟨before, rfl⟩
    · have hhead : name.head? ≠ some '/' := fun h => hname.slash_not_mem (List.mem_of_mem_head? h)
      rw [List.nil_append, List.splitOn_eq_singleton hname.slash_not_mem]
      simp only [if_neg hhead, hpart]
      rfl
    · obtain ⟨first, pieces, hpieces⟩ :=
        List.exists_cons_of_ne_nil (List.splitOn_ne_nil '/' before)
      rw [List.append_assoc, List.singleton_append, List.splitOn_append_cons_self,
        List.splitOn_eq_singleton hname.slash_not_mem, hpieces]
      simp only [List.cons_append, List.filterMap_append, List.filterMap_cons, hpart,
        List.filterMap_nil]
      split
      · rw [← List.cons_append, List.getLast?_concat]
      · rw [← List.append_assoc, List.getLast?_concat]
  rw [fileName?, hlast]

theorem extension?_eq : extension? path = (splitName name).2.map String.ofList := by
  rw [extension?, fileName?_eq hpath hfront hname]
  rfl

/-- Another extension changes nothing but the name. -/
theorem toList_withExtension (extension : String) :
    (withExtension path extension).toList = front ++ rename name extension.toList := by
  rw [withExtension, fileName?_eq hpath hfront hname, hpath, rename]
  simp only [dropEnd_append front hname, List.length_append, Nat.add_sub_cancel,
    List.take_left']
  split <;> simp

end Name

end Path

namespace FileSystem

variable {fs after : FileSystem} {path : String} {front last : List Char}

/-- Whether every directory lies in a directory. -/
def IsTree (fs : FileSystem) : Prop :=
  ∀ location, fs.node? location = some .directory →
    fs.node? location.dropLast = some .directory

/-- A single file in the directory of the root makes a tree. -/
theorem isTree_of_file (name : String) (content : List UInt8) :
    IsTree { nodes := [([name], .file content)] } := by
  intro location h
  by_cases hroot : location = []
  · rw [hroot]
    rfl
  · rw [node?, if_neg hroot, List.lookup_cons, List.lookup_nil] at h
    split at h <;> cases h

/-- Where the walk along a path with some front starts. -/
def startOf (fs : FileSystem) (front : List Char) : Location :=
  if front.head? = some '/' then [] else fs.current

/-- The last step of a walk is made in the directory that the others lead to. -/
theorem exists_of_walk_append {start target : Location} {pieces : List (List Char)}
    {piece : List Char} (h : fs.walk start (pieces ++ [piece]) = .ok target) :
    ∃ directory, fs.walk start pieces = .ok directory ∧
      fs.node? directory = some .directory ∧ target = step directory piece := by
  induction pieces generalizing start with
  | nil =>
      rw [List.nil_append, walk] at h
      obtain ⟨_, henter, h⟩ := exists_of_bind_eq_ok h
      split at h
      next => cases h
      next => exact ⟨start, rfl, node?_of_enter henter, (Except.ok.inj h).symm⟩
  | cons first pieces ih =>
      rw [List.cons_append, walk] at h
      obtain ⟨_, henter, h⟩ := exists_of_bind_eq_ok h
      split at h
      next => cases h
      next hshort =>
        obtain ⟨directory, hwalk, hdirectory⟩ := ih h
        refine ⟨directory, ?_, hdirectory⟩
        rw [walk, henter]
        exact (if_neg hshort).trans hwalk

theorem step_name {name : List Char} (hname : Path.IsName name) (directory : Location) :
    step directory name = directory ++ [String.ofList name] := by
  rw [step, if_neg hname.ne_here, if_neg hname.ne_parent]

/-- Another piece than a name leads elsewhere. -/
theorem step_ne {name piece : List Char} (hname : Path.IsName name) (hne : piece ≠ name)
    (directory : Location) : step directory name ≠ step directory piece := by
  rw [step_name hname, step]
  intro h
  have hlength := congrArg List.length h
  split at h
  · simp at h
  split at h
  · next hhere hparent =>
    rw [if_neg hhere, if_pos hparent, List.length_append, List.length_dropLast,
      List.length_singleton] at hlength
    omega
  · exact hne (String.ofList_injective (List.cons.inj (List.append_cancel_left h)).1).symm

/-- The walk along a path ends with its last piece. -/
theorem route_eq_ok {start : Location} {pieces : List (List Char)}
    (hpath : path.toList = front ++ last) (hfront : Path.IsFront front) (hlast : '/' ∉ last)
    (hne : last ≠ []) (h : fs.route path = .ok (start, pieces)) :
    start = fs.startOf front ∧ pieces = Path.steps front ++ [last] := by
  rw [route, hpath] at h
  simp only [Path.head?_append_eq_slash_iff hlast] at h
  split at h
  · cases h
  split at h
  · cases h
  split at h
  · cases h
  obtain ⟨rfl, rfl⟩ := Prod.mk.inj (Except.ok.inj h)
  exact ⟨rfl, Path.steps_append hlast hfront hne⟩

/-- Whether a path is a front that leads to a directory, and a name in it. -/
structure LeadsTo (fs : FileSystem) (path : String) (front name : List Char)
    (directory : Location) : Prop where
  toList_eq : path.toList = front ++ name
  isFront : Path.IsFront front
  isName : Path.IsName name
  walk_eq : fs.walk (fs.startOf front) (Path.steps front) = .ok directory
  isDirectory : fs.node? directory = some .directory
  locate_eq : fs.locate path = .ok (step directory name)

/-- A path to a file ends in the name of the file. -/
theorem exists_of_stat_eq_file {content : List UInt8} (htree : fs.IsTree)
    (h : fs.stat path = .ok (.file content)) :
    ∃ front name directory, fs.LeadsTo path front name directory := by
  rw [stat] at h
  obtain ⟨location, hlocate, h⟩ := exists_of_bind_eq_ok h
  have hnode : fs.node? location ≠ some .directory := by
    intro hnode
    rw [hnode] at h
    cases h
  have hfinal : namesDirectory path = false := by
    split at h
    · cases h
    · cases h
    · split at h
      · cases h
      · next hfinal => exact Bool.eq_false_iff.mpr hfinal
  obtain ⟨front, last, hpath, hfront, hslash⟩ := Path.exists_front path.toList
  obtain ⟨⟨start, pieces⟩, hroute, hwhole⟩ := exists_of_bind_eq_ok hlocate
  have hne : last ≠ [] := by
    rintro rfl
    rw [List.append_nil] at hpath
    rcases hfront with rfl | ⟨before, rfl⟩
    · simp [route, hpath] at hroute
    · simp [namesDirectory, hpath] at hfinal
  obtain ⟨rfl, rfl⟩ := route_eq_ok hpath hfront hslash hne hroute
  obtain ⟨directory, hwalk, hdirectory, rfl⟩ := exists_of_walk_append hwhole
  refine ⟨front, last, directory, hpath, hfront, ⟨hslash, hne, ?_, ?_⟩, hwalk, hdirectory,
    hlocate⟩
  · rintro rfl
    exact hnode hdirectory
  · rintro rfl
    exact hnode (htree directory hdirectory)

/-- What is put elsewhere does not change what a path leads to. -/
theorem stat_put_of_ne {location target : Location} (hnode : fs.node? location ≠ some .directory)
    (hlocate : fs.locate path = .ok target) (hne : target ≠ location) (node : FileNode) :
    (fs.put location node).stat path = fs.stat path := by
  rw [stat, stat, locate_put hnode node hlocate, hlocate]
  simp only [bind, Except.bind, node?_put fs node target (ne_nil_of_node?_ne hnode), if_neg hne]

/-- Under a path with another extension, something is written in the same directory. -/
theorem write_withExtension_eq_ok {name : List Char} {directory : Location} {extension : String}
    {new : List UInt8} (hslash : '/' ∉ extension.toList)
    (hleads : fs.LeadsTo path front name directory)
    (hwrite : fs.write (Path.withExtension path extension) new = .ok after) :
    fs.node? (step directory (Path.rename name extension.toList)) ≠ some .directory ∧
      after = fs.put (step directory (Path.rename name extension.toList)) (.file new) := by
  obtain ⟨start, pieces, location, hroute, -, hwalk, hnode, rfl⟩ := exists_of_write_eq_ok hwrite
  have hpath := Path.toList_withExtension hleads.toList_eq hleads.isFront hleads.isName extension
  obtain ⟨rfl, rfl⟩ := route_eq_ok hpath hleads.isFront
    (Path.slash_not_mem_rename hleads.isName.slash_not_mem hslash)
    (Path.rename_ne_nil _ _) hroute
  obtain ⟨found, hfound, -, rfl⟩ := exists_of_walk_append hwalk
  rw [hleads.walk_eq] at hfound
  cases hfound
  exact ⟨hnode, rfl⟩

section Source

variable {extension : String} {content new : List UInt8} (htree : fs.IsTree)
  (hslash : '/' ∉ extension.toList) (hfile : fs.stat path = .ok (.file content))
  (hwrite : fs.write (Path.withExtension path extension) new = .ok after)

include htree hslash hfile hwrite

/-- A file stays as it is when something is written under its path with another extension. -/
theorem stat_of_write_withExtension (hne : Path.extension? path ≠ some extension) :
    after.stat path = fs.stat path := by
  obtain ⟨front, name, directory, hleads⟩ := exists_of_stat_eq_file htree hfile
  obtain ⟨hnode, rfl⟩ := write_withExtension_eq_ok hslash hleads hwrite
  have hrename : Path.rename name extension.toList ≠ name := by
    intro hrename
    apply hne
    rw [Path.extension?_eq hleads.toList_eq hleads.isFront hleads.isName,
      Path.splitName_of_rename_eq hleads.isName hrename, Option.map_some, String.ofList_toList]
  exact stat_put_of_ne hnode hleads.locate_eq (step_ne hleads.isName hrename directory) _

/-- A file is replaced by what is written under its path with the extension that it has. -/
theorem stat_of_write_withExtension_self (heq : Path.extension? path = some extension) :
    after.stat path = .ok (.file new) := by
  obtain ⟨front, name, directory, hleads⟩ := exists_of_stat_eq_file htree hfile
  obtain ⟨hnode, -⟩ := write_withExtension_eq_ok hslash hleads hwrite
  rw [Path.extension?_eq hleads.toList_eq hleads.isFront hleads.isName] at heq
  have hrename : Path.rename name extension.toList = name := by
    rcases Path.splitName_eq name with hsplit | ⟨stem, last, hsplit, rfl⟩
    · rw [hsplit] at heq
      cases heq
    · rw [hsplit, Option.map_some, Option.some.injEq] at heq
      subst heq
      rw [String.toList_ofList, Path.rename, hsplit] at hnode ⊢
      split at hnode
      · exact absurd (htree directory hleads.isDirectory) hnode
      · next hstem => exact if_neg hstem
  have hpath : Path.withExtension path extension = path := by
    apply String.toList_injective
    rw [Path.toList_withExtension hleads.toList_eq hleads.isFront hleads.isName, hrename,
      hleads.toList_eq]
  rw [hpath] at hwrite
  exact stat_of_write hwrite

end Source

end FileSystem

end Toolpath
