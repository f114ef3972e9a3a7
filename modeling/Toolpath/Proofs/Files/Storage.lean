import Toolpath.Files.System
import Toolpath.Proofs.Text.Utf8

/-! # What is written is there

A file that has been written is found again under the path that it was written
to. The walk along the path enters directories only, so it does not pass the
location of the file, and nothing that it does pass has changed.
-/

namespace Toolpath

section Steps

variable {ε δ α β : Type}

/-- A computation in steps succeeds only if each of its steps does. -/
theorem exists_of_bind_eq_ok {x : Except ε α} {next : α → Except ε β} {b : β}
    (h : (x >>= next) = .ok b) : ∃ a, x = .ok a ∧ next a = .ok b := by
  cases x with
  | error failure => cases h
  | ok a => exact ⟨a, rfl, h⟩

theorem mapError_eq_ok {x : Except ε α} {f : ε → δ} {a : α} (h : x.mapError f = .ok a) :
    x = .ok a := by
  cases x with
  | error failure => cases h
  | ok b => exact congrArg Except.ok (Except.ok.inj h)

/-- A computation in steps fails with what the first of its steps to fail does. -/
theorem of_bind_eq_error {x : Except ε α} {next : α → Except ε β} {failure : ε}
    (h : (x >>= next) = .error failure) :
    x = .error failure ∨ ∃ a, x = .ok a ∧ next a = .error failure := by
  cases x with
  | error other =>
      cases h
      exact .inl rfl
  | ok a => exact .inr ⟨a, rfl, h⟩

theorem exists_of_mapError_eq_error {x : Except ε α} {f : ε → δ} {told : δ}
    (h : x.mapError f = .error told) : ∃ failure, x = .error failure ∧ f failure = told := by
  cases x with
  | error failure => exact ⟨failure, rfl, Except.error.inj h⟩
  | ok a => cases h

end Steps

theorem Utf8.decode?_encode (cs : List Char) : Utf8.decode? (Utf8.encode cs) = some cs := by
  rw [Utf8.decode?, Utf8.decode_encode]
  induction cs with
  | nil => rfl
  | cons c cs ih =>
      rw [List.map_cons, List.mapM_cons, ih]
      rfl

namespace FileSystem

open Text

variable {fs after : FileSystem} {location : Location}

theorem ne_nil_of_node?_ne (h : fs.node? location ≠ some .directory) : location ≠ [] := by
  rintro rfl
  exact h rfl

theorem node?_of_enter (h : fs.enter location = .ok ()) :
    fs.node? location = some .directory := by
  unfold enter at h
  split at h
  next => cases h
  next => cases h
  next hnode => exact hnode

theorem enter_put (h : fs.node? location ≠ some .directory) (node : FileNode) {entered : Location}
    (henter : fs.enter entered = .ok ()) : (fs.put location node).enter entered = .ok () := by
  have hdirectory := node?_of_enter henter
  have hne : entered ≠ location := by
    rintro rfl
    exact h hdirectory
  rw [enter, node?_put fs node entered (ne_nil_of_node?_ne h), if_neg hne, hdirectory]

theorem walk_put (h : fs.node? location ≠ some .directory) (node : FileNode)
    {pieces : List (List Char)} {start target : Location}
    (hwalk : fs.walk start pieces = .ok target) :
    (fs.put location node).walk start pieces = .ok target := by
  induction pieces generalizing start with
  | nil => exact hwalk
  | cons piece pieces ih =>
      rw [walk] at hwalk ⊢
      obtain ⟨_, henter, hwalk⟩ := exists_of_bind_eq_ok hwalk
      rw [enter_put h node henter]
      split at hwalk
      next => cases hwalk
      next hshort => exact (if_neg hshort).trans (ih hwalk)

/-- What is put where no directory is does not change where a path leads. -/
theorem locate_put (h : fs.node? location ≠ some .directory) (node : FileNode) {path : String}
    {target : Location} (hlocate : fs.locate path = .ok target) :
    (fs.put location node).locate path = .ok target := by
  obtain ⟨⟨start, pieces⟩, hroute, hwalk⟩ := exists_of_bind_eq_ok hlocate
  have hsame : (fs.put location node).route path = .ok (start, pieces) := hroute
  rw [locate, hsame]
  exact walk_put h node hwalk

/-- A file that is opened for writing is where its path leads to, and no directory is there. -/
theorem exists_of_place_eq_ok {path : String} (h : fs.place path = .ok location) :
    ∃ start pieces, fs.route path = .ok (start, pieces) ∧ namesDirectory path = false ∧
      fs.walk start pieces = .ok location ∧ fs.node? location ≠ some .directory := by
  rw [place] at h
  obtain ⟨⟨start, pieces⟩, hroute, h⟩ := exists_of_bind_eq_ok h
  dsimp only at h
  split at h
  next =>
    obtain ⟨_, -, h⟩ := exists_of_bind_eq_ok h
    obtain ⟨_, -, h⟩ := exists_of_bind_eq_ok h
    cases h
  next hname =>
    obtain ⟨location, hwalk, h⟩ := exists_of_bind_eq_ok h
    split at h
    next => cases h
    next hnode =>
      cases h
      exact ⟨start, pieces, hroute, Bool.eq_false_iff.mpr hname, hwalk, hnode⟩

theorem write_of_place {path : String} (h : fs.place path = .ok location)
    (content : List UInt8) : fs.write path content = .ok (fs.put location (.file content)) := by
  rw [write, h]
  rfl

/-- Writing puts a file at the location that the path leads to, where no directory may be. -/
theorem exists_of_write_eq_ok {path : String} {content : List UInt8}
    (h : fs.write path content = .ok after) :
    ∃ start pieces location, fs.route path = .ok (start, pieces) ∧
      namesDirectory path = false ∧ fs.walk start pieces = .ok location ∧
      fs.node? location ≠ some .directory ∧ after = fs.put location (.file content) := by
  obtain ⟨location, hplace, h⟩ := exists_of_bind_eq_ok h
  obtain ⟨start, pieces, hroute, hname, hwalk, hnode⟩ := exists_of_place_eq_ok hplace
  exact ⟨start, pieces, location, hroute, hname, hwalk, hnode, (Except.ok.inj h).symm⟩

theorem stat_of_write {path : String} {content : List UInt8}
    (h : fs.write path content = .ok after) : after.stat path = .ok (.file content) := by
  obtain ⟨start, pieces, location, hroute, hname, hwalk, hnode, rfl⟩ := exists_of_write_eq_ok h
  have hlocate : (fs.put location (.file content)).locate path = .ok location := by
    apply locate_put hnode
    rw [locate, hroute]
    exact hwalk
  have hfound := node?_put fs (.file content) location (ne_nil_of_node?_ne hnode)
  rw [if_pos rfl] at hfound
  simp only [stat, hlocate, hfound, hname, bind, Except.bind, Bool.false_eq_true, if_false]

/-- A text that has been written is read again. -/
theorem readText_of_write {path : String} {cs : List Char}
    (h : fs.write path (Utf8.encode cs) = .ok after) : after.readText path = .ok cs := by
  have hread : after.read path = .ok (Utf8.encode cs) := by
    rw [read, stat_of_write h]
    rfl
  simp only [readText, hread, Utf8.decode?_encode, bind, Except.bind]

end FileSystem

end Toolpath
