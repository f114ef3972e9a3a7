import Mathlib.Logic.Relation
import Toolpath.Proofs.Files.Storage

/-! # Directories that are made

Making a directory, and those that it lies in, adds directories where nothing
was, each at the place that one of these paths leads to, and changes nothing
else. This holds also of an attempt that fails half-way.
-/

namespace Toolpath

/-- The directories that a path lies in: its parent, the parent of that, and so on. -/
def Path.LiesIn : String → String → Prop :=
  Relation.TransGen fun path directory => parent? path = some directory

namespace FileSystem

variable {fs between after : FileSystem} {paths more : String → Prop} {location : Location}
  {path : String}

/-- Nothing has changed but that there are directories where nothing was, and some of the paths
lead to each of them. -/
structure Grown (paths : String → Prop) (fs after : FileSystem) : Prop where
  current : after.current = fs.current
  node? : ∀ location, after.node? location = fs.node? location ∨
    (fs.node? location = none ∧ after.node? location = some .directory ∧
      ∃ path, paths path ∧ after.locate path = .ok location)

theorem Grown.refl (paths : String → Prop) (fs : FileSystem) : Grown paths fs fs where
  current := rfl
  node? _ := .inl rfl

theorem Grown.mono (h : Grown paths fs after) (hpaths : ∀ path, paths path → more path) :
    Grown more fs after where
  current := h.current
  node? location := (h.node? location).imp_right fun ⟨hnone, hmade, path, hpath, hlocate⟩ =>
    ⟨hnone, hmade, path, hpaths path hpath, hlocate⟩

/-- What was there stays as it was. -/
theorem Grown.node?_eq_some (h : Grown paths fs after) {node : FileNode}
    (hnode : fs.node? location = some node) : after.node? location = some node := by
  rcases h.node? location with hsame | ⟨hnone, -⟩
  · rw [hsame, hnode]
  · rw [hnone] at hnode
    cases hnode

theorem Grown.walk (h : Grown paths fs after) {pieces : List (List Char)} {start : Location}
    (hwalk : fs.walk start pieces = .ok location) : after.walk start pieces = .ok location := by
  induction pieces generalizing start with
  | nil => exact hwalk
  | cons piece pieces ih =>
      rw [FileSystem.walk] at hwalk ⊢
      obtain ⟨_, henter, hwalk⟩ := exists_of_bind_eq_ok hwalk
      have hentered : after.enter start = .ok () := by
        rw [enter, h.node?_eq_some (node?_of_enter henter)]
      rw [hentered]
      split at hwalk
      next => cases hwalk
      next hshort => exact (if_neg hshort).trans (ih hwalk)

/-- A path leads where it led, since directories stay. -/
theorem Grown.locate (h : Grown paths fs after) (hlocate : fs.locate path = .ok location) :
    after.locate path = .ok location := by
  obtain ⟨⟨start, pieces⟩, hroute, hwalk⟩ := exists_of_bind_eq_ok hlocate
  have hsame : after.route path = .ok (start, pieces) := by
    rw [route, h.current]
    exact hroute
  rw [FileSystem.locate, hsame]
  exact h.walk hwalk

theorem Grown.trans (hfirst : Grown paths fs between) (hsecond : Grown paths between after) :
    Grown paths fs after where
  current := hsecond.current.trans hfirst.current
  node? location := by
    rcases hfirst.node? location with hsame | ⟨hnone, hmade, path, hpath, hlocate⟩
    · rw [← hsame]
      exact hsecond.node? location
    · exact .inr ⟨hnone, hsecond.node?_eq_some hmade, path, hpath, hsecond.locate hlocate⟩

/-- A file that is written where directories have been made is the only other thing that is new. -/
theorem Grown.exists_of_write (h : Grown paths fs between) {content : List UInt8}
    (hwrite : between.write path content = .ok after) :
    ∃ target, after.current = fs.current ∧ after.locate path = .ok target ∧
      fs.node? target ≠ some .directory ∧ after.node? target = some (.file content) ∧
      ∀ location, location ≠ target →
        after.node? location = fs.node? location ∨
        (fs.node? location = none ∧ after.node? location = some .directory ∧
          ∃ path, paths path ∧ after.locate path = .ok location) := by
  obtain ⟨start, pieces, target, hroute, -, hwalk, hnode, rfl⟩ := exists_of_write_eq_ok hwrite
  have hlocate : between.locate path = .ok target := by
    rw [FileSystem.locate, hroute]
    exact hwalk
  have hput (other : Location) :=
    node?_put between (.file content) other (ne_nil_of_node?_ne hnode)
  refine ⟨target, h.current, locate_put hnode _ hlocate, fun hdirectory => ?_, ?_,
    fun other hother => ?_⟩
  · exact hnode (h.node?_eq_some hdirectory)
  · rw [hput, if_pos rfl]
  · rw [hput, if_neg hother]
    refine (h.node? other).imp_right ?_
    rintro ⟨hnone, hmade, path, hpath, hother⟩
    exact ⟨hnone, hmade, path, hpath, locate_put hnode _ hother⟩

theorem grown_of_makeDirectory (h : fs.makeDirectory path = .ok after) :
    Grown (· = path) fs after := by
  rw [makeDirectory] at h
  obtain ⟨target, hlocate, h⟩ := exists_of_bind_eq_ok h
  split at h
  next => cases h
  next hfree =>
    obtain rfl := Except.ok.inj h
    have hnone : fs.node? target = none := Option.not_isSome_iff_eq_none.mp hfree
    have hplace : fs.node? target ≠ some .directory := by
      rw [hnone]
      exact nofun
    refine ⟨rfl, fun other => ?_⟩
    rw [node?_put fs .directory other (ne_nil_of_node?_ne hplace)]
    split
    next heq =>
      subst heq
      exact .inr ⟨hnone, rfl, path, rfl, locate_put hplace .directory hlocate⟩
    next => exact .inl rfl

/-- Making a directory and those that it lies in makes no others. -/
theorem grown_makeDirectoriesUpTo (count : Nat) (fs : FileSystem) (path : String) :
    Grown (Relation.ReflTransGen (fun path directory => Path.parent? path = some directory) path)
      fs (makeDirectoriesUpTo count fs path).2 := by
  -- The last attempt on the path itself comes after that on its parent, if there is one.
  have hself {fs after : FileSystem} {path : String} (hmade : fs.makeDirectory path = .ok after) :
      Grown (Relation.ReflTransGen (fun path directory => Path.parent? path = some directory) path)
        fs after :=
    (grown_of_makeDirectory hmade).mono fun _ heq => heq ▸ .refl
  induction count generalizing fs path with
  | zero => exact .refl _ fs
  | succ count ih =>
      unfold makeDirectoriesUpTo
      split
      next => exact .refl _ fs
      next =>
        split
        next =>
          split
          next => exact .refl _ fs
          next parent hparent =>
            have habove := (ih fs parent).mono fun _ => Relation.ReflTransGen.head hparent
            split
            next hmade =>
              rw [hmade] at habove
              exact habove
            next after hmade =>
              rw [hmade] at habove
              refine habove.trans ?_
              dsimp only
              split
              next hmade => exact hself hmade
              next => exact .refl _ after
        next =>
          dsimp only
          split
          next hmade => exact hself hmade
          next => exact .refl _ fs

end FileSystem

end Toolpath
