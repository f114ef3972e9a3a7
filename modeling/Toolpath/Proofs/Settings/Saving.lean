import Toolpath.Proofs.Files.Directories
import Toolpath.Settings.Storage

/-! # What saving changes

Settings are saved in two parts. Everything that can be found out without the
file system comes first, and an error there leaves the file system as it is.
Then the directories are made that the file is to lie in, and the file is
written. If this fails there may be new directories, but what was there before
is there as it was.
-/

namespace Toolpath

/-- Whether the error is found without looking at the file system: in the settings, in the name of
the file, or when the document is made. -/
def SettingsError.isChecked : SettingsError → Bool
  | config _ | json | toml | tomlInteger => true
  | load .. | save .. | io _ => false

namespace Config

variable {config : Config} {fs : FileSystem} {path : String}

/-- The text for the file, once everything has been checked that can be checked beforehand. -/
def prepare (config : Config) (path : String) : Except SettingsError String := do
  config.validate.mapError .config
  render (← (SettingsFormat.ofPath path).mapError .config) config

/-- The file system with the directory for a file, as far as it can be made. -/
def makeParent (fs : FileSystem) (path : String) : Except IoFailure Unit × FileSystem :=
  match directoryOf? path with
  | none => (.ok (), fs)
  | some directory => fs.makeDirectories directory

/-- The ways that saving ends, with the file system that it leaves. -/
inductive Saves (config : Config) (fs : FileSystem) (path : String) :
    Except SettingsError Unit × FileSystem → Prop
  | refused {error : SettingsError} (hprepare : config.prepare path = .error error) :
      Saves config fs path (.error error, fs)
  | undirected {content : String} {failure : IoFailure}
      (hprepare : config.prepare path = .ok content)
      (hmade : (makeParent fs path).1 = .error failure) :
      Saves config fs path (.error (.io failure), (makeParent fs path).2)
  | unwritten {content : String} {failure : IoFailure}
      (hprepare : config.prepare path = .ok content) (hmade : (makeParent fs path).1 = .ok ())
      (hwrite : (makeParent fs path).2.write path (Utf8.encode content.toList) = .error failure) :
      Saves config fs path (.error (.save path failure), (makeParent fs path).2)
  | saved {content : String} {after : FileSystem}
      (hprepare : config.prepare path = .ok content) (hmade : (makeParent fs path).1 = .ok ())
      (hwrite : (makeParent fs path).2.write path (Utf8.encode content.toList) = .ok after) :
      Saves config fs path (.ok (), after)

theorem saves_save (config : Config) (fs : FileSystem) (path : String) :
    Saves config fs path (config.save fs path) := by
  unfold save
  dsimp only
  split
  next hprepare => exact .refused hprepare
  next hprepare =>
    split
    next hmade => exact .undirected hprepare hmade
    next hmade =>
      split
      next hwrite => exact .saved hprepare hmade hwrite
      next hwrite => exact .unwritten hprepare hmade hwrite

/-- Whatever keeps the text from being there is found without looking at the file system. -/
theorem isChecked_of_prepare {error : SettingsError} (h : config.prepare path = .error error) :
    error.isChecked = true := by
  rcases of_bind_eq_error h with hvalidate | ⟨_, -, h⟩
  · obtain ⟨_, -, rfl⟩ := exists_of_mapError_eq_error hvalidate
    rfl
  rcases of_bind_eq_error h with hformat | ⟨format, -, hrender⟩
  · obtain ⟨_, -, rfl⟩ := exists_of_mapError_eq_error hformat
    rfl
  cases format with
  | json => cases hrender
  | toml =>
      rw [render] at hrender
      cases hprint : Toml.print? config.toData with
      | none =>
          rw [hprint] at hrender
          cases hrender
          rfl
      | some content =>
          rw [hprint] at hrender
          cases hrender

theorem grown_makeParent (fs : FileSystem) (path : String) :
    fs.Grown (Path.LiesIn path) (makeParent fs path).2 := by
  unfold makeParent
  split
  next => exact .refl _ fs
  next directory hdirectory =>
    have hparent : Path.parent? path = some directory :=
      (Option.filter_eq_some_iff.mp hdirectory).1
    exact (fs.grown_makeDirectoriesUpTo _ directory).mono fun _ => Relation.TransGen.head' hparent

/-- Once the text is there, no error comes of what can be checked beforehand. -/
theorem checked_of_prepared {content : String} (hprepare : config.prepare path = .ok content)
    {result : Except SettingsError Unit} {after : FileSystem}
    (hlate : ∀ error, result = .error error → error.isChecked = false) (error : SettingsError) :
    (result = .error error ∧ error.isChecked = true ↔ config.prepare path = .error error) ∧
      (result = .error error → error.isChecked = true → after = fs) := by
  have hresult : result = .error error → error.isChecked ≠ true :=
    fun h => Bool.eq_false_iff.mp (hlate error h)
  rw [hprepare]
  exact ⟨iff_of_false (fun h => hresult h.1 h.2) nofun,
    fun h hchecked => absurd hchecked (hresult h)⟩

/-- Saving finds the errors that it can find beforehand in every file system alike, and leaves the
file system exactly as it is when it finds one. When it fails later, there may be new directories on
the way to the file, where nothing was, but no file has another content than before; here a write
that fails has not begun. When it succeeds, the file has the text of the settings, and all else that
has changed is that directories are there on the way to the file where nothing was. -/
theorem save_confined (config : Config) (fs : FileSystem) (path : String) :
    let result := (config.save fs path).1
    let after := (config.save fs path).2
    (∀ error,
      (result = .error error ∧ error.isChecked = true ↔ config.prepare path = .error error) ∧
      (result = .error error → error.isChecked = true → after = fs)) ∧
    (∀ error, result = .error error →
      fs.Grown (Path.LiesIn path) after ∧
      ∀ location content, fs.node? location = some (.file content) →
        after.node? location = some (.file content)) ∧
    (result = .ok () → ∃ content target, config.prepare path = .ok content ∧
      after.current = fs.current ∧ after.locate path = .ok target ∧
      fs.node? target ≠ some .directory ∧
      after.node? target = some (.file (Utf8.encode content.toList)) ∧
      ∀ location, location ≠ target →
        after.node? location = fs.node? location ∨
        (fs.node? location = none ∧ after.node? location = some .directory ∧
          ∃ directory, Path.LiesIn path directory ∧ after.locate directory = .ok location)) := by
  intro result after
  have hsaves := saves_save config fs path
  have hgrown := grown_makeParent fs path
  have hpair : config.save fs path = (result, after) := rfl
  rw [hpair] at hsaves
  clear_value result after
  cases hsaves with
  | refused hprepare =>
      have hsame := FileSystem.Grown.refl (Path.LiesIn path) fs
      refine ⟨fun error => ⟨?_, fun _ _ => rfl⟩, fun _ _ => ⟨hsame, fun _ _ h => h⟩, nofun⟩
      rw [hprepare, Except.error.injEq, Except.error.injEq]
      exact and_iff_left_of_imp fun heq => heq ▸ isChecked_of_prepare hprepare
  | undirected hprepare hmade =>
      exact ⟨checked_of_prepared hprepare fun _ heq => Except.error.inj heq ▸ rfl,
        fun _ _ => ⟨hgrown, fun _ _ => hgrown.node?_eq_some⟩, nofun⟩
  | unwritten hprepare hmade hwrite =>
      exact ⟨checked_of_prepared hprepare fun _ heq => Except.error.inj heq ▸ rfl,
        fun _ _ => ⟨hgrown, fun _ _ => hgrown.node?_eq_some⟩, nofun⟩
  | saved hprepare hmade hwrite =>
      obtain ⟨target, hwritten⟩ := hgrown.exists_of_write hwrite
      exact ⟨checked_of_prepared hprepare nofun, nofun,
        fun _ => ⟨_, target, hprepare, hwritten⟩⟩

end Config

end Toolpath
