import Mathlib.Data.List.Induction
import Toolpath.CommandLine.Arguments

/-! # What is said on the command line

The command line says some things one after the other: options, with a value or
without, and the path of the input. Each option and the input may be said once,
and a value must be one that can be read. What is given is what the values are
read as, for each option by itself and whatever the order; an option that is not
said is not given.
-/

namespace Toolpath.CommandLine

/-- One thing said on the command line. -/
inductive Item where
  /-- An option without a value. -/
  | flag (option : Opt)
  | setting (option : Opt) (value : String)
  | input (path : String)
  deriving DecidableEq

namespace Item

/-- The values said for an option. -/
def values (option : Opt) (items : List Item) : List String :=
  items.filterMap fun
    | setting other value => if other = option then some value else none
    | _ => none

/-- The inputs said. -/
def inputs (items : List Item) : List String :=
  items.filterMap fun
    | input path => some path
    | _ => none

variable (items rest : List Item)

@[simp]
theorem values_nil (option : Opt) : values option [] = [] := rfl

@[simp]
theorem values_append (option : Opt) :
    values option (items ++ rest) = values option items ++ values option rest :=
  List.filterMap_append

@[simp]
theorem values_flag (option other : Opt) : values option [flag other] = [] := rfl

@[simp]
theorem values_setting_self (option : Opt) (value : String) :
    values option [setting option value] = [value] := by
  simp [values]

@[simp]
theorem values_setting_of_ne {option other : Opt} (h : other ≠ option) (value : String) :
    values option [setting other value] = [] := by
  simp [values, h]

@[simp]
theorem values_input (option : Opt) (path : String) : values option [input path] = [] := rfl

@[simp]
theorem inputs_nil : inputs [] = [] := rfl

@[simp]
theorem inputs_append : inputs (items ++ rest) = inputs items ++ inputs rest :=
  List.filterMap_append

end Item

open Item

/-! ## What comes of what is said -/

/-- What a place holds of the values said for it: nothing if there are none, and what the value is
read as if there is one. -/
inductive Holds {α : Type} (read : String → Option α) : List String → Option α → Prop
  | nothing : Holds read [] none
  | value {s : String} {a : α} (h : read s = some a) : Holds read [s] (some a)

section Places

variable {α : Type} {read : String → Option α} {values : List String} {s : String}
  {place : Option α}

@[simp]
theorem holds_nil_iff : Holds read [] place ↔ place = none :=
  ⟨fun h => by cases h; rfl, fun h => h ▸ .nothing⟩

@[simp]
theorem holds_none_iff : Holds read values none ↔ values = [] :=
  ⟨fun h => by cases h; rfl, fun h => h ▸ .nothing⟩

@[simp]
theorem holds_singleton_iff : Holds read [s] place ↔ ∃ a, read s = some a ∧ place = some a := by
  constructor
  · rintro ⟨h⟩
    exact ⟨_, ‹_›, rfl⟩
  · rintro ⟨a, h, rfl⟩
    exact .value h

/-- A place holds a value only if it is the only one. -/
theorem holds_concat_iff :
    Holds read (values ++ [s]) place ↔ values = [] ∧ Holds read [s] place := by
  cases values with
  | nil => simp
  | cons first values =>
      refine ⟨fun h => ?_, fun h => absurd h.1 (List.cons_ne_nil _ _)⟩
      generalize hsaid : first :: values ++ [s] = said at h
      cases h with
      | nothing => cases hsaid
      | value _ => simp at hsaid

/-- A value is stored in a free place, if it can be read. -/
theorem store?_eq_some_iff {value : Option α} {stored : Option α} :
    store? place value = some stored ↔ place = none ∧ ∃ a, value = some a ∧ stored = some a := by
  rw [store?]
  cases place with
  | none => simp [eq_comm]
  | some a => simp

end Places

namespace Given

/-- How often an option without a value is said. -/
def Raises (given : Given) : Opt → Nat → Prop
  | .json => (given.json.toNat = ·)
  | .noRound => (given.noRound.toNat = ·)
  | _ => (0 = ·)

/-- Which values are said for an option, and what is given by them. -/
def Records (given : Given) : Opt → List String → Prop
  | .config => (Holds readPath? · given.config)
  | .output => (Holds readPath? · given.output)
  | .format => (Holds (fun s => (PointFormat.read s).toOption) · given.format)
  | .mode => (Holds (fun s => (DecodeMode.read s).toOption) · given.mode)
  | .step => (Holds (fun s => Number.read? s.toList) · given.step)
  | .decimals => (Holds (readNat? true Number.fits32) · given.decimals)
  | .maxPoints => (Holds (readNat? false Number.fits64) · given.maxPoints)
  | _ => (· = [])

/-- What is given for an option is what the command line says of it. -/
@[mk_iff saysOf_iff]
structure SaysOf (given : Given) (items : List Item) (option : Opt) : Prop where
  flags : given.Raises option (items.count (.flag option))
  values : given.Records option (values option items)

/-- What is given is what the command line says, for each option and for the input. -/
@[mk_iff says_iff]
structure Says (given : Given) (items : List Item) : Prop where
  options : ∀ option, given.SaysOf items option
  input : Holds readPath? (inputs items) given.input

/-- What is given without an option. -/
def without (given : Given) : Opt → Given
  | .json => { given with json := false }
  | .config => { given with config := none }
  | .output => { given with output := none }
  | .format => { given with format := none }
  | .mode => { given with mode := none }
  | .step => { given with step := none }
  | .decimals => { given with decimals := none }
  | .noRound => { given with noRound := false }
  | .maxPoints => { given with maxPoints := none }
  | .help | .version => given

variable {given after : Given} {option other : Opt} {n : Nat} {said : List String} {s : String}

@[simp]
theorem raises_without_self : (given.without option).Raises option n ↔ n = 0 := by
  cases option <;> exact eq_comm

theorem raises_without_of_ne (h : other ≠ option) :
    (given.without option).Raises other n ↔ given.Raises other n := by
  cases option <;> cases other <;> simp_all [Raises, without]

@[simp]
theorem records_without_self : (given.without option).Records option said ↔ said = [] := by
  cases option <;> simp [Records, without]

theorem records_without_of_ne (h : other ≠ option) :
    (given.without option).Records other said ↔ given.Records other said := by
  cases option <;> cases other <;> simp_all [Records, without]

@[simp]
theorem input_without : (given.without option).input = given.input := by
  cases option <;> rfl

/-- An option without a value is said once at most. -/
theorem raises_succ_iff : given.Raises option (n + 1) ↔ n = 0 ∧ given.Raises option 1 := by
  have hjson := given.json.toNat_le
  have hnoRound := given.noRound.toNat_le
  cases option <;> simp only [Raises] <;> omega

/-- A value is said once at most for each option. -/
theorem records_concat_iff :
    given.Records option (said ++ [s]) ↔ said = [] ∧ given.Records option [s] := by
  cases option <;> simp [Records, holds_concat_iff]

/-- An option that is said without a value has none. -/
theorem records_iff_of_raises (h : given.Raises option 1) :
    given.Records option said ↔ said = [] := by
  cases option <;> simp_all [Raises, Records]

/-- An option that is said with a value is not said without one. -/
theorem raises_iff_of_records (h : given.Records option [s]) : given.Raises option n ↔ n = 0 := by
  cases option <;> simp_all [Raises, Records, eq_comm]

/-! ## One thing after the other -/

/-- What is given with one more thing said, if it may be said. -/
def take? (given : Given) : Item → Option Given
  | .flag option => given.flag? option
  | .setting option value => given.value? option value
  | .input path => given.input? path

/-- What is given once some more things have been said. -/
def takeAll? (given : Given) (items : List Item) : Option Given :=
  items.foldlM take? given

@[simp]
theorem takeAll?_nil : given.takeAll? [] = some given := rfl

@[simp]
theorem takeAll?_cons (item : Item) (items : List Item) :
    given.takeAll? (item :: items) = (given.take? item).bind (takeAll? · items) := rfl

theorem takeAll?_append (items rest : List Item) :
    given.takeAll? (items ++ rest) = (given.takeAll? items).bind (takeAll? · rest) :=
  List.foldlM_append

theorem flag?_eq_some_iff :
    given.flag? option = some after ↔ given = after.without option ∧ after.Raises option 1 := by
  rcases given with ⟨json, config, output, format, mode, step, decimals, noRound, maxPoints, input⟩
  rcases after with ⟨json', config', output', format', mode', step', decimals', noRound',
    maxPoints', input'⟩
  cases option <;> simp [flag?, without, Raises, Bool.toNat_eq_one] <;> grind

theorem value?_eq_some_iff :
    given.value? option s = some after ↔
      given = after.without option ∧ after.Records option [s] := by
  rcases given with ⟨json, config, output, format, mode, step, decimals, noRound, maxPoints, input⟩
  rcases after with ⟨json', config', output', format', mode', step', decimals', noRound',
    maxPoints', input'⟩
  cases option <;> simp [value?, without, Records, store?_eq_some_iff] <;> grind

theorem input?_eq_some_iff {path : String} :
    given.input? path = some after ↔
      given = { after with input := none } ∧ Holds readPath? [path] after.input := by
  simp only [input?, Option.map_eq_some_iff, store?_eq_some_iff, holds_singleton_iff]
  constructor
  · rintro ⟨_, ⟨hfree, a, hread, rfl⟩, rfl⟩
    exact ⟨by rw [← hfree], a, hread, rfl⟩
  · rintro ⟨rfl, a, hread, hinput⟩
    exact ⟨_, ⟨rfl, a, hread, rfl⟩, by rw [← hinput]⟩

section Steps

variable {items : List Item} {item : Item}

/-- Nothing is given where nothing is said. -/
theorem says_nil_iff : given.Says [] ↔ given = {} := by
  constructor
  · rintro ⟨hoptions, hinput⟩
    have hflag (option : Opt) : given.Raises option 0 := (hoptions option).flags
    have hnone (option : Opt) : given.Records option [] := (hoptions option).values
    rcases given with
      ⟨json, config, output, format, mode, step, decimals, noRound, maxPoints, input⟩
    have hjson : json = false := by simpa [Raises] using hflag .json
    have hnoRound : noRound = false := by simpa [Raises] using hflag .noRound
    obtain rfl := holds_nil_iff.mp (hnone .config)
    obtain rfl := holds_nil_iff.mp (hnone .output)
    obtain rfl := holds_nil_iff.mp (hnone .format)
    obtain rfl := holds_nil_iff.mp (hnone .mode)
    obtain rfl := holds_nil_iff.mp (hnone .step)
    obtain rfl := holds_nil_iff.mp (hnone .decimals)
    obtain rfl := holds_nil_iff.mp (hnone .maxPoints)
    obtain rfl := holds_nil_iff.mp hinput
    rw [hjson, hnoRound]
  · rintro rfl
    refine ⟨fun option => ⟨?_, ?_⟩, .nothing⟩
    · cases option <;> rfl
    · cases option <;> simp [Records]

/-- With one more thing said of an option, nothing has been said of it before, and what is given
for the others is given without it. -/
theorem says_concat_iff {P : Prop}
    (hother : ∀ other, other ≠ option →
      (after.SaysOf (items ++ [item]) other ↔ after.SaysOf items other))
    (hself : after.SaysOf (items ++ [item]) option ↔
      (items.count (.flag option) = 0 ∧ values option items = []) ∧ P)
    (hinputs : inputs [item] = []) :
    after.Says (items ++ [item]) ↔ (after.without option).Says items ∧ P := by
  have hwithout {other : Opt} (h : other ≠ option) :
      (after.without option).SaysOf items other ↔ after.SaysOf items other := by
    rw [saysOf_iff, saysOf_iff, raises_without_of_ne h, records_without_of_ne h]
  have hnothing : (after.without option).SaysOf items option ↔
      items.count (.flag option) = 0 ∧ values option items = [] := by
    rw [saysOf_iff, raises_without_self, records_without_self]
  rw [says_iff, says_iff, inputs_append, hinputs, List.append_nil, input_without]
  constructor
  · rintro ⟨hoptions, hinput⟩
    obtain ⟨hfirst, hP⟩ := hself.mp (hoptions option)
    refine ⟨⟨fun other => ?_, hinput⟩, hP⟩
    by_cases h : other = option
    · rw [h]
      exact hnothing.mpr hfirst
    · exact (hwithout h).mpr ((hother other h).mp (hoptions other))
  · rintro ⟨⟨hoptions, hinput⟩, hP⟩
    refine ⟨fun other => ?_, hinput⟩
    by_cases h : other = option
    · rw [h]
      exact hself.mpr ⟨hnothing.mp (hoptions option), hP⟩
    · exact (hother other h).mpr ((hwithout h).mp (hoptions other))

theorem says_concat_flag_iff :
    after.Says (items ++ [.flag option]) ↔
      (after.without option).Says items ∧ after.Raises option 1 := by
  apply says_concat_iff
  · intro other h
    have hne : Item.flag option ≠ .flag other := fun heq => h (Item.flag.inj heq).symm
    rw [saysOf_iff, saysOf_iff, List.count_append, List.count_singleton, values_append,
      values_flag, List.append_nil]
    simp [hne]
  · rw [saysOf_iff, List.count_append, List.count_singleton_self, raises_succ_iff, values_append,
      values_flag, List.append_nil]
    constructor
    · rintro ⟨⟨hcount, hraised⟩, hvalues⟩
      exact ⟨⟨hcount, (records_iff_of_raises hraised).mp hvalues⟩, hraised⟩
    · rintro ⟨⟨hcount, hvalues⟩, hraised⟩
      exact ⟨⟨hcount, hraised⟩, (records_iff_of_raises hraised).mpr hvalues⟩
  · rfl

theorem says_concat_setting_iff :
    after.Says (items ++ [.setting option s]) ↔
      (after.without option).Says items ∧ after.Records option [s] := by
  have hcount (other : Opt) :
      (items ++ [Item.setting option s]).count (.flag other) = items.count (.flag other) := by
    simp
  apply says_concat_iff
  · intro other h
    rw [saysOf_iff, saysOf_iff, hcount, values_append, values_setting_of_ne h.symm, List.append_nil]
  · rw [saysOf_iff, hcount, values_append, values_setting_self, records_concat_iff]
    constructor
    · rintro ⟨hflags, hvalues, hvalue⟩
      exact ⟨⟨(raises_iff_of_records hvalue).mp hflags, hvalues⟩, hvalue⟩
    · rintro ⟨⟨hflags, hvalues⟩, hvalue⟩
      exact ⟨(raises_iff_of_records hvalue).mpr hflags, hvalues, hvalue⟩
  · rfl

theorem says_concat_input_iff {path : String} :
    after.Says (items ++ [.input path]) ↔
      ({ after with input := none } : Given).Says items ∧ Holds readPath? [path] after.input := by
  have hoptions (option : Opt) : after.SaysOf (items ++ [.input path]) option ↔
      ({ after with input := none } : Given).SaysOf items option := by
    rw [saysOf_iff, saysOf_iff, values_append, values_input, List.append_nil]
    cases option <;> simp [Raises, Records]
  rw [says_iff, says_iff, inputs_append, holds_none_iff]
  simp only [hoptions]
  change _ ∧ Holds readPath? (inputs items ++ [path]) after.input ↔ _
  rw [holds_concat_iff, and_assoc]

/-- What is given after some things have been said one after the other is what they say. -/
theorem says_iff_takeAll? : given.Says items ↔ takeAll? {} items = some given := by
  induction items using List.reverseRecOn generalizing given with
  | nil => rw [says_nil_iff, takeAll?_nil, Option.some.injEq, eq_comm]
  | append_singleton items item ih =>
      have hlast : takeAll? {} (items ++ [item]) = some given ↔
          ∃ before : Given, before.Says items ∧ before.take? item = some given := by
        simp [takeAll?_append, Option.bind_eq_some_iff, ih]
      rw [hlast]
      cases item with
      | flag option => simp [take?, flag?_eq_some_iff, says_concat_flag_iff]
      | setting option value => simp [take?, value?_eq_some_iff, says_concat_setting_iff]
      | input path => simp [take?, input?_eq_some_iff, says_concat_input_iff]

end Steps

end Given

end Toolpath.CommandLine
