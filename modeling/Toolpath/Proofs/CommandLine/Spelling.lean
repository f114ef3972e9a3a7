import Toolpath.Proofs.CommandLine.Items
import Toolpath.Proofs.CommandLine.Naming

/-! # How things are said on the command line

A value that is not attached to its option is the argument behind it. The
arguments ask for a run if they spell options in front of a command, and behind
it options and one input in any order, each of them once at most. What is read
of the arguments is exactly what they spell.
-/

namespace Toolpath.CommandLine

open Item

/-- The arguments that say one thing where the given options are understood. -/
inductive Spells (options : List Opt) : Item → List String → Prop
  | flag {option : Opt} {argument : String} (h : Names options option none argument)
      (htakes : option.takesValue = false) : Spells options (.flag option) [argument]
  | attached {option : Opt} {value argument : String}
      (h : Names options option (some value) argument) (htakes : option.takesValue = true) :
      Spells options (.setting option value) [argument]
  /-- An argument that begins with a dash is not the value of the option in front of it. -/
  | separate {option : Opt} {value argument : String} (h : Names options option none argument)
      (htakes : option.takesValue = true) (hvalue : isValue value = true) :
      Spells options (.setting option value) [argument, value]
  | input {path : String} (h : isValue path = true) : Spells options (.input path) [path]

/-- The arguments that say some things one after the other. -/
inductive SpellsAll (options : List Opt) : List Item → List String → Prop
  | nil : SpellsAll options [] []
  | cons {item : Item} {items : List Item} {front rest : List String} (h : Spells options item front)
      (hrest : SpellsAll options items rest) : SpellsAll options (item :: items) (front ++ rest)

/-- The arguments that say some things behind a command. Two dashes end the options, and all that
is behind them is input. -/
inductive SpellsBehind (options : List Opt) : List Item → List String → Prop
  | all {items : List Item} {arguments : List String} (h : SpellsAll options items arguments) :
      SpellsBehind options items arguments
  | ended {items : List Item} {front : List String} (h : SpellsAll options items front)
      (paths : List String) :
      SpellsBehind options (items ++ paths.map .input) (front ++ "--" :: paths)

/-- The arguments that ask for a run, and what they ask for. -/
inductive Asks : List String → Invocation → Prop
  | intro {leading given : Given} {front behind : List String} {leadingItems items : List Item}
      {name input : String} {command : Command}
      (hfront : SpellsAll leadingOptions leadingItems front) (hnone : inputs leadingItems = [])
      (hleading : leading.Says leadingItems) (hname : Command.ofName? name = some command)
      (hbehind : SpellsBehind command.options items behind) (hgiven : given.Says items)
      (hinput : given.input = some input)
      (hrounding : given.decimals = none ∨ given.noRound = false) :
      Asks (front ++ name :: behind)
        { json := leading.json || given.json
          config := given.config.or leading.config
          command, given, input }

section Scanning

variable {options : List Opt} {plain : Given → List String → Request} {given after : Given}
  {invocation : Invocation}

/-- Whether arguments begin with what is no option, if there are any. -/
def LeavesOff (rest : List String) : Prop :=
  ∀ argument ∈ rest.head?, isValue argument = true ∨ argument = "--"

theorem leavesOff_cons {argument : String} (h : isValue argument = true ∨ argument = "--")
    (rest : List String) : LeavesOff (argument :: rest) := by
  rintro _ ⟨⟩
  exact h

theorem scan_of_leavesOff {rest : List String} (h : LeavesOff rest) :
    scan options plain given rest = plain given rest := by
  cases rest with
  | nil => rw [scan]
  | cons argument rest =>
      rcases h argument rfl with hplain | rfl
      · rw [scan, classify_plain hplain]
      · rfl

/-- An option that is said is passed over. -/
theorem scan_of_spells {item : Item} {front rest : List String} (h : Spells options item front)
    (hoption : inputs [item] = []) (htake : given.take? item = some after) :
    scan options plain given (front ++ rest) = scan options plain after rest := by
  cases h with
  | @flag option argument h htakes =>
      have hflag : given.flag? option = some after := htake
      have hhelp : option ≠ .help := by
        rintro rfl
        cases hflag
      have hversion : option ≠ .version := by
        rintro rfl
        cases hflag
      rw [List.singleton_append, scan, classify_of_names h]
      simp [htakes, hhelp, hversion, hflag]
  | @attached option value argument h htakes =>
      have hvalue : given.value? option value = some after := htake
      rw [List.singleton_append, scan, classify_of_names h]
      simp [htakes, hvalue]
  | @separate option value argument h htakes hplain =>
      have hvalue : given.value? option value = some after := htake
      rw [List.cons_append, scan, classify_of_names h]
      simp [htakes, hvalue, hplain]
  | input => cases hoption

theorem scan_of_spellsAll {items : List Item} {front rest : List String}
    (h : SpellsAll options items front) (hoptions : inputs items = [])
    (htake : given.takeAll? items = some after) :
    scan options plain given (front ++ rest) = scan options plain after rest := by
  induction h generalizing given with
  | nil =>
      cases htake
      rfl
  | @cons item items front behind h _ ih =>
      rw [← List.singleton_append, inputs_append, List.append_eq_nil_iff] at hoptions
      obtain ⟨between, hitem, hitems⟩ := Option.bind_eq_some_iff.mp htake
      rw [List.append_assoc, scan_of_spells h hoptions.1 hitem, ih hoptions.2 hitems]

/-- Options said in front of other arguments, and what is given once they have been said. -/
structure Passed (options : List Opt) (given : Given) (items : List Item) (front : List String)
    (after : Given) : Prop where
  spelled : SpellsAll options items front
  options : inputs items = []
  taken : given.takeAll? items = some after

theorem Passed.cons {item : Item} {items : List Item} {front behind : List String}
    {between : Given} (h : Spells options item front) (hoption : inputs [item] = [])
    (htake : given.take? item = some between) (hrest : Passed options between items behind after) :
    Passed options given (item :: items) (front ++ behind) after where
  spelled := .cons h hrest.spelled
  options := by rw [← List.singleton_append, inputs_append, hoption, hrest.options, List.append_nil]
  taken := by rw [Given.takeAll?_cons, htake, Option.bind_some, hrest.taken]

/-- A flag that can be given has no short name. -/
theorem short?_of_flag? (h : given.flag? option = some after) : option.short? = none := by
  cases option <;> simp_all [Given.flag?, Opt.short?]

/-- What is passed over are options, and the rest begins with what is none. -/
theorem exists_of_scan {arguments : List String}
    (h : scan options plain given arguments = .run invocation) :
    ∃ items front rest after, Passed options given items front after ∧
      arguments = front ++ rest ∧ LeavesOff rest ∧ plain after rest = .run invocation := by
  -- An argument that is no option is left over, and an option is passed over with its value.
  fun_induction scan options plain given arguments with
  | case1 given => exact ⟨[], [], [], given, ⟨.nil, rfl, rfl⟩, rfl, nofun, h⟩
  | case2 given argument rest hclass =>
      have hleft := leavesOff_cons (plain_or_end_of_classify (.inl hclass)) rest
      exact ⟨[], [], _, given, ⟨.nil, rfl, rfl⟩, rfl, hleft, h⟩
  | case3 given argument rest hclass =>
      have hleft := leavesOff_cons (plain_or_end_of_classify (.inr hclass)) rest
      exact ⟨[], [], _, given, ⟨.nil, rfl, rfl⟩, rfl, hleft, h⟩
  | case5 given argument rest option htakes value between htake hclass ih =>
      obtain ⟨items, front, behind, after, hpassed, rfl, hleft, hrun⟩ := ih h
      have hspells := Spells.attached (names_of_classify hclass (.inl htakes)) htakes
      exact ⟨_, _, behind, after, hpassed.cons hspells rfl htake, rfl, hleft, hrun⟩
  | case8 given argument option htakes value rest hvalue between htake hclass ih =>
      obtain ⟨items, front, behind, after, hpassed, rfl, hleft, hrun⟩ := ih h
      have hspells := Spells.separate (names_of_classify hclass (.inl htakes)) htakes hvalue
      exact ⟨_, _, behind, after, hpassed.cons hspells rfl htake, rfl, hleft, hrun⟩
  | case14 given argument rest option attached hclass htakes hattached _ _ between htake ih =>
      obtain ⟨items, front, behind, after, hpassed, rfl, hleft, hrun⟩ := ih h
      obtain rfl : attached = none := by simpa using hattached
      have hnames := names_of_classify hclass (.inr (short?_of_flag? htake))
      have hspells := Spells.flag hnames (by simpa using htakes)
      exact ⟨_, _, behind, after, hpassed.cons hspells rfl htake, rfl, hleft, hrun⟩
  | _ => cases h

end Scanning

/-! ## The arguments behind a command -/

section Behind

variable {options : List Opt} {items behind : List Item} {front rest : List String}
  {given after leading : Given} {command : Command} {invocation : Invocation} {count : Nat}

theorem SpellsAll.append (h : SpellsAll options items front)
    (hrest : SpellsAll options behind rest) :
    SpellsAll options (items ++ behind) (front ++ rest) := by
  induction h with
  | nil => exact hrest
  | cons h _ ih =>
      rw [List.cons_append, List.append_assoc]
      exact .cons h ih

theorem SpellsBehind.append (h : SpellsAll options items front)
    (hrest : SpellsBehind options behind rest) :
    SpellsBehind options (items ++ behind) (front ++ rest) := by
  cases hrest with
  | all hrest => exact .all (h.append hrest)
  | ended hrest paths =>
      rw [← List.append_assoc, ← List.append_assoc]
      exact .ended (h.append hrest) paths

/-- Inputs are said one after the other. -/
theorem takeInputs_eq_run_iff {finish : Given → Request} {paths : List String} :
    takeInputs finish given paths = .run invocation ↔
      ∃ after, given.takeAll? (paths.map .input) = some after ∧
        finish after = .run invocation := by
  induction paths generalizing given with
  | nil => simp [takeInputs]
  | cons path paths ih =>
      rw [takeInputs, List.map_cons, Given.takeAll?_cons]
      change _ ↔ ∃ after, (given.input? path).bind _ = some after ∧ _
      cases given.input? path with
      | none => simp
      | some between => simpa using ih

theorem finish_eq_run_iff :
    finish leading command given = .run invocation ↔
      ∃ input, given.input = some input ∧ (given.decimals = none ∨ given.noRound = false) ∧
        { json := leading.json || given.json
          config := given.config.or leading.config
          command, given, input } = invocation := by
  rw [finish]
  cases given.input with
  | none => simp
  | some input =>
      cases hdecimals : given.decimals <;> cases hround : given.noRound <;> simp

/-- One thing said behind a command is taken. -/
theorem exists_scanCommand_eq {item : Item} (h : Spells command.options item front)
    (htake : given.take? item = some after) (hcount : (front ++ rest).length < count) :
    ∃ fewer, rest.length < fewer ∧ scanCommand leading command count given (front ++ rest) =
      scanCommand leading command fewer after rest := by
  obtain ⟨count, rfl⟩ := Nat.exists_eq_add_one_of_ne_zero (Nat.ne_zero_of_lt hcount)
  rw [List.length_append] at hcount
  by_cases hoption : inputs [item] = []
  · exact ⟨count + 1, by omega, scan_of_spells h hoption htake⟩
  · cases h with
    | @input path h =>
        have hend := ne_end_of_isValue h
        have htake : given.input? path = some after := htake
        rw [List.length_singleton] at hcount
        refine ⟨count, by omega, ?_⟩
        rw [List.singleton_append, scanCommand, scan, classify_plain h]
        simp [htake]
    | _ => exact absurd rfl hoption

/-- All that is said behind a command is taken. -/
theorem exists_scanCommand_eq_of_spellsAll (h : SpellsAll command.options items front)
    (htake : given.takeAll? items = some after) (hcount : (front ++ rest).length < count) :
    ∃ fewer, rest.length < fewer ∧ scanCommand leading command count given (front ++ rest) =
      scanCommand leading command fewer after rest := by
  induction h generalizing given count with
  | nil =>
      cases htake
      exact ⟨count, hcount, rfl⟩
  | cons h _ ih =>
      obtain ⟨between, hitem, hitems⟩ := Option.bind_eq_some_iff.mp htake
      rw [List.append_assoc] at hcount ⊢
      obtain ⟨fewer, hfewer, heq⟩ := exists_scanCommand_eq h hitem hcount
      rw [heq]
      exact ih hitems hfewer

/-- A run comes only of all that is said behind the command. -/
theorem exists_of_scanCommand {arguments : List String}
    (h : scanCommand leading command count given arguments = .run invocation)
    (hcount : arguments.length < count) :
    ∃ items after, SpellsBehind command.options items arguments ∧
      given.takeAll? items = some after ∧ finish leading command after = .run invocation := by
  induction count generalizing given arguments with
  | zero => exact absurd hcount (Nat.not_lt_zero _)
  | succ count ih =>
      obtain ⟨items, front, rest, between, hpassed, rfl, hleft, hrun⟩ := exists_of_scan h
      cases rest with
      | nil =>
          rw [List.append_nil]
          exact ⟨items, between, .all hpassed.spelled, hpassed.taken, hrun⟩
      | cons argument rest =>
          rcases hleft argument rfl with hplain | rfl
          · have hend := ne_end_of_isValue hplain
            cases htake : between.input? argument with
            | none => simp [htake] at hrun
            | some taken =>
                have hrun : scanCommand leading command count taken rest = .run invocation := by
                  simpa [htake] using hrun
                have hrest : rest.length < count := by
                  rw [List.length_append, List.length_cons] at hcount
                  omega
                obtain ⟨behind, after, hbehind, hall, hfinish⟩ := ih hrun hrest
                have hinput : SpellsAll command.options [.input argument] [argument] :=
                  .cons (.input hplain) .nil
                have htaken : between.take? (.input argument) = some taken := htake
                refine ⟨_, after, .append hpassed.spelled (.append hinput hbehind), ?_, hfinish⟩
                rw [Given.takeAll?_append, hpassed.taken, Option.bind_some, List.singleton_append,
                  Given.takeAll?_cons, htaken, Option.bind_some, hall]
          · obtain ⟨after, hpaths, hfinish⟩ := takeInputs_eq_run_iff.mp hrun
            refine ⟨_, after, .ended hpassed.spelled rest, ?_, hfinish⟩
            rw [Given.takeAll?_append, hpassed.taken]
            exact hpaths

theorem scanCommand_eq_run_iff {arguments : List String} (hcount : arguments.length < count) :
    scanCommand leading command count given arguments = .run invocation ↔
      ∃ items after, SpellsBehind command.options items arguments ∧
        given.takeAll? items = some after ∧ finish leading command after = .run invocation := by
  refine ⟨fun h => exists_of_scanCommand h hcount, ?_⟩
  rintro ⟨items, after, hbehind, htake, hrun⟩
  cases hbehind with
  | all h =>
      have hcount : (arguments ++ []).length < count := by simpa using hcount
      obtain ⟨fewer, hfewer, heq⟩ := exists_scanCommand_eq_of_spellsAll h htake hcount
      obtain ⟨fewer, rfl⟩ := Nat.exists_eq_add_one_of_ne_zero (Nat.ne_zero_of_lt hfewer)
      rw [List.append_nil] at heq
      rw [heq, scanCommand, scan, hrun]
  | @ended items front h paths =>
      rw [Given.takeAll?_append] at htake
      obtain ⟨between, hitems, hpaths⟩ := Option.bind_eq_some_iff.mp htake
      obtain ⟨fewer, hfewer, heq⟩ := exists_scanCommand_eq_of_spellsAll h hitems hcount
      obtain ⟨fewer, rfl⟩ := Nat.exists_eq_add_one_of_ne_zero (Nat.ne_zero_of_lt hfewer)
      rw [heq, scanCommand, scan_of_leavesOff (leavesOff_cons (.inr rfl) paths)]
      exact takeInputs_eq_run_iff.mpr ⟨after, hpaths, hrun⟩

end Behind

/-! ## All the arguments -/

section Parsing

variable {arguments : List String} {invocation : Invocation}

theorem asks_of_parse (h : parse arguments = .run invocation) : Asks arguments invocation := by
  obtain ⟨leadingItems, front, rest, leading, hpassed, rfl, -, hrun⟩ := exists_of_scan h
  split at hrun
  next => cases hrun
  next => cases hrun
  next =>
    dsimp only at hrun
    split at hrun <;> cases hrun
  next name behind _ _ =>
    split at hrun
    next command hname =>
      obtain ⟨items, given, hbehind, htake, hfinish⟩ :=
        exists_of_scanCommand hrun (Nat.lt_succ_self _)
      obtain ⟨input, hinput, hrounding, rfl⟩ := finish_eq_run_iff.mp hfinish
      exact .intro hpassed.spelled hpassed.options (Given.says_iff_takeAll?.mpr hpassed.taken) hname
        hbehind (Given.says_iff_takeAll?.mpr htake) hinput hrounding
    next => cases hrun

theorem parse_of_asks (h : Asks arguments invocation) : parse arguments = .run invocation := by
  cases h with
  | @intro leading given front behind leadingItems items name input command hfront hnone hleading
      hname hbehind hgiven hinput hrounding =>
      rw [parse, scan_of_spellsAll hfront hnone (Given.says_iff_takeAll?.mp hleading)]
      have hcommand : name = "decode" ∨ name = "info" := by
        unfold Command.ofName? at hname
        split at hname
        next => exact .inl rfl
        next => exact .inr rfl
        next => cases hname
      have hplain : isValue name = true := by
        rcases hcommand with rfl | rfl <;> decide
      rw [scan_of_leavesOff (leavesOff_cons (.inl hplain) behind)]
      have hrun : scanCommand leading command (behind.length + 1) {} behind = .run _ :=
        (scanCommand_eq_run_iff (Nat.lt_succ_self _)).mpr
          ⟨items, given, hbehind, Given.says_iff_takeAll?.mp hgiven,
            finish_eq_run_iff.mpr ⟨input, hinput, hrounding, rfl⟩⟩
      rcases hcommand with rfl | rfl <;> cases hname <;> exact hrun

/-- The arguments are read as the run that they ask for. -/
theorem parse_eq_run_iff : parse arguments = .run invocation ↔ Asks arguments invocation :=
  ⟨asks_of_parse, parse_of_asks⟩

end Parsing

end Toolpath.CommandLine
