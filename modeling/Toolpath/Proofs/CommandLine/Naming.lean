import Toolpath.CommandLine.Arguments
import Toolpath.Proofs.Text.Runs

/-! # How options are named

An option is named by its long name or by its short one. Its value is attached
with an equals sign, or directly behind the short name, or it is not attached at
all. An argument that names an option is understood as that option, and what is
understood as an option, other than a short one for help, names it.
-/

namespace Toolpath.CommandLine

open Text

/-- The arguments that name an option where the given options are understood, and the value that is
attached, if one is. -/
inductive Names (options : List Opt) : Opt → Option String → String → Prop
  | long {option : Opt} (h : option ∈ options) : Names options option none ("--" ++ option.long)
  | attached {option : Opt} (h : option ∈ options) (value : String) :
      Names options option (some value) ("--" ++ option.long ++ "=" ++ value)
  | short {option : Opt} {c : Char} (h : option ∈ options) (hshort : option.short? = some c)
      (htakes : option.takesValue = true) :
      Names options option none (String.ofList ['-', c])
  | shortAttached {option : Opt} {c : Char} (h : option ∈ options)
      (hshort : option.short? = some c) (htakes : option.takesValue = true) {value : String}
      (hne : value ≠ "") (hequals : value.toList.head? ≠ some '=') :
      Names options option (some value) (String.ofList ['-', c] ++ value)
  | shortEquals {option : Opt} {c : Char} (h : option ∈ options) (hshort : option.short? = some c)
      (htakes : option.takesValue = true) (value : String) :
      Names options option (some value) (String.ofList ['-', c, '='] ++ value)

variable {options : List Opt} {option : Opt} {attached : Option String} {argument : String}

theorem long_injective {option other : Opt} : option.long = other.long → option = other := by
  cases option <;> cases other <;> decide

theorem ne_equals_of_mem_long (option : Opt) :
    ∀ c ∈ option.long.toList, decide (c ≠ '=') = true := by
  apply List.all_eq_true.mp
  cases option <;> rfl

theorem find?_long (h : option ∈ options) :
    options.find? (fun other => other.long = option.long) = some option := by
  cases hfound : options.find? (fun other => other.long = option.long) with
  | none => simpa using List.find?_eq_none.mp hfound option h
  | some other =>
      have hsame : other.long = option.long := by simpa using List.find?_some hfound
      rw [long_injective hsame]

theorem short?_injective {other : Opt} {c : Char} (h : option.short? = some c)
    (hother : other.short? = some c) : option = other := by
  have hsame : option.short? = other.short? := h.trans hother.symm
  cases option <;> cases other <;> simp_all [Opt.short?]

theorem short?_ne_dash {c : Char} (h : option.short? = some c) : c ≠ '-' := by
  cases option <;> cases h <;> decide

theorem find?_short {c : Char} (h : option ∈ options) (hshort : option.short? = some c) :
    options.find? (fun other => other.short? = some c) = some option := by
  cases hfound : options.find? (fun other => other.short? = some c) with
  | none => simpa [hshort] using List.find?_eq_none.mp hfound option h
  | some other =>
      have hother : other.short? = some c := by simpa using List.find?_some hfound
      rw [short?_injective hshort hother]

/-- Behind two dashes stands a long name, up to an equals sign if there is one. -/
theorem classify_long {cs : List Char} (h : argument.toList = '-' :: '-' :: cs) (hne : cs ≠ []) :
    Argument.classify options argument =
      match options.find? fun o => o.long = String.ofList (cs.takeWhile (· ≠ '=')) with
      | some o =>
          .option o <|
            match cs.dropWhile (· ≠ '=') with
            | [] => none
            | _ :: value => some (String.ofList value)
      | none => .unknown := by
  rw [Argument.classify, h]
  cases cs with
  | nil => exact absurd rfl hne
  | cons c cs => rfl

/-- Behind one dash stands a short name. -/
theorem classify_short {c : Char} {cs : List Char} (h : argument.toList = '-' :: c :: cs)
    (hc : c ≠ '-') :
    Argument.classify options argument =
      match options.find? fun o => o.short? = some c with
      | some o => .option o (if o.takesValue then Argument.attachedShort? cs else none)
      | none => .unknown := by
  rw [Argument.classify, h]
  split
  next heq => exact absurd (List.cons.inj (List.cons.inj heq).2).1 hc
  next heq => exact absurd (List.cons.inj (List.cons.inj heq).2).1 hc
  next heq =>
    obtain ⟨rfl, rfl⟩ := List.cons.inj (List.cons.inj heq).2
    rfl
  next hother => exact absurd rfl (hother c cs)

theorem classify_plain (h : isValue argument = true) :
    Argument.classify options argument = .plain := by
  rw [isValue, Bool.or_eq_true, decide_eq_true_iff, decide_eq_true_iff] at h
  rcases h with h | rfl
  · rw [Argument.classify]
    cases hcs : argument.toList with
    | nil => rfl
    | cons c cs =>
        rw [hcs, List.head?_cons, ne_eq, Option.some.injEq] at h
        split <;> simp_all
  · rfl

theorem ne_end_of_isValue (h : isValue argument = true) : argument ≠ "--" := by
  rintro rfl
  exact absurd h (by decide)

/-- Behind a short name stands a value, but for an equals sign in front of it. -/
theorem attachedShort?_of_ne {cs : List Char} (hne : cs ≠ []) (hequals : cs.head? ≠ some '=') :
    Argument.attachedShort? cs = some (String.ofList cs) := by
  refine Argument.attachedShort?.eq_3 cs hne fun value heq => hequals ?_
  rw [heq, List.head?_cons]

theorem classify_of_names (h : Names options option attached argument) :
    Argument.classify options argument = .option option attached := by
  have hnone := ne_equals_of_mem_long option
  cases h with
  | long h =>
      have hlist : ("--" ++ option.long).toList = '-' :: '-' :: option.long.toList := by simp
      rw [classify_long hlist (by cases option <;> decide),
        List.takeWhile_eq_self_iff.mpr hnone, List.dropWhile_eq_nil_iff.mpr hnone,
        String.ofList_toList, find?_long h]
  | attached h value =>
      have hstops : Stops (fun c => decide (c ≠ '=')) ('=' :: value.toList) := by
        intro c hc
        cases hc
        decide
      have hlist : ("--" ++ option.long ++ "=" ++ value).toList =
          '-' :: '-' :: (option.long.toList ++ '=' :: value.toList) := by simp
      rw [classify_long hlist (by simp),
        takeWhile_append_of_stops hnone hstops,
        dropWhile_append_of_stops hnone hstops, String.ofList_toList, find?_long h]
      simp
  | short h hshort htakes =>
      rw [classify_short String.toList_ofList (short?_ne_dash hshort), find?_short h hshort]
      simp [htakes, Argument.attachedShort?]
  | @shortAttached c h hshort htakes value hne hequals =>
      have hnil : value.toList ≠ [] := mt String.toList_eq_nil_iff.mp hne
      have hlist : (String.ofList ['-', c] ++ value).toList = '-' :: c :: value.toList := by simp
      rw [classify_short hlist (short?_ne_dash hshort),
        find?_short h hshort]
      simp [htakes, attachedShort?_of_ne hnil hequals]
  | @shortEquals c h hshort htakes value =>
      have hlist : (String.ofList ['-', c, '='] ++ value).toList =
          '-' :: c :: '=' :: value.toList := by simp
      rw [classify_short hlist (short?_ne_dash hshort),
        find?_short h hshort]
      simp [htakes, Argument.attachedShort?]

/-- An argument is plain, or it is two dashes, or it has a name behind its dashes. -/
theorem argument_cases (argument : String) :
    isValue argument = true ∨ argument = "--" ∨
      (∃ cs, cs ≠ [] ∧ argument.toList = '-' :: '-' :: cs) ∨
        ∃ c cs, c ≠ '-' ∧ argument.toList = '-' :: c :: cs := by
  by_cases hplain : isValue argument = true
  · exact .inl hplain
  right
  rw [isValue, Bool.or_eq_true, decide_eq_true_iff, decide_eq_true_iff, not_or, not_not] at hplain
  obtain ⟨hhead, hlone⟩ := hplain
  obtain ⟨cs, hcs⟩ := List.head?_eq_some_iff.mp hhead
  cases cs with
  | nil => exact absurd (String.toList_injective hcs) hlone
  | cons c cs =>
      by_cases hc : c = '-'
      · subst hc
        by_cases hnil : cs = []
        · subst hnil
          exact .inl (String.toList_injective hcs)
        · exact .inr (.inl ⟨cs, hnil, hcs⟩)
      · exact .inr (.inr ⟨c, cs, hc, hcs⟩)

theorem plain_or_end_of_classify (h : Argument.classify options argument = .plain ∨
    Argument.classify options argument = .endOfOptions) :
    isValue argument = true ∨ argument = "--" := by
  rcases argument_cases argument with hplain | hend | ⟨cs, hne, hcs⟩ | ⟨c, cs, hc, hcs⟩
  · exact .inl hplain
  · exact .inr hend
  · rw [classify_long hcs hne] at h
    split at h <;> simp at h
  · rw [classify_short hcs hc] at h
    split at h <;> simp at h

/-- What is understood as an option names it. Of the short names only those of options with a value
are of use in a run. -/
theorem names_of_classify (h : Argument.classify options argument = .option option attached)
    (huse : option.takesValue = true ∨ option.short? = none) :
    Names options option attached argument := by
  rcases argument_cases argument with hplain | rfl | ⟨cs, hne, hcs⟩ | ⟨c, cs, hc, hcs⟩
  · rw [classify_plain hplain] at h
    cases h
  · cases h
  · rw [classify_long hcs hne] at h
    split at h
    next o hfind =>
      obtain ⟨rfl, rfl⟩ := Argument.option.inj h
      have hmem := List.mem_of_find?_eq_some hfind
      have hlong : o.long = String.ofList (cs.takeWhile (· ≠ '=')) := by
        simpa using List.find?_some hfind
      have hsplit : cs = o.long.toList ++ cs.dropWhile (· ≠ '=') := by
        rw [hlong, String.toList_ofList, List.takeWhile_append_dropWhile]
      have hstops := stops_dropWhile (fun c => decide (c ≠ '=')) cs
      cases hdrop : cs.dropWhile (· ≠ '=') with
      | nil =>
          have hspelled : argument = "--" ++ o.long := by
            apply String.toList_injective
            rw [hcs, hsplit, hdrop]
            simp
          rw [hspelled]
          exact .long hmem
      | cons d value =>
          obtain rfl : d = '=' := by simpa using hstops d (by rw [hdrop]; rfl)
          have hspelled : argument = "--" ++ o.long ++ "=" ++ String.ofList value := by
            apply String.toList_injective
            rw [hcs, hsplit, hdrop]
            simp
          rw [hspelled]
          exact .attached hmem _
    next => cases h
  · rw [classify_short hcs hc] at h
    split at h
    next o hfind =>
      obtain ⟨rfl, rfl⟩ := Argument.option.inj h
      have hmem := List.mem_of_find?_eq_some hfind
      have hshort : o.short? = some c := by simpa using List.find?_some hfind
      have htakes : o.takesValue = true := huse.resolve_right (by simp [hshort])
      rw [if_pos htakes]
      rw [← String.ofList_toList (s := argument), hcs]
      by_cases hequals : cs.head? = some '='
      · obtain ⟨value, rfl⟩ := List.head?_eq_some_iff.mp hequals
        have hspelled := Names.shortEquals hmem hshort htakes (String.ofList value)
        rwa [← String.ofList_append] at hspelled
      · by_cases hnil : cs = []
        · rw [hnil]
          exact .short hmem hshort htakes
        · have hspelled : Names options o (some (String.ofList cs))
              (String.ofList ['-', c] ++ String.ofList cs) :=
            .shortAttached hmem hshort htakes (by simpa using hnil) (by simpa using hequals)
          rw [attachedShort?_of_ne hnil hequals]
          rwa [← String.ofList_append] at hspelled
    next => cases h

end Toolpath.CommandLine
