import Toolpath.Proofs.Document.Fields

/-! # Records that were edited

A person edits a record by leaving fields out and by adding what is not a field.
A field that is left out of the edited record has its default, and all others
are read as they were before, whatever has been put between them and in
whatever order they stand.
-/

namespace Toolpath

/-- The fields among the members of a record. -/
def Fields.among (names : List String) (members : List (String × Data)) : Fields :=
  ⟨false, members.filter fun member => names.contains member.1⟩

namespace Data

/-- What a record has under a name. -/
def member? (name : String) : Data → Option Data
  | .record members => members.lookup name
  | _ => none

/-- Whether a record has anything under a name. -/
def has (d : Data) (name : String) : Bool :=
  (d.member? name).isSome

/-- Whether a record of groups has the group and the group has the field. -/
def gives (d : Data) (group field : String) : Bool :=
  (d.member? group).any (·.has field)

/-- What an edit makes of the members of a record. A field is still given only once, and what is
given for it was there before, but for a change to it. There may be any other members. -/
structure EditedMembers (names : List String) (change : String → Data → Data → Prop)
    (before after : List (String × Data)) : Prop where
  distinct : ((after.filter fun member => names.contains member.1).map Prod.fst).Nodup
  origin : ∀ name ∈ names, ∀ new, after.lookup name = some new →
    ∃ old, before.lookup name = some old ∧ change name old new

/-- A record is edited member by member. -/
inductive Edited (names : List String) (change : String → Data → Data → Prop) : Data → Data → Prop
  | record {before after : List (String × Data)}
      (hmembers : EditedMembers names change before after) :
      Edited names change (.record before) (.record after)

variable {names : List String} {change : String → Data → Data → Prop} {name : String}
  {before after : List (String × Data)}

theorem gives_eq_false {d : Data} (h : d.member? name = none) : d.gives name = fun _ => false := by
  funext field
  rw [gives, h]
  rfl

theorem gives_eq_has {d group : Data} (h : d.member? name = some group) :
    d.gives name = group.has := by
  funext field
  rw [gives, h]
  rfl

theorem editedMembers_of_mem
    (hdistinct : ((after.filter fun member => names.contains member.1).map Prod.fst).Nodup)
    (h : ∀ member ∈ after, member.1 ∈ names →
      ∃ old, before.lookup member.1 = some old ∧ change member.1 old member.2) :
    EditedMembers names change before after where
  distinct := hdistinct
  origin := by
    intro name hname new hnew
    obtain ⟨front, rest, rfl, -⟩ := List.lookup_eq_some_iff.mp hnew
    exact h (name, new) (List.mem_append_right _ (List.mem_cons_self ..)) hname

/-- A record is an edit of itself. -/
theorem edited_refl (hdistinct : (before.map Prod.fst).Nodup)
    (hchange : ∀ name ∈ names, ∀ old, before.lookup name = some old → change name old old) :
    Edited names change (.record before) (.record before) :=
  .record ⟨(List.filter_sublist.map Prod.fst).nodup hdistinct,
    fun name hname old hold => ⟨old, hold, hchange name hname old hold⟩⟩

theorem lookup_filter (kept : String → Bool) (members : List (String × Data)) :
    (members.filter fun member => kept member.1).lookup name =
      if kept name then members.lookup name else none := by
  induction members with
  | nil => exact (ite_self _).symm
  | cons member members ih =>
      obtain ⟨key, d⟩ := member
      rw [List.filter_cons]
      by_cases hkey : name = key
      · subst hkey
        cases hkept : kept name with
        | false =>
            rw [if_neg Bool.false_ne_true, ih, hkept]
            rfl
        | true =>
            rw [if_pos rfl, List.lookup_cons_self, List.lookup_cons_self]
            rfl
      · have hne : (name == key) = false := beq_eq_false_iff_ne.mpr hkey
        split
        · rw [List.lookup_cons, List.lookup_cons, hne, ih]
        · rw [List.lookup_cons, hne, ih]

theorem lookup_map (f : String → Data → Data) (members : List (String × Data)) :
    (members.map fun member => (member.1, f member.1 member.2)).lookup name =
      (members.lookup name).map (f name) := by
  induction members with
  | nil => rfl
  | cons member members ih =>
      obtain ⟨key, d⟩ := member
      rw [List.map_cons, List.lookup_cons, List.lookup_cons, ih]
      by_cases hkey : name = key
      · rw [hkey, beq_self_eq_true]
        rfl
      · rw [beq_eq_false_iff_ne.mpr hkey]

theorem get?_among (h : name ∈ names) (members : List (String × Data)) :
    (Fields.among names members).get? name = members.lookup name := by
  rw [Fields.get?, Fields.among, lookup_filter, if_pos (List.contains_iff_mem.mpr h)]

namespace EditedMembers

theorem read?_record (h : EditedMembers names change before after) (dialect : Dialect) :
    Fields.read? dialect names (.record after) = some (.among names after) :=
  if_pos h.distinct

variable {α : Type} {item : Data → Option α} {value result : α}

/-- What is read for a group of fields depends on which of them the edit has left. None of them are
left where the group is not. -/
theorem withDefault_eq_some_iff (h : EditedMembers names change before after)
    (hname : name ∈ names) {old : Data} (hbefore : before.lookup name = some old)
    (keeping : (String → Bool) → α) (readable : (String → Bool) → Prop)
    (hnone : readable fun _ => false) (hvalue : keeping (fun _ => false) = value)
    (hgroup : ∀ new, change name old new →
      (item new = some (keeping new.has) ↔ readable new.has)) :
    (Fields.among names after).withDefault name value item =
        some (keeping ((Data.record after).gives name)) ↔
      readable ((Data.record after).gives name) := by
  rw [Fields.withDefault, get?_among hname]
  cases hafter : after.lookup name with
  | none =>
      have hmissing : (Data.record after).member? name = none := hafter
      rw [gives_eq_false hmissing, hvalue]
      exact iff_of_true rfl hnone
  | some new =>
      obtain ⟨_, hold, hchange⟩ := h.origin name hname new hafter
      obtain rfl := Option.some.inj (hbefore.symm.trans hold)
      have hgiven : (Data.record after).member? name = some new := hafter
      rw [gives_eq_has hgiven]
      exact hgroup new hchange

/-- A field that no edit may change is read as before or has its default. -/
theorem withDefault_eq_ite (h : EditedMembers names (fun _ => Eq) before after)
    (hname : name ∈ names) (value : α) (item : Data → Option α) :
    (Fields.among names after).withDefault name value item =
      if (Data.record after).has name then Fields.withDefault ⟨false, before⟩ name value item
      else some value := by
  rw [Fields.withDefault, get?_among hname, has, member?]
  cases hafter : after.lookup name with
  | none => rfl
  | some new =>
      obtain ⟨old, hbefore, rfl⟩ := h.origin name hname new hafter
      rw [Option.isSome_some, if_pos rfl, Fields.withDefault, Fields.get?, hbefore]

theorem withDefault_of_eq_some (h : EditedMembers names (fun _ => Eq) before after)
    (hname : name ∈ names)
    (hbefore : Fields.withDefault ⟨false, before⟩ name value item = some result) :
    (Fields.among names after).withDefault name value item =
      some (if (Data.record after).has name then result else value) := by
  rw [h.withDefault_eq_ite hname, hbefore]
  split <;> rfl

/-- Where the data of a default would be read as it, a field is read like the data of the value that
it has after the edit. -/
theorem withDefault_eq_item (h : EditedMembers names (fun _ => Eq) before after)
    (hname : name ∈ names) {write : α → Data} (hvalue : item (write value) = some value)
    (hbefore : Fields.withDefault ⟨false, before⟩ name value item = item (write result)) :
    (Fields.among names after).withDefault name value item =
      item (write (if (Data.record after).has name then result else value)) := by
  rw [h.withDefault_eq_ite hname, hbefore]
  split
  · rfl
  · exact hvalue.symm

/-! ## Leaving members out -/

/-- Members may be left out of what has been edited. -/
theorem filter (h : EditedMembers names change before after) (kept : String → Bool) :
    EditedMembers names change before (after.filter fun member => kept member.1) where
  distinct := ((List.filter_sublist.filter _).map Prod.fst).nodup h.distinct
  origin := by
    intro name hname new hnew
    rw [lookup_filter] at hnew
    split at hnew
    next => exact h.origin name hname new hnew
    next => cases hnew

/-- A member may be changed further. -/
theorem map (h : EditedMembers names change before after) (f : String → Data → Data)
    (hf : ∀ name old new, change name old new → change name old (f name new)) :
    EditedMembers names change before
      (after.map fun member => (member.1, f member.1 member.2)) where
  distinct := by
    rw [List.filter_map, List.map_map]
    exact h.distinct
  origin := by
    intro name hname new hnew
    rw [lookup_map] at hnew
    obtain ⟨between, hbetween, rfl⟩ := Option.map_eq_some_iff.mp hnew
    obtain ⟨old, hold, hchange⟩ := h.origin name hname between hbetween
    exact ⟨old, hold, hf name old between hchange⟩

end EditedMembers

/-- A record without the members that are not kept. -/
def only (kept : String → Bool) : Data → Data
  | .record members => .record (members.filter fun member => kept member.1)
  | d => d

/-- A record of groups without the groups and the fields that are not kept. -/
def leaving (keptGroup : String → Bool) (kept : String → String → Bool) : Data → Data
  | .record groups =>
      .record ((groups.filter fun group => keptGroup group.1).map fun group =>
        (group.1, group.2.only (kept group.1)))
  | d => d

theorem Edited.only {old new : Data} (h : Edited names change old new) (kept : String → Bool) :
    Edited names change old (new.only kept) := by
  cases h with
  | record hmembers => exact .record (hmembers.filter kept)

theorem Edited.leaving {fields : String → List String} {old new : Data}
    (h : Edited names (fun group => Edited (fields group) change) old new)
    (keptGroup : String → Bool) (kept : String → String → Bool) :
    Edited names (fun group => Edited (fields group) change) old
      (new.leaving keptGroup kept) := by
  cases h with
  | record hmembers =>
      exact .record ((hmembers.filter keptGroup).map (fun group => Data.only (kept group))
        fun group _ _ hgroup => hgroup.only (kept group))

theorem has_only (kept : String → Bool) (d : Data) (name : String) :
    (d.only kept).has name = (kept name && d.has name) := by
  cases d with
  | record members =>
      rw [has, only, member?, lookup_filter]
      cases kept name <;> rfl
  | _ => exact (Bool.and_false _).symm

theorem gives_leaving (keptGroup : String → Bool) (kept : String → String → Bool) (d : Data)
    (group field : String) :
    (d.leaving keptGroup kept).gives group field =
      (keptGroup group && kept group field && d.gives group field) := by
  cases d with
  | record groups =>
      rw [gives, leaving, member?, lookup_map fun name => only (kept name), lookup_filter, gives,
        member?]
      cases keptGroup group with
      | false => rfl
      | true =>
          cases hgroup : groups.lookup group with
          | none => exact (Bool.and_false _).symm
          | some members => exact has_only (kept group) members field
  | _ => exact (Bool.and_false _).symm

end Data

end Toolpath
