import Toolpath.Document.Data

/-! # Fields that were written

A record whose members are fields, no two of them the same, gives each of its
members for the field. A list gives back the items whose data is read as them.
-/

namespace Toolpath

namespace Fields

variable {dialect : Dialect} {names : List String} {members : List (String × Data)}

theorem read?_record (hkeys : (members.map Prod.fst).Sublist names) (hnames : names.Nodup) :
    read? dialect names (.record members) = some ⟨false, members⟩ := by
  have hall : members.filter (fun m => names.contains m.1) = members := by
    rw [List.filter_eq_self]
    intro m hm
    exact List.contains_iff_mem.mpr (hkeys.subset (List.mem_map_of_mem hm))
  rw [read?, hall]
  exact if_pos (hkeys.nodup hnames)

end Fields

namespace Data

variable {α : Type} {item : Data → Option α} {write : α → Data}

theorem list?_map_eq_some_iff {as : List α} :
    (list (as.map write)).list? item = some as ↔ ∀ a ∈ as, item (write a) = some a := by
  rw [list?]
  induction as with
  | nil => simp
  | cons a as ih =>
      rw [List.map_cons, List.mapM_cons, List.forall_mem_cons, ← ih]
      constructor
      · intro h
        obtain ⟨b, hb, h⟩ := Option.bind_eq_some_iff.mp h
        obtain ⟨bs, hbs, h⟩ := Option.bind_eq_some_iff.mp h
        obtain ⟨rfl, rfl⟩ := List.cons.inj (Option.some.inj h)
        exact ⟨hb, hbs⟩
      · rintro ⟨hb, hbs⟩
        rw [hb, hbs]
        rfl

end Data

end Toolpath
