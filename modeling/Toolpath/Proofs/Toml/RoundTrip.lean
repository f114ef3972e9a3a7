import Toolpath.Proofs.Toml.Lines

/-! # Written TOML is read back

A document of tables is read line by line: a header opens a table at the end of
the document, and each line behind it adds its key there. So the tables come
back in order, with every key that has a value.
-/

namespace Toolpath.Toml

open Text

/-- A list is worked through if its first entry is and the rest of it is. -/
theorem mapM_cons_eq_some {α β : Type} {f : α → Option β} {a : α} {as : List α} {bs : List β}
    (h : (a :: as).mapM f = some bs) :
    ∃ b more, f a = some b ∧ as.mapM f = some more ∧ b :: more = bs := by
  rw [List.mapM_cons] at h
  obtain ⟨b, hb, h⟩ := Option.bind_eq_some_iff.mp h
  obtain ⟨more, hmore, h⟩ := Option.bind_eq_some_iff.mp h
  exact ⟨b, more, hb, hmore, Option.some.inj h⟩

/-- A list is worked through if each of its entries is. -/
theorem exists_mapM_eq_some {α β : Type} {f : α → Option β} {as : List α}
    (h : ∀ a ∈ as, ∃ b, f a = some b) : ∃ bs, as.mapM f = some bs := by
  induction as with
  | nil => exact ⟨[], rfl⟩
  | cons a as ih =>
      obtain ⟨⟨b, hb⟩, hrest⟩ := List.forall_mem_cons.mp h
      obtain ⟨bs, hbs⟩ := ih hrest
      refine ⟨b :: bs, ?_⟩
      rw [List.mapM_cons, hb, hbs]
      rfl

/-! ## Tables -/

section Tables

variable {name : String} {before : Members} {done : Members} {d : Data}

theorem lookup_eq_none {members : Members} (h : name ∉ members.map Prod.fst) :
    members.lookup name = none := by
  rw [List.lookup_eq_none_iff]
  intro member hmem
  rw [bne_iff_ne]
  rintro rfl
  exact h (List.mem_map_of_mem hmem)

theorem insertNew?_of_not_mem (h : name ∉ done.map Prod.fst) (node : Node) :
    Members.insertNew? done name node = some (done ++ [(name, node)]) := by
  rw [Members.insertNew?, lookup_eq_none h]
  rfl

/-- A header opens a table behind those that are there. -/
theorem openTable?_of_not_mem (h : name ∉ before.map Prod.fst) (path : List String) :
    Progress.openTable? ⟨path, before⟩ [] name =
      some ⟨[name], before ++ [(name, .table .header [])]⟩ := by
  have hopen : Members.openTable? name before = some (before ++ [(name, .table .header [])]) := by
    rw [Members.openTable?, lookup_eq_none h]
  rw [Progress.openTable?, Members.at?, hopen]
  rfl

theorem replace_append (h : name ∉ before.map Prod.fst) (node other : Node) :
    Members.replace (before ++ [(name, other)]) name node = before ++ [(name, node)] := by
  have hsame : before.map (fun m => if m.1 = name then (name, node) else m) = before := by
    refine (List.map_congr_left fun m hm => if_neg ?_).trans (List.map_id before)
    rintro rfl
    exact h (List.mem_map_of_mem hm)
  rw [Members.replace, List.map_append, hsame]
  simp

/-- A key goes to the end of the last table. -/
theorem assign?_of_not_mem {key : String} (h : name ∉ before.map Prod.fst)
    (hkey : key ∉ done.map Prod.fst) (d : Data) :
    Progress.assign? ⟨[name], before ++ [(name, .table .header done)]⟩ [] key d =
      some ⟨[name], before ++ [(name, .table .header (done ++ [(key, .value d)]))]⟩ := by
  have hlookup : (before ++ [(name, Node.table .header done)]).lookup name =
      some (.table .header done) := by
    rw [List.lookup_append, lookup_eq_none h]
    simp
  have hassign : Members.assign? [] key d .header done = some (done ++ [(key, .value d)]) := by
    simp only [Members.assign?, Members.at?, ne_eq, not_true_eq_false, false_and, if_false]
    exact insertNew?_of_not_mem hkey _
  rw [Progress.assign?, Members.at?, hlookup]
  simp only [Members.at?, hassign, replace_append h]
  rfl

end Tables

/-- The members of a table that are written: null is left out. -/
def written (members : List (String × Data)) : List (String × Data) :=
  members.filter fun member =>
    match member.2 with
    | .null => false
    | _ => true

theorem line?_of_ne_null {d : Data} (h : d ≠ .null) (name : String) :
    line? name d = (scalarText? d).map fun text =>
      name.toList ++ " = ".toList ++ text ++ ['\n'] := by
  cases d with
  | null => exact absurd rfl h
  | _ => rfl

theorem written_cons_of_ne_null {d : Data} (h : d ≠ .null) (key : String)
    (members : List (String × Data)) :
    written ((key, d) :: members) = (key, d) :: written members := by
  cases d with
  | null => exact absurd rfl h
  | _ => rfl

/-- The members of a table as they are read. -/
def valueNodes (members : List (String × Data)) : Members :=
  members.map fun member => (member.1, .value member.2)

/-- Whether the members of a table can be written so that they are read again. -/
structure Writable (members : List (String × Data)) : Prop where
  keys : ∀ key ∈ members.map Prod.fst, IsBareKey key
  distinct : (members.map Prod.fst).Nodup
  finite : ∀ x, .float x ∈ members.map Prod.snd → x.isFinite = true

theorem Writable.sublist {some all : List (String × Data)} (h : Writable all)
    (hsome : some.Sublist all) : Writable some where
  keys := fun key hkey => h.keys key ((hsome.map Prod.fst).subset hkey)
  distinct := (hsome.map Prod.fst).nodup h.distinct
  finite := fun x hx => h.finite x ((hsome.map Prod.snd).subset hx)

theorem Writable.tail {member : String × Data} {members : List (String × Data)}
    (h : Writable (member :: members)) : Writable members :=
  h.sublist (List.sublist_cons_self member members)

/-- Keys that are new stay new when another one has been put in. -/
theorem not_mem_keys_append {α β : Type} {before : List (String × α)} {rest : List (String × β)}
    (entry : String × α) (hnew : ∀ member ∈ rest, member.1 ∉ before.map Prod.fst)
    (hapart : entry.1 ∉ rest.map Prod.fst) :
    ∀ member ∈ rest, member.1 ∉ (before ++ [entry]).map Prod.fst := by
  intro member hmem hin
  rw [List.map_append, List.mem_append] at hin
  rcases hin with hin | hin
  · exact hnew member hmem hin
  · have heq : member.1 = entry.1 := List.mem_singleton.mp hin
    exact hapart (heq ▸ List.mem_map_of_mem hmem)

/-- The lines of a table add its members. -/
theorem takes_lines {name : String} {before done : Members} {members : List (String × Data)}
    (hname : name ∉ before.map Prod.fst) (hmembers : Writable members)
    (hnew : ∀ member ∈ members, member.1 ∉ done.map Prod.fst) {lines : List (List Char)}
    (hlines : members.mapM (fun (key, d) => line? key d) = some lines) :
    Takes lines.flatten ⟨[name], before ++ [(name, .table .header done)]⟩
      ⟨[name], before ++ [(name, .table .header (done ++ valueNodes (written members)))]⟩ := by
  induction members generalizing done lines with
  | nil =>
      obtain rfl : [] = lines := Option.some.inj hlines
      simpa [written, valueNodes] using takes_nil _
  | cons member members ih =>
      obtain ⟨key, d⟩ := member
      obtain ⟨line, more, hline, hmore, rfl⟩ := mapM_cons_eq_some hlines
      obtain ⟨hkey, hothers⟩ := List.forall_mem_cons.mp hnew
      rw [List.flatten_cons]
      -- A member without a value leaves no line.
      by_cases hnull : d = .null
      · subst hnull
        obtain rfl := Option.some.inj hline
        exact ih hmembers.tail hothers hmore
      · change line? key d = some line at hline
        rw [line?_of_ne_null hnull] at hline
        obtain ⟨text, htext, rfl⟩ := Option.map_eq_some_iff.mp hline
        have hfinite : ∀ x, d = .float x → x.isFinite = true := by
          rintro x rfl
          exact hmembers.finite x (List.mem_cons_self ..)
        have hscalar := isScalar_of_scalarText? hfinite htext
        have hbare := hmembers.keys key (List.mem_cons_self ..)
        obtain ⟨hapart, -⟩ := List.nodup_cons.mp hmembers.distinct
        have hlater := not_mem_keys_append (key, Node.value d) hothers hapart
        have hmore := ih hmembers.tail hlater hmore
        rw [List.append_assoc, List.singleton_append] at hmore
        rw [written_cons_of_ne_null hnull]
        exact (takes_line hbare hscalar (assign?_of_not_mem hname hkey d)).append hmore

/-! ## Documents -/

/-- A table as it is read. -/
def tableNode (table : String × List (String × Data)) : String × Node :=
  (table.1, .table .header (valueNodes (written table.2)))

theorem takes_table {front : List Char} (hfront : front = [] ∨ front = ['\n'])
    {table : String × List (String × Data)} (hbare : IsBareKey table.1)
    (hmembers : Writable table.2) {before : Members} (hnew : table.1 ∉ before.map Prod.fst)
    {text : List Char} (htext : table? table.1 table.2 = some text) (path : List String) :
    Takes (front ++ text) ⟨path, before⟩ ⟨[table.1], before ++ [tableNode table]⟩ := by
  obtain ⟨lines, hlines, htext⟩ := Option.bind_eq_some_iff.mp htext
  obtain rfl := Option.some.inj htext
  have hheader := takes_header hfront hbare (openTable?_of_not_mem hnew path)
  have hnone : ∀ member ∈ table.2, member.1 ∉ ([] : Members).map Prod.fst :=
    fun _ _ => List.not_mem_nil
  have hbody := takes_lines hnew hmembers hnone hlines
  simpa [tableNode] using hheader.append hbody

/-- The tables of a document are read one by one. -/
theorem takes_tables {tables : List (String × List (String × Data))}
    (htables : ∀ table ∈ tables, IsBareKey table.1 ∧ Writable table.2)
    (hdistinct : (tables.map Prod.fst).Nodup) {before : Members}
    (hnew : ∀ table ∈ tables, table.1 ∉ before.map Prod.fst) {texts : List (List Char)}
    (htexts : tables.mapM (fun table => table? table.1 table.2) = some texts) (path : List String) :
    ∃ after, Takes (texts.flatMap ('\n' :: ·)) ⟨path, before⟩
      ⟨after, before ++ tables.map tableNode⟩ := by
  induction tables generalizing before texts path with
  | nil =>
      obtain rfl : [] = texts := Option.some.inj htexts
      refine ⟨path, ?_⟩
      simpa using takes_nil ⟨path, before⟩
  | cons table tables ih =>
      obtain ⟨text, more, htext, hmore, rfl⟩ := mapM_cons_eq_some htexts
      obtain ⟨⟨hbare, hmembers⟩, hothers⟩ := List.forall_mem_cons.mp htables
      obtain ⟨hfirst, hlater⟩ := List.forall_mem_cons.mp hnew
      obtain ⟨hapart, hdistinct⟩ := List.nodup_cons.mp hdistinct
      have hnext := not_mem_keys_append (tableNode table) hlater hapart
      have hone := takes_table (.inr rfl) hbare hmembers hfirst htext path
      obtain ⟨after, hrest⟩ := ih hothers hdistinct hnext hmore [table.1]
      refine ⟨after, ?_⟩
      simpa using hone.append hrest

theorem intercalate_cons_eq (separator : Char) (text : List Char) (texts : List (List Char)) :
    [separator].intercalate (text :: texts) = text ++ texts.flatMap (separator :: ·) := by
  induction texts generalizing text with
  | nil => simp
  | cons second texts ih =>
      rw [List.intercalate_cons_cons, ih, List.flatMap_cons]
      simp

/-- A document as it is read. -/
theorem takes_document {tables : List (String × List (String × Data))}
    (htables : ∀ table ∈ tables, IsBareKey table.1 ∧ Writable table.2)
    (hdistinct : (tables.map Prod.fst).Nodup) {texts : List (List Char)}
    (htexts : tables.mapM (fun table => table? table.1 table.2) = some texts) :
    ∃ after, Takes (['\n'].intercalate texts) {} ⟨after, tables.map tableNode⟩ := by
  cases tables with
  | nil =>
      obtain rfl : [] = texts := Option.some.inj htexts
      exact ⟨[], takes_nil _⟩
  | cons table tables =>
      obtain ⟨text, more, htext, hmore, rfl⟩ := mapM_cons_eq_some htexts
      obtain ⟨⟨hbare, hmembers⟩, hothers⟩ := List.forall_mem_cons.mp htables
      obtain ⟨hapart, hdistinct⟩ := List.nodup_cons.mp hdistinct
      have hfirst : table.1 ∉ ([] : Members).map Prod.fst := List.not_mem_nil
      have hnone : ∀ other ∈ tables, other.1 ∉ ([] : Members).map Prod.fst :=
        fun _ _ => List.not_mem_nil
      have hnext := not_mem_keys_append (tableNode table) hnone hapart
      have hone := takes_table (.inl rfl) hbare hmembers hfirst htext []
      obtain ⟨after, hrest⟩ := takes_tables hothers hdistinct hnext hmore [table.1]
      refine ⟨after, ?_⟩
      rw [intercalate_cons_eq]
      exact hone.append hrest

theorem memberData_valueNodes (members : List (String × Data)) :
    Node.memberData (valueNodes members) = members := by
  induction members with
  | nil => rfl
  | cons member members ih =>
      rw [valueNodes] at ih
      rw [valueNodes, List.map_cons, Node.memberData, ih]
      rfl

theorem memberData_tableNodes (tables : List (String × List (String × Data))) :
    Node.memberData (tables.map tableNode) =
      tables.map fun table => (table.1, .record (written table.2)) := by
  induction tables with
  | nil => rfl
  | cons table tables ih =>
      have hdata : (tableNode table).2.data = .record (written table.2) := by
        rw [tableNode, Node.data, memberData_valueNodes]
      rw [List.map_cons, List.map_cons, ← ih, ← hdata]
      rfl

theorem statements_nil (count left : Nat) (progress : Progress) :
    statements count left progress [] = some progress := by
  cases left with
  | zero => rfl
  | succ left => rfl

theorem dropMark_intercalate {tables : List (String × List (String × Data))}
    {texts : List (List Char)}
    (htexts : tables.mapM (fun table => table? table.1 table.2) = some texts) :
    dropMark (['\n'].intercalate texts) = ['\n'].intercalate texts := by
  cases tables with
  | nil =>
      obtain rfl : [] = texts := Option.some.inj htexts
      rfl
  | cons table tables =>
      obtain ⟨text, more, htext, -, rfl⟩ := mapM_cons_eq_some htexts
      obtain ⟨lines, -, htext⟩ := Option.bind_eq_some_iff.mp htext
      obtain rfl := Option.some.inj htext
      rw [intercalate_cons_eq]
      rfl

/-- Tables are written if each of their members is. -/
theorem exists_print?_eq_some {tables : List (String × List (String × Data))}
    (h : ∀ table ∈ tables, ∀ member ∈ table.2, ∃ line, line? member.1 member.2 = some line) :
    ∃ s, print? (.record (tables.map fun table => (table.1, .record table.2))) = some s := by
  have htables : ∀ table ∈ tables, ∃ text, table? table.1 table.2 = some text := by
    intro table htable
    obtain ⟨lines, hlines⟩ := exists_mapM_eq_some (h table htable)
    exact ⟨_, Option.bind_eq_some_iff.mpr ⟨lines, hlines, rfl⟩⟩
  obtain ⟨texts, htexts⟩ := exists_mapM_eq_some htables
  rw [print?, List.mapM_map]
  exact ⟨_, Option.bind_eq_some_iff.mpr ⟨texts, htexts, rfl⟩⟩

/-- A document of tables that is written is read as the same tables, without the keys whose value is
null. -/
theorem read?_print? {tables : List (String × List (String × Data))}
    (htables : ∀ table ∈ tables, IsBareKey table.1 ∧ Writable table.2)
    (hdistinct : (tables.map Prod.fst).Nodup) {s : String}
    (h : print? (.record (tables.map fun table => (table.1, .record table.2))) = some s) :
    read? s.toList =
      some (.record (tables.map fun table => (table.1, .record (written table.2)))) := by
  rw [print?, List.mapM_map] at h
  obtain ⟨texts, htexts, h⟩ := Option.bind_eq_some_iff.mp h
  obtain rfl := Option.some.inj h
  obtain ⟨after, k, hk, htakes⟩ := takes_document htables hdistinct htexts
  rw [String.toList_ofList, read?, dropMark_intercalate htexts]
  have hleft : (['\n'].intercalate texts).length + 1 - k + k =
      (['\n'].intercalate texts).length + 1 := by
    omega
  have hread := htakes (['\n'].intercalate texts).length
    ((['\n'].intercalate texts).length + 1 - k) []
  rw [hleft, List.append_nil, statements_nil] at hread
  rw [hread, Option.bind_eq_bind, Option.bind_some, memberData_tableNodes]

end Toolpath.Toml
