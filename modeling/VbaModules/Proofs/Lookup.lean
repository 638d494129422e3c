import VbaModules.Rename.Table

/-!
# Looking up what was inserted

Since no key of a dictionary occurs twice, looking up a key finds exactly the entry that holds it,
and inserting keys that are all different just lists them in order. A rename table is a dictionary
by folded name, so the same holds for names that are different words.
-/

namespace VbaModules

/-- A new key goes to the end. -/
theorem assign_of_not_mem {α : Type} {key : String} {value : α} {entries : List (String × α)}
    (h : key ∉ entries.map Prod.fst) : assign key value entries = entries ++ [(key, value)] := by
  induction entries with
  | nil => rfl
  | cons e rest ih =>
    obtain ⟨k, v⟩ := e
    rw [List.map_cons, List.mem_cons, not_or] at h
    rw [assign, if_neg (Ne.symm h.1), ih h.2, List.cons_append]

/-- The entry of a key that is there is exchanged in its place. -/
theorem assign_append_cons {α : Type} {key : String} {value old : α}
    {before after : List (String × α)} (h : key ∉ before.map Prod.fst) :
    assign key value (before ++ (key, old) :: after) = before ++ (key, value) :: after := by
  induction before with
  | nil => simp [assign]
  | cons entry before ih =>
    obtain ⟨k, v⟩ := entry
    rw [List.map_cons, List.mem_cons, not_or] at h
    rw [List.cons_append, assign, if_neg (Ne.symm h.1), ih h.2, List.cons_append]

namespace Dictionary

variable {α : Type}

theorem eq_of_entries_eq {d e : Dictionary α} (h : d.entries = e.entries) : d = e := by
  cases d
  cases e
  cases h
  rfl

/-- Inserting different keys, none of them there before, lists them after the others. -/
theorem entries_foldl_insert {d : Dictionary α} {entries : List (String × α)}
    (h : ((d.entries ++ entries).map Prod.fst).Nodup) :
    (entries.foldl (fun d (key, value) => d.insert key value) d).entries =
      d.entries ++ entries := by
  induction entries generalizing d with
  | nil => rw [List.foldl_nil, List.append_nil]
  | cons e rest ih =>
    obtain ⟨key, value⟩ := e
    have hnew : key ∉ d.entries.map Prod.fst := by
      rw [List.map_append, List.map_cons, List.nodup_append] at h
      exact fun hmem => h.2.2 key hmem key List.mem_cons_self rfl
    have hinsert : (d.insert key value).entries = d.entries ++ [(key, value)] :=
      assign_of_not_mem hnew
    have hsplit : (d.insert key value).entries ++ rest = d.entries ++ (key, value) :: rest := by
      rw [hinsert, List.append_assoc, List.singleton_append]
    rw [List.foldl_cons, ih (by rwa [hsplit]), hsplit]

theorem entries_ofList {entries : List (String × α)} (h : (entries.map Prod.fst).Nodup) :
    (ofList entries).entries = entries :=
  entries_foldl_insert (by simpa [empty] using h)

/-- The entry of a key is the only one with this key. -/
theorem lookup_eq_some_iff_mem {entries : List (String × α)} (h : (entries.map Prod.fst).Nodup)
    {key : String} {value : α} : entries.lookup key = some value ↔ (key, value) ∈ entries := by
  induction entries with
  | nil => simp
  | cons e rest ih =>
    obtain ⟨k, v⟩ := e
    rw [List.map_cons, List.nodup_cons] at h
    by_cases hkey : key = k
    · subst hkey
      have hrest : (key, value) ∉ rest := fun hmem => h.1 (List.mem_map.mpr ⟨_, hmem, rfl⟩)
      simp [hrest, eq_comm]
    · have hother : (key == k) = false := by simpa using hkey
      simp only [List.lookup_cons, hother, ih h.2, List.mem_cons, Prod.mk.injEq, hkey, false_and,
        false_or]

theorem get?_eq_some_iff {d : Dictionary α} {key : String} {value : α} :
    d.get? key = some value ↔ (key, value) ∈ d.entries :=
  lookup_eq_some_iff_mem d.distinct

theorem lookup_assign (key k : String) (value : α) (entries : List (String × α)) :
    (assign key value entries).lookup k = if k = key then some value else entries.lookup k := by
  induction entries with
  | nil =>
    by_cases h : k = key
    · simp [assign, h]
    · simp [assign, List.lookup_cons, beq_false_of_ne h, h]
  | cons e rest ih =>
    obtain ⟨k', v⟩ := e
    rw [assign]
    by_cases hkey : k' = key
    · rw [if_pos hkey, List.lookup_cons, List.lookup_cons, hkey]
      by_cases h : k = key
      · simp [h]
      · rw [beq_false_of_ne h, if_neg h]
    · rw [if_neg hkey, List.lookup_cons, List.lookup_cons, ih]
      by_cases h : k = key
      · rw [if_pos h, if_pos h, beq_false_of_ne (h ▸ Ne.symm hkey)]
      · rw [if_neg h, if_neg h]

theorem get?_insert (d : Dictionary α) (key k : String) (value : α) :
    (d.insert key value).get? k = if k = key then some value else d.get? k :=
  lookup_assign key k value d.entries

end Dictionary

namespace RenameTable

/-- A rename table is filled like the dictionary of the folded names. -/
theorem names_foldl_insert (table : RenameTable) (pairs : List (String × String)) :
    (pairs.foldl (fun table (name, replacement) => table.insert name replacement) table).names =
      (pairs.map fun (name, replacement) => (Text.foldCase name, replacement)).foldl
        (fun d (key, value) => d.insert key value) table.names := by
  induction pairs generalizing table with
  | nil => rfl
  | cons pair rest ih =>
    rw [List.foldl_cons, ih, List.map_cons, List.foldl_cons]
    rfl

/-- If no two of the names are the same word, a word has the replacement of the name that it is. -/
theorem get?_ofList_eq_some_iff {pairs : List (String × String)}
    (h : (pairs.map fun (name, _) => Text.foldCase name).Nodup) {word replacement : String} :
    (ofList pairs).get? word = some replacement ↔
      ∃ name, (name, replacement) ∈ pairs ∧ Text.sameWord word name = true := by
  have hkeys : ((pairs.map fun (name, replacement) => (Text.foldCase name, replacement)).map
      Prod.fst).Nodup := by
    rw [List.map_map]
    exact h
  rw [get?, Dictionary.get?_eq_some_iff, ofList, names_foldl_insert,
    show empty.names = Dictionary.empty from rfl, ← Dictionary.ofList,
    Dictionary.entries_ofList hkeys, List.mem_map]
  constructor
  · rintro ⟨⟨name, r⟩, hmem, heq⟩
    obtain ⟨hword, rfl⟩ := Prod.mk.inj heq
    exact ⟨name, hmem, Text.sameWord_iff.mpr hword.symm⟩
  · rintro ⟨name, hmem, hword⟩
    exact ⟨_, hmem, Prod.ext (Text.sameWord_iff.mp hword).symm rfl⟩

end RenameTable

end VbaModules
