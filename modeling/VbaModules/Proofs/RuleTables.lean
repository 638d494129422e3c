import Mathlib.Data.List.Induction
import VbaModules.Proofs.LetterCase
import VbaModules.Proofs.Lookup
import VbaModules.Rename.Rule

/-!
# Rules made from a rename table

A rename table and a list of rules answer the same question in two ways. The table looks a folded
name up, and an entry that is made again overwrites the former one. The list asks its rules in
turn, and the first one that covers the name decides.

A table that was filled by any insertions answers with the last one for the word
(`RenameTable.get?_ofList`). As its names are kept folded and no two are equal, the rules made from
it give the same answer. Put after other rules they answer where none of those does, and alone they
rename tokens as the table does (`RuleList.addTable_ofList_falls_back`).
-/

namespace VbaModules

open Text

/-! ### Tables with a name entered twice -/

namespace RenameTable

theorem get?_insert (table : RenameTable) (name replacement word : String) :
    (table.insert name replacement).get? word =
      if sameWord word name then some replacement else table.get? word := by
  rw [get?, insert, Dictionary.get?_insert, get?]
  simp only [sameWord_iff]

theorem ofList_concat (pairs : List (String × String)) (pair : String × String) :
    ofList (pairs ++ [pair]) = (ofList pairs).insert pair.1 pair.2 := by
  rw [ofList, List.foldl_append]
  rfl

/-- Of several replacements for a word the one inserted last counts. -/
theorem get?_ofList (pairs : List (String × String)) (word : String) :
    (ofList pairs).get? word =
      (pairs.reverse.find? fun pair => sameWord word pair.1).map Prod.snd := by
  induction pairs using List.reverseRecOn with
  | nil => rfl
  | append_singleton pairs pair ih =>
    rw [ofList_concat, get?_insert, List.reverse_concat, List.find?_cons, ih]
    cases sameWord word pair.1 <;> rfl

/-- The names of a table are kept in folded form. -/
theorem foldCase_of_mem_pairs_ofList {pairs : List (String × String)} {pair : String × String}
    (h : pair ∈ (ofList pairs).pairs) : foldCase pair.1 = pair.1 := by
  have hkey : pair.1 ∈ (ofList pairs).names.entries.map Prod.fst := List.mem_map_of_mem h
  clear h
  induction pairs using List.reverseRecOn with
  | nil => cases hkey
  | append_singleton pairs last ih =>
    rw [ofList_concat] at hkey
    rcases mem_keys_assign.mp hkey with heq | hmem
    · rw [heq, foldCase_foldCase]
    · exact ih hmem

end RenameTable

/-! ### The rules of a table -/

namespace RuleList

/-- A rule covers a name exactly if the list has an answer for it. -/
theorem isSome_replacementFor? (r : RuleList) (name : String) :
    (r.replacementFor? name).isSome = r.covers name := by
  rw [replacementFor?, Option.isSome_map, covers, Bool.eq_iff_iff, List.find?_isSome,
    List.any_eq_true]

/-- Rules that come after others answer where none of those does. -/
theorem replacementFor?_append (rules rules' : List Rule) (name : String) :
    replacementFor? ⟨rules ++ rules'⟩ name =
      (replacementFor? ⟨rules⟩ name).or (replacementFor? ⟨rules'⟩ name) := by
  rw [replacementFor?, List.find?_append, Option.map_or]
  rfl

/-- The rules made from a table replace what the table replaces. -/
theorem replacementFor?_addTable_ofList (pairs : List (String × String)) (word : String) :
    (RuleList.empty.addTable (.ofList pairs)).replacementFor? word =
      (RenameTable.ofList pairs).get? word := by
  have hfolded : ∀ pair ∈ (RenameTable.ofList pairs).pairs, foldCase pair.1 = pair.1 :=
    fun _ => RenameTable.foldCase_of_mem_pairs_ofList
  rw [replacementFor?, addTable, empty, List.nil_append, RenameTable.get?, Dictionary.get?,
    ← RenameTable.pairs]
  generalize (RenameTable.ofList pairs).pairs = entries at hfolded
  induction entries with
  | nil => rfl
  | cons entry entries ih =>
    obtain ⟨hentry, hentries⟩ := List.forall_mem_cons.mp hfolded
    obtain ⟨key, replacement⟩ := entry
    have hcovers : (Rule.exact key replacement).selection.covers word =
        (foldCase word == key) := by
      rw [Rule.exact, Selection.covers, sameWord, hentry, Bool.beq_comm]
    rw [List.map_cons, List.find?_cons, hcovers, List.lookup_cons, ← ih hentries]
    cases foldCase word == key <;> rfl

/-- **A table put after some rules answers where they do not.** The table may be filled by any
insertions, of which the last one for a word counts. Without other rules, renaming by the rules of
the table and renaming by the table itself give the same tokens and the same count. -/
theorem addTable_ofList_falls_back (r : RuleList) (pairs : List (String × String)) :
    (∀ name, (r.addTable (.ofList pairs)).replacementFor? name =
      if r.covers name then r.replacementFor? name else (RenameTable.ofList pairs).get? name) ∧
      (∀ name, (RenameTable.ofList pairs).get? name =
        (pairs.reverse.find? fun pair => sameWord name pair.1).map Prod.snd) ∧
      ∀ tokens,
        renameTokens (RuleList.empty.addTable (.ofList pairs)).replacementFor? tokens =
            renameTokens (RenameTable.ofList pairs).get? tokens ∧
          countRenamed (RuleList.empty.addTable (.ofList pairs)).replacementFor? tokens =
            countRenamed (RenameTable.ofList pairs).get? tokens := by
  have hempty : (RuleList.empty.addTable (.ofList pairs)).replacementFor? =
      (RenameTable.ofList pairs).get? := funext (replacementFor?_addTable_ofList pairs)
  refine ⟨fun name => ?_, RenameTable.get?_ofList pairs, fun tokens => ?_⟩
  · have hor : (r.addTable (.ofList pairs)).replacementFor? name =
        (r.replacementFor? name).or ((RenameTable.ofList pairs).get? name) := by
      rw [← replacementFor?_addTable_ofList, addTable, addTable, empty, List.nil_append]
      exact replacementFor?_append _ _ name
    rw [hor, ← isSome_replacementFor?]
    cases r.replacementFor? name <;> rfl
  · rw [hempty]
    exact ⟨rfl, rfl⟩

-- a test that comes first keeps its names from the table; the later of two insertions counts
example :
    let r : RuleList := RuleList.empty.add ⟨.matching (· == "Wide"), (· ++ "r")⟩
    let pairs := [("wide", "Narrow"), ("Tall", "Short"), ("TALL", "Low")]
    (r.addTable (.ofList pairs)).replacementFor? "Wide" = some "Wider" ∧
      (r.addTable (.ofList pairs)).replacementFor? "WIDE" = some "Narrow" ∧
      (r.addTable (.ofList pairs)).replacementFor? "tall" = some "Low" := by decide

end RuleList

end VbaModules
