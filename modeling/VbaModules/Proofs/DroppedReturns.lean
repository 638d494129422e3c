import VbaModules.Proofs.SpaceChanges

/-!
# Merging takes no notice of carriage returns

Carriage returns are part of blanks, where a line is continued, and of line breaks. Dropping them
from these tokens (`Token.dropReturns`) leaves what is merged from a bundle as it is, and likewise
the error if the bundle cannot be merged (`merge_mapValues_dropReturns`).

The change keeps the code, so it could show in the blocks of the merged module only, and these are
written without carriage returns (`Section.block_mapTokens_dropReturns`).
-/

namespace VbaModules

open Text

/-! ### Dropping carriage returns -/

/-- The token without the carriage returns of the line breaks in it. A token that is neither blank
nor a line break stays as it is. -/
def Token.dropReturns (t : Token) : Token :=
  if t.isBlank || t.isLineBreak then { t with text := withoutReturns t.text } else t

namespace Token

/-- A token of code stays as it is, with any carriage returns in it. -/
theorem dropReturns_of_eq_false {t : Token} (hblank : t.isBlank = false)
    (hbreak : t.isLineBreak = false) : t.dropReturns = t := by
  rw [dropReturns, hblank, hbreak]
  rfl

theorem kind_dropReturns (t : Token) : t.dropReturns.kind = t.kind := by
  rw [dropReturns]
  split <;> rfl

/-- The characters of a text without its carriage returns. -/
theorem toList_withoutReturns (s : String) :
    (withoutReturns s).toList = s.toList.filter (· != '\r') := by
  rw [withoutReturns, String.toList_ofList]

/-- It does not matter to a text without carriage returns whether its tokens had some. -/
theorem withoutReturns_text_dropReturns (t : Token) :
    withoutReturns t.dropReturns.text = withoutReturns t.text := by
  rw [dropReturns]
  split
  · rw [← String.toList_inj, toList_withoutReturns, toList_withoutReturns, List.filter_filter]
    simp
  · rfl

end Token

/-- Dropping carriage returns changes only blanks and line breaks. -/
theorem keepsCode_dropReturns : KeepsCode Token.dropReturns where
  kind_eq := Token.kind_dropReturns
  eq_self _ hblank hbreak := Token.dropReturns_of_eq_false hblank hbreak
  eq_blank := rfl

/-- No parenthesis or comma comes or goes with the carriage returns. -/
theorem Token.Unmarked.keepsMarks_dropReturns {t : Token} (h : t.Unmarked) :
    KeepsMarks Token.dropReturns t := by
  refine keepsCode_dropReturns.keepsMarks h fun hspace => ?_
  rw [keepsCode_dropReturns.isBlank_eq, keepsCode_dropReturns.isLineBreak_eq] at hspace
  rw [Token.dropReturns, if_pos hspace, Token.toList_withoutReturns]
  exact fun c hc => h hspace c (List.mem_of_mem_filter hc)

/-! ### The text of a merged module -/

/-- The block of a section is written without carriage returns in any case. -/
theorem Section.block_mapTokens_dropReturns (s : Section) :
    (s.mapTokens Token.dropReturns).block = s.block := by
  have htext : withoutReturns (s.mapTokens Token.dropReturns).text = withoutReturns s.text := by
    rw [← String.toList_inj, Token.toList_withoutReturns, Token.toList_withoutReturns, text, text,
      Token.toList_textOf, Token.toList_textOf, mapTokens]
    simp only [List.flatMap_map, List.filter_flatMap, ← Token.toList_withoutReturns,
      Token.withoutReturns_text_dropReturns]
  rw [block, block, htext]

/-- And so is the merged text, piece by piece. -/
theorem Assembly.render_mapTokens_dropReturns (m : Assembly) :
    (m.mapTokens Token.dropReturns).render = m.render := by
  have hsame : ∀ piece : Piece, piece.mapBlock id = piece := by
    intro piece
    cases piece <;> rfl
  rw [m.render_mapTokens (g := id) (fun _ s _ => s.block_mapTokens_dropReturns)
    fun _ _ _ => Iff.rfl, render]
  simp only [hsame]

/-- **Merging takes no notice of carriage returns** in blanks and line breaks. -/
theorem merge_mapValues_dropReturns {bundle : Bundle} (name? : Option String)
    (h : ∀ entry ∈ bundle.entries, ∀ t ∈ entry.2, t.Unmarked) :
    merge (bundle.mapValues fun _ tokens => tokens.map Token.dropReturns) name? =
      merge bundle name? := by
  rw [merge, merge, keepsCode_dropReturns.ofBundle_mapValues name? fun entry hentry t ht =>
    (h entry hentry t ht).keepsMarks_dropReturns]
  cases Assembly.ofBundle bundle name? with
  | error e => rfl
  | ok m => exact congrArg Except.ok m.render_mapTokens_dropReturns

end VbaModules
