import VbaModules.Proofs.Composition
import VbaModules.Proofs.NamingLines

/-!
# The header of a merged module

A merged module begins with a line that gives its name, and the name read from the merged text is
the one it was merged under: the given name, or else that of the first source
(`declaredName?_lex_of_merge`). A given name must not be empty nor have quotes or line breaks in it.
The name of a source may be anything that the lexer takes out of a literal, so it may have pairs of
quotes in it, or end with a quote that does not close its literal.
-/

namespace VbaModules

open Lexer

/-- What a merged module is written from. -/
theorem merge_eq_ok_iff {bundle : Bundle} {name? : Option String} {out : String} :
    merge bundle name? = .ok out ↔
      ∃ m, Assembly.ofBundle bundle name? = .ok m ∧ out = m.render := by
  rw [merge]
  cases Assembly.ofBundle bundle name? with
  | error e => simp [Except.map]
  | ok m => simp [Except.map, eq_comm]

/-- The header stands first in the text. -/
theorem Assembly.render_eq (m : Assembly) :
    m.render = namingText m.name ++
      String.join ((m.layoutFrom none m.sections).map Piece.render) := by
  rw [render, layout, List.map_cons, String.join_cons]
  rfl

/-- The name of a module merged from texts fits into the literal of its header. -/
theorem fitsLiteral_name_of_ofBundle {texts : List (String × String)} {name? : Option String}
    {m : Assembly} (hname : ∀ name ∈ name?, isQuotable name = true)
    (h : Assembly.ofBundle (Bundle.ofTexts texts) name? = .ok m) : FitsLiteral m.name := by
  have heq := Assembly.name_eq_of_ofBundle_eq_ok h
  cases name? with
  | some name =>
    obtain rfl : m.name = name := by simpa using heq
    exact .of_isQuotable (hname _ rfl)
  | none =>
    obtain ⟨entry, hhead, hdeclared⟩ := Option.bind_eq_some_iff.mp heq.symm
    obtain ⟨text, -, hlex⟩ := Bundle.exists_text_of_mem_ofTexts (List.mem_of_head? hhead)
    rw [hlex] at hdeclared
    exact fitsLiteral_of_declaredName? hdeclared

/-- **The header reads back**: if texts are merged, the name that the merged module gives itself is
the given name, or that of the first source if none is given. -/
theorem declaredName?_lex_of_merge {texts : List (String × String)} {name? : Option String}
    {out : String} (hname : ∀ name ∈ name?, isQuotable name = true)
    (hmerge : merge (Bundle.ofTexts texts) name? = .ok out) :
    ∃ name, name?.or ((Bundle.ofTexts texts).entries.head?.bind fun source =>
        declaredName? source.2) = some name ∧
      declaredName? (lex out) = some name := by
  obtain ⟨m, hm, rfl⟩ := merge_eq_ok_iff.mp hmerge
  refine ⟨m.name, (Assembly.name_eq_of_ofBundle_eq_ok hm).symm, ?_⟩
  rw [m.render_eq, lex_namingText_append_eq (fitsLiteral_name_of_ofBundle hname hm)]
  exact declaredName?_namingLine_append _ _

/-! ### A module that leaves its literal open -/

/-- A text alone can be merged if it gives its name. -/
theorem exists_merge_singleton (origin : String) {text name : String}
    (h : declaredName? (lex text) = some name) (name? : Option String) :
    (Bundle.ofTexts [(origin, text)]).entries = [(origin, lex text)] ∧
      ∃ out, merge (Bundle.ofTexts [(origin, text)]) name? = .ok out := by
  have hentries : (Bundle.ofTexts [(origin, text)]).entries = [(origin, lex text)] :=
    Bundle.entries_ofTexts rfl (by simp)
  have hprepared : prepared? (origin, lex text) = some (.named origin name (lex text)) :=
    prepared?_eq_some_iff.mpr (prepare_eq_ok_iff.mpr ⟨name, h, rfl⟩)
  have hoptions : sourceOptions? (origin, lex text) = some
      (OptionStatement.ofSections (Prepared.named origin name (lex text)).sections) := by
    rw [sourceOptions?, hprepared, Option.map_some]
  have hmodule : ∃ m, Assembly.ofBundle (Bundle.ofTexts [(origin, text)]) name? = .ok m :=
    Assembly.exists_ofBundle_eq_ok_iff.mpr
      ⟨by rw [hentries]; simp, _, by rw [hentries]; simpa using hoptions⟩
  obtain ⟨m, hm⟩ := hmodule
  exact ⟨hentries, m.render, merge_eq_ok_iff.mpr ⟨m, hm, rfl⟩⟩

/-- A literal of three letters and two quotes: the last one is half of a pair, so the literal is not
closed and a quote belongs to the name. -/
theorem fitsLiteral_openName : FitsLiteral "Row\"" where
  ne_empty := by decide
  exists_literalTail := ⟨false, .char (by decide) rfl <| .char (by decide) rfl <|
    .char (by decide) rfl <| .pair .unclosed⟩

/-- A module with such a name keeps it when it is merged, unless it is given another. -/
theorem declaredName?_merge_openName :
    (∃ out, merge (Bundle.ofTexts [("row.bas", namingText "Row\"")]) none = .ok out ∧
      declaredName? (lex out) = some "Row\"") ∧
    ∃ out, merge (Bundle.ofTexts [("row.bas", namingText "Row\"")]) (some "All rows") = .ok out ∧
      declaredName? (lex out) = some "All rows" := by
  have hname : declaredName? (lex (namingText "Row\"")) = some "Row\"" := by
    rw [lex_namingText fitsLiteral_openName]
    exact declaredName?_namingLine_append _ []
  constructor
  · obtain ⟨hentries, out, hout⟩ := exists_merge_singleton "row.bas" hname none
    obtain ⟨name, hfirst, hread⟩ := declaredName?_lex_of_merge (fun _ h => by cases h) hout
    rw [hentries, List.head?_cons, Option.bind_some, hname] at hfirst
    obtain rfl := Option.some.inj hfirst
    exact ⟨out, hout, hread⟩
  · obtain ⟨-, out, hout⟩ := exists_merge_singleton "row.bas" hname (some "All rows")
    have hquotable : ∀ name ∈ some "All rows", isQuotable name = true := by
      rintro name ⟨⟩
      decide
    obtain ⟨name, hgiven, hread⟩ := declaredName?_lex_of_merge hquotable hout
    obtain rfl := Option.some.inj hgiven
    exact ⟨out, hout, hread⟩

end VbaModules
