import Mathlib.Data.List.Forall2
import VbaModules.Proofs.FoldedLexing

/-!
# Modules that differ in the case of letters

Two texts that are equal ignoring ASCII case have the same folded text, so their tokens have the
same folded forms. From there on only the folded forms are read: the sections are found in the same
places, the option statements have the same normal forms, and the private symbols are the same words
in the same order (`reading_eq_of_sameWord`).
-/

namespace VbaModules

open Text

/-! ### Option statements -/

theorem OptionStatement.normalForm_map_fold (tokens : List Token) :
    normalForm (tokens.map Token.fold) = normalForm tokens := by
  have hwords : ((tokens.map Token.fold).filter (!·.isFiller)).map (fun t => lower (trim t.text)) =
      (tokens.filter (!·.isFiller)).map fun t => lower (trim t.text) := by
    rw [List.filter_map, List.map_map]
    refine List.map_congr_left fun t _ => ?_
    rw [Function.comp_apply, Token.fold, trim_foldCase, lower_foldCase]
  rw [normalForm, normalForm, hwords]

/-! ### Private symbols -/

theorem keepsMarks_fold (t : Token) : KeepsMarks Token.fold t := by
  intro mark hmark
  simp only [List.mem_cons, List.not_mem_nil, or_false] at hmark
  rcases hmark with rfl | rfl | rfl
  · exact foldCase_eq_iff (c := '(') rfl (by decide)
  · exact foldCase_eq_iff (c := ')') rfl (by decide)
  · exact foldCase_eq_iff (c := ',') rfl (by decide)

theorem nameAt?_map_fold (tokens : List Token) (position : Nat) :
    nameAt? (tokens.map Token.fold) position = (nameAt? tokens position).map foldCase := by
  rw [nameAt?, nameAt?, List.getElem?_map]
  cases tokens[position]? with
  | none => rfl
  | some t =>
    have hname : t.fold.isName = t.isName := rfl
    rw [Option.map_some, Option.filter_some, Option.filter_some, hname]
    split <;> rfl

theorem privateNames_map_fold (tokens : List Token) :
    privateNames (tokens.map Token.fold) = (privateNames tokens).map foldCase := by
  have hpositions : privatePositions (tokens.map Token.fold) = privatePositions tokens :=
    keepsWords_fold.privatePositions_map fun t _ => keepsMarks_fold t
  rw [privateNames, privateNames, namesAt, namesAt, hpositions, funext (nameAt?_map_fold tokens),
    ← firstSpellings_map, List.map_filterMap]
  intro a _ b _
  rw [sameWord, sameWord, foldCase_foldCase, foldCase_foldCase]

/-! ### Texts equal ignoring case -/

/-- Lists with the same changed forms agree on them place by place. -/
theorem forall₂_of_map_eq {α β : Type} {f : α → β} {as bs : List α} (h : as.map f = bs.map f) :
    List.Forall₂ (fun a b => f a = f b) as bs := by
  have heq : List.Forall₂ Eq (as.map f) (bs.map f) := by
    rw [h, List.forall₂_eq_eq_eq]
  rwa [List.forall₂_map_left_iff, List.forall₂_map_right_iff] at heq

/-- **Reading does not depend on the case of letters.** For texts that are equal ignoring ASCII
case: there are as many tokens in the one as in the other, of the same kinds and with texts equal
ignoring case in the same places; the sections take the same spans and are of the same kinds; the
option statements have the same normal forms; and the private symbols are the same words in the same
order. -/
theorem reading_eq_of_sameWord {s s' : String} (h : sameWord s s' = true) :
    List.Forall₂ (fun t t' => t.kind = t'.kind ∧ sameWord t.text t'.text = true)
        (Lexer.lex s) (Lexer.lex s') ∧
      Partition.spans (Lexer.lex s) = Partition.spans (Lexer.lex s') ∧
      OptionStatement.ofSections (Partition.sections (Lexer.lex s)) =
        OptionStatement.ofSections (Partition.sections (Lexer.lex s')) ∧
      List.Forall₂ (fun name name' => sameWord name name' = true)
        (privateNames (Lexer.lex s)) (privateNames (Lexer.lex s')) := by
  have htokens : (Lexer.lex s).map Token.fold = (Lexer.lex s').map Token.fold := by
    rw [← Lexer.lex_foldCase, ← Lexer.lex_foldCase, sameWord_iff.mp h]
  refine ⟨?_, ?_, ?_, ?_⟩
  · refine List.Forall₂.imp (fun t t' heq => ?_) (forall₂_of_map_eq htokens)
    obtain ⟨hkind, htext⟩ := Token.mk.inj heq
    exact ⟨hkind, sameWord_iff.mpr htext⟩
  · rw [← keepsWords_fold.spans_map, htokens, keepsWords_fold.spans_map]
  · rw [← OptionStatement.ofSections_mapTokens OptionStatement.normalForm_map_fold,
      ← keepsWords_fold.sections_map, htokens, keepsWords_fold.sections_map,
      OptionStatement.ofSections_mapTokens OptionStatement.normalForm_map_fold]
  · have hnames : (privateNames (Lexer.lex s)).map foldCase =
        (privateNames (Lexer.lex s')).map foldCase := by
      rw [← privateNames_map_fold, htokens, privateNames_map_fold]
    exact List.Forall₂.imp (fun _ _ heq => sameWord_iff.mpr heq) (forall₂_of_map_eq hnames)

/-- A module with a conditional block, an option statement, private symbols and a remark. -/
def windowText : String :=
  "#If Win64 Then\n#End If\nOption Explicit\nPrivate Wide, High As Long\nRem Sizes\n"

/-- The same module in another spelling. -/
def respelledWindowText : String :=
  "#IF win64 THEN\n#end if\noption EXPLICIT\nPRIVATE wide, HIGH as LONG\nREM sizes\n"

theorem reading_eq_windowText :
    sameWord windowText respelledWindowText = true ∧
      List.Forall₂ (fun t t' => t.kind = t'.kind ∧ sameWord t.text t'.text = true)
        (Lexer.lex windowText) (Lexer.lex respelledWindowText) ∧
      Partition.spans (Lexer.lex windowText) = Partition.spans (Lexer.lex respelledWindowText) ∧
      OptionStatement.ofSections (Partition.sections (Lexer.lex windowText)) =
        OptionStatement.ofSections (Partition.sections (Lexer.lex respelledWindowText)) ∧
      List.Forall₂ (fun name name' => sameWord name name' = true)
        (privateNames (Lexer.lex windowText)) (privateNames (Lexer.lex respelledWindowText)) := by
  have hsame : sameWord windowText respelledWindowText = true := by
    simp [sameWord, foldCase, windowText, respelledWindowText]
  exact ⟨hsame, reading_eq_of_sameWord hsame⟩

end VbaModules
