import VbaModules.Proofs.AliasClauses
import VbaModules.Proofs.NameIsolation
import VbaModules.Proofs.NamePositions

/-!
# Qualifying is a consistent renaming

Within a module, qualifying private names is nothing but a renaming (`qualify_consistent`): take the
inserted clauses away, and every token is as before, except that a spelling of a private name has
become the qualified name. Names that were the same word are so afterwards and others are not, as
long as no qualified name was there before.
-/

namespace VbaModules.Qualify

open Text

/-! ### Single tokens -/

/-- What qualifying makes of a token `t`, given the private names: a token `u` of the same kind,
with the qualified name as text if `t` is a **spelling of a private name**, and `t` itself
otherwise. -/
structure Requalified (module : String) (privates : List String) (t u : Token) : Prop where
  kind_eq : u.kind = t.kind
  text_eq : t.isName = true → ∀ s ∈ privates, sameWord t.text s = true →
    u.text = qualifiedName module s
  eq_self : (t.isName = true → ∀ s ∈ privates, sameWord t.text s = false) → u = t

/-- Whether a token is a spelling of one of the names. -/
def spellsOne (names : List String) (t : Token) : Bool :=
  t.isName && names.any (sameWord t.text)

theorem sameWord_congr {a b c d : String} (hab : sameWord a b = true) (hcd : sameWord c d = true) :
    sameWord a c = sameWord b d := by
  rw [sameWord, sameWord, sameWord_iff.mp hab, sameWord_iff.mp hcd]

/-- Qualified names of one module are the same word exactly if the symbols are. -/
theorem sameWord_qualifiedName (module s t : String) :
    sameWord (qualifiedName module s) (qualifiedName module t) = sameWord s t := by
  rw [Bool.eq_iff_iff, sameWord_iff_toList, sameWord_iff_toList, toList_foldCase_qualifiedName,
    toList_foldCase_qualifiedName, List.append_cancel_left_eq, List.cons.injEq]
  simp

/-- The first spelling of a word is the one found first. -/
theorem find?_of_mem_firstSpellings {names : List String} {s : String}
    (h : s ∈ firstSpellings names) : names.find? (sameWord s) = some s := by
  induction names with
  | nil => cases h
  | cons name names ih =>
    rcases List.mem_cons.mp h with rfl | hmem
    · exact List.find?_cons_of_pos (sameWord_iff.mpr rfl)
    · obtain ⟨hlater, hother⟩ := List.mem_filter.mp hmem
      rw [List.find?_cons_of_neg, ih hlater]
      rw [sameWord_comm]
      simpa using hother

section Token

variable {module word : String} {tokens : List Token} {t t' : Token}

theorem getD_get?_table_of_mem {s : String} (hs : s ∈ privateNames tokens)
    (hword : sameWord word s = true) :
    ((table module tokens).get? word).getD word = qualifiedName module s := by
  rw [get?_table_eq_some_iff.mpr ⟨s, hs, hword, rfl⟩, Option.getD_some]

theorem getD_get?_table_of_not (h : ∀ s ∈ privateNames tokens, sameWord word s = false) :
    ((table module tokens).get? word).getD word = word := by
  have hnone : (table module tokens).get? word = none := by
    by_contra hsome
    obtain ⟨replacement, hget⟩ := Option.ne_none_iff_exists'.mp hsome
    obtain ⟨s, hs, hword, -⟩ := get?_table_eq_some_iff.mp hget
    rw [h s hs] at hword
    cases hword
  rw [hnone, Option.getD_none]

theorem renameToken_eq_of_private (hname : t.isName = true) {s : String}
    (hs : s ∈ privateNames tokens) (hword : sameWord t.text s = true) :
    renameToken (table module tokens).get? t = { t with text := qualifiedName module s } := by
  rw [renameToken, if_pos hname, getD_get?_table_of_mem hs hword]

theorem renameToken_eq_self
    (h : t.isName = true → ∀ s ∈ privateNames tokens, sameWord t.text s = false) :
    renameToken (table module tokens).get? t = t := by
  rw [renameToken]
  split
  next hname => rw [getD_get?_table_of_not (h hname)]
  next => rfl

/-- A token is either a spelling of a private name or not renamed. -/
theorem private_or_not (tokens : List Token) (t : Token) :
    (∃ s ∈ privateNames tokens, t.isName = true ∧ sameWord t.text s = true) ∨
      (t.isName = true → ∀ s ∈ privateNames tokens, sameWord t.text s = false) := by
  by_cases h : ∃ s ∈ privateNames tokens, t.isName = true ∧ sameWord t.text s = true
  · exact .inl h
  · refine .inr fun hname s hs => ?_
    by_contra hword
    exact h ⟨s, hs, hname, by simpa using hword⟩

theorem kind_renameToken (replacement? : String → Option String) (t : Token) :
    (renameToken replacement? t).kind = t.kind := by
  rw [renameToken]
  split <;> rfl

theorem requalified_renameToken (module : String) (tokens : List Token) (t : Token) :
    Requalified module (privateNames tokens) t (renameToken (table module tokens).get? t) where
  kind_eq := kind_renameToken _ t
  text_eq hname s hs hword := by rw [renameToken_eq_of_private hname hs hword]
  eq_self := renameToken_eq_self

/-- No name of the module is one of its **qualified names** already. -/
def Unqualified (module : String) (tokens : List Token) : Prop :=
  ∀ t ∈ tokens, t.isName = true → ∀ s ∈ privateNames tokens,
    sameWord t.text (qualifiedName module s) = false

/-- A name that is not private is no qualified name either, so the two stay apart. -/
theorem sameWord_qualifiedName_eq (h : Unqualified module tokens) (ht' : t' ∈ tokens)
    (hname' : t'.isName = true) {s : String} (hs : s ∈ privateNames tokens)
    (hword : sameWord t.text s = true)
    (hnot : ∀ s ∈ privateNames tokens, sameWord t'.text s = false) :
    sameWord (qualifiedName module s) t'.text = sameWord t.text t'.text := by
  rw [sameWord_comm, h t' ht' hname' s hs, sameWord_congr hword (sameWord_iff.mpr rfl),
    sameWord_comm, hnot s hs]

/-- **Renamed names are the same word exactly if they were before.** -/
theorem sameWord_renameToken (h : Unqualified module tokens) (ht : t ∈ tokens) (ht' : t' ∈ tokens)
    (hname : t.isName = true) (hname' : t'.isName = true) :
    sameWord (renameToken (table module tokens).get? t).text
        (renameToken (table module tokens).get? t').text =
      sameWord t.text t'.text := by
  rcases private_or_not tokens t with ⟨s, hs, -, hword⟩ | hnot
  · rw [renameToken_eq_of_private hname hs hword]
    rcases private_or_not tokens t' with ⟨s', hs', -, hword'⟩ | hnot'
    · rw [renameToken_eq_of_private hname' hs' hword', sameWord_qualifiedName,
        sameWord_congr hword hword']
    · rw [renameToken_eq_self hnot']
      exact sameWord_qualifiedName_eq h ht' hname' hs hword (hnot' hname')
  · rw [renameToken_eq_self hnot]
    rcases private_or_not tokens t' with ⟨s', hs', -, hword'⟩ | hnot'
    · rw [renameToken_eq_of_private hname' hs' hword', sameWord_comm, sameWord_comm t.text]
      exact sameWord_qualifiedName_eq h ht hname hs' hword' (hnot hname)
    · rw [renameToken_eq_self hnot']

/-- The tokens that are changed are the spellings of private names. -/
theorem renameToken_bne_self (h : Unqualified module tokens) (ht : t ∈ tokens) :
    (renameToken (table module tokens).get? t != t) = spellsOne (privateNames tokens) t := by
  rcases private_or_not tokens t with ⟨s, hs, hname, hword⟩ | hnot
  · have hspells : spellsOne (privateNames tokens) t = true := by
      rw [spellsOne, hname, Bool.true_and]
      exact List.any_eq_true.mpr ⟨s, hs, hword⟩
    rw [hspells, renameToken_eq_of_private hname hs hword, bne_iff_ne]
    intro heq
    have htext : qualifiedName module s = t.text := congrArg Token.text heq
    have hqualified := h t ht hname s hs
    rw [htext, sameWord_iff.mpr rfl] at hqualified
    cases hqualified
  · have hspells : spellsOne (privateNames tokens) t = false := by
      rw [spellsOne, Bool.and_eq_false_imp]
      exact fun hname => List.any_eq_false.mpr fun s hs => by simp [hnot hname s hs]
    rw [hspells, renameToken_eq_self hnot, bne_self_eq_false]

end Token

/-! ### Whole modules -/

/-- **Qualifying is a consistent renaming.** If no name of the module is one of its qualified names
already, then without the inserted clauses the qualified module has the same tokens, place by place,
except that each spelling of a private name is the qualified name; two names are the same word
exactly if they were; and the spellings of private names are counted. A private name is spelled as
where it is defined first. -/
theorem qualify_consistent {module : String} {tokens : List Token}
    (h : Unqualified module tokens) :
    ∃ us, withoutAliases (unaliased tokens) (qualify module tokens) = us ∧
      List.Forall₂ (Requalified module (privateNames tokens)) tokens us ∧
      (∀ p ∈ tokens.zip us, ∀ q ∈ tokens.zip us, p.1.isName = true → q.1.isName = true →
        sameWord p.2.text q.2.text = sameWord p.1.text q.1.text) ∧
      countQualified module tokens = tokens.countP (spellsOne (privateNames tokens)) ∧
      ∀ s ∈ privateNames tokens,
        (namesAt tokens (privatePositions tokens)).find? (sameWord s) = some s := by
  refine ⟨renameTokens (table module tokens).get? tokens, ?_, ?_, ?_, ?_, ?_⟩
  · refine withoutAliases_addAliases fun e he => ?_
    rw [renameTokens, List.length_map]
    exact le_length_of_mem_unaliased he
  · rw [renameTokens, List.forall₂_map_right_iff]
    exact List.forall₂_same.mpr fun t _ => requalified_renameToken module tokens t
  · have hpair : ∀ p ∈ tokens.zip (renameTokens (table module tokens).get? tokens),
        p.1 ∈ tokens ∧ p.2 = renameToken (table module tokens).get? p.1 := by
      intro p hp
      rw [renameTokens, ← List.map_prod_left_eq_zip] at hp
      obtain ⟨t, ht, rfl⟩ := List.mem_map.mp hp
      exact ⟨ht, rfl⟩
    intro p hp q hq hname hname'
    obtain ⟨hp, heq⟩ := hpair p hp
    obtain ⟨hq, heq'⟩ := hpair q hq
    rw [heq, heq', sameWord_renameToken h hp hq hname hname']
  · exact List.countP_congr fun t ht => by rw [renameToken_bne_self h ht]
  · exact fun s hs => find?_of_mem_firstSpellings hs

/-! ### A procedure that is called in another spelling -/

/-- The tokens of a module with a private external procedure and a call of it. -/
def bellModule : List Token :=
  [⟨.reserved, "Private"⟩, ⟨.blank, " "⟩, ⟨.reserved, "Declare"⟩, ⟨.blank, " "⟩,
    ⟨.reserved, "Sub"⟩, ⟨.blank, " "⟩, ⟨.name, "Beep"⟩, ⟨.blank, " "⟩, ⟨.reserved, "Lib"⟩,
    ⟨.blank, " "⟩, ⟨.string, "\"kernel32\""⟩, ⟨.lineBreak, "\n"⟩, ⟨.name, "BEEP"⟩,
    ⟨.lineBreak, "\n"⟩]

/-- What is read of the module: its private name, and where a clause is missing. -/
theorem reading_bellModule :
    privateNames bellModule = ["Beep"] ∧ unaliased bellModule = [(11, "Beep")] := by
  decide +kernel

/-- The procedure and its call are renamed alike, and the clause can be removed again. -/
theorem qualify_consistent_bellModule :
    Unqualified "Grid" bellModule ∧
      ∃ us, withoutAliases [(11, "Beep")] (qualify "Grid" bellModule) = us ∧
        List.Forall₂ (Requalified "Grid" ["Beep"]) bellModule us ∧
        countQualified "Grid" bellModule = 2 := by
  obtain ⟨hprivate, hmissing⟩ := reading_bellModule
  have hfresh : Unqualified "Grid" bellModule := by
    rw [Unqualified, hprivate]
    decide
  obtain ⟨us, hus, hrenamed, -, hcount, -⟩ := qualify_consistent hfresh
  rw [hmissing] at hus
  rw [hprivate] at hrenamed hcount
  exact ⟨hfresh, us, hus, hrenamed, hcount.trans (by decide)⟩

end VbaModules.Qualify
