import VbaModules.Casing.Spelling
import VbaModules.Proofs.FoldedLexing
import VbaModules.Proofs.Lookup

/-!
# Spellings once settled

A speller fills its table as it goes along, so what becomes of a token seems to depend on all that
was read before. But an entry stays as it is once it is there, and therefore a run can be told by
the table at its end alone: every token gets the spelling that is settled then
(`Speller.spellAfter_spec`).

This holds for names in ASCII. The table is kept by the full lower-case form of a name, which tells
ASCII names apart exactly as comparing them without regard to case does. With other letters a
spelling could become another word than the name it is for.
-/

namespace VbaModules

open Text

/-! ### ASCII texts -/

namespace Text

/-- A text whose characters are all in ASCII. -/
def IsAscii (s : String) : Prop :=
  ∀ c ∈ s.toList, c.toNat < 0x80

instance (s : String) : Decidable (IsAscii s) :=
  decidable_of_iff (s.toList.all (·.toNat < 0x80) = true) (by simp [IsAscii])

/-- What holds of the first 128 characters holds of an ASCII character. -/
theorem of_ascii {p : Char → Prop} (h : ∀ n < 0x80, p (Char.ofNat n)) {c : Char}
    (hc : c.toNat < 0x80) : p c := by
  rw [← Char.ofNat_toNat c]
  exact h c.toNat hc

/-- Small letters do not show which case was there before. -/
theorem toLower_toUpper {c : Char} (hc : c.toNat < 0x80) : c.toUpper.toLower = c.toLower :=
  of_ascii (p := fun c => c.toUpper.toLower = c.toLower) (by decide) hc

/-- Capital letters are capital letters of themselves. -/
theorem toUpper_toUpper {c : Char} (hc : c.toNat < 0x80) : c.toUpper.toUpper = c.toUpper :=
  of_ascii (p := fun c => c.toUpper.toUpper = c.toUpper) (by decide) hc

theorem toNat_toUpper_lt {c : Char} (hc : c.toNat < 0x80) : c.toUpper.toNat < 0x80 :=
  of_ascii (p := fun c => c.toUpper.toNat < 0x80) (by decide) hc

theorem toNat_toLower_lt {c : Char} (hc : c.toNat < 0x80) : c.toLower.toNat < 0x80 :=
  of_ascii (p := fun c => c.toLower.toNat < 0x80) (by decide) hc

/-- In ASCII, small letters do not depend on what stands around them. -/
theorem lowerAfter_of_ascii {cs : List Char} (h : ∀ c ∈ cs, c.toNat < 0x80) (before : List Char) :
    lowerAfter before cs = cs.map Char.toLower := by
  induction cs generalizing before with
  | nil => rfl
  | cons c cs ih =>
    obtain ⟨hc, hcs⟩ := List.forall_mem_cons.mp h
    have hsigma : (c == 'Σ') = false :=
      of_ascii (p := fun c => (c == 'Σ') = false) (by decide) hc
    rw [lowerAfter, hsigma, ih hcs, lowerChar, if_pos hc]
    rfl

/-- In ASCII the lower-case form is the folded form. -/
theorem lower_eq_foldCase {s : String} (h : IsAscii s) : lower s = foldCase s := by
  rw [lower, lowerAfter_of_ascii h, foldCase]

/-- ASCII texts are the same word exactly if they agree in small letters. -/
theorem lower_eq_iff_sameWord {s t : String} (hs : IsAscii s) (ht : IsAscii t) :
    lower s = lower t ↔ sameWord s t = true := by
  rw [lower_eq_foldCase hs, lower_eq_foldCase ht, sameWord_iff]

end Text

/-! ### Case styles -/

namespace NameStyle

section Equations

variable {name : String} {first second : Char} {rest : List Char}

/-- In the Pascal style, the first letter is a capital. -/
theorem apply_pascal (hname : name.toList = first :: rest) (hfirst : first.toNat < 0x80) :
    pascal.apply name = String.ofList (first.toUpper :: rest) := by
  simp only [apply, hname, upperChar, if_pos hfirst, List.singleton_append]

/-- In the camel style, a single letter is a small one. -/
theorem apply_camel_letter (hname : name.toList = [first]) (hfirst : first.toNat < 0x80) :
    camel.apply name = String.ofList [first.toLower] := by
  have hascii : IsAscii name := by simpa [IsAscii, hname] using hfirst
  simp only [apply, hname, lower_eq_foldCase hascii, foldCase, List.map_cons, List.map_nil]

/-- In the camel style, a longer name begins with a small letter, unless it is all capitals. -/
theorem apply_camel (hname : name.toList = first :: second :: rest) (hfirst : first.toNat < 0x80) :
    camel.apply name =
      if upper name = name then name else String.ofList (first.toLower :: second :: rest) := by
  simp only [apply, hname, lowerChar, if_pos hfirst, List.singleton_append]

end Equations

/-- A style writes a name as it is, or with a small or a capital first letter. -/
theorem apply_cases (style : NameStyle) {name : String} (h : IsAscii name) :
    style.apply name = name ∨ ∃ first rest, name.toList = first :: rest ∧
      (style.apply name = String.ofList (first.toLower :: rest) ∨
        style.apply name = String.ofList (first.toUpper :: rest)) := by
  cases hname : name.toList with
  | nil =>
    obtain rfl := String.toList_eq_nil_iff.mp hname
    exact .inl (by cases style <;> rfl)
  | cons first rest =>
    have hfirst : first.toNat < 0x80 := h first (by rw [hname]; exact List.mem_cons_self)
    cases style with
    | pascal => exact .inr ⟨first, rest, rfl, .inr (apply_pascal hname hfirst)⟩
    | camel =>
      cases rest with
      | nil => exact .inr ⟨first, [], rfl, .inl (apply_camel_letter hname hfirst)⟩
      | cons second rest =>
        rw [apply_camel hname hfirst]
        split
        · exact .inl rfl
        · exact .inr ⟨first, second :: rest, rfl, .inl rfl⟩

/-- A style makes ASCII names of ASCII names. -/
theorem isAscii_apply (style : NameStyle) {name : String} (h : IsAscii name) :
    IsAscii (style.apply name) := by
  rcases style.apply_cases h with heq | ⟨first, rest, hname, heq | heq⟩
  · rwa [heq]
  all_goals
    rw [IsAscii, hname, List.forall_mem_cons] at h
    rw [heq, IsAscii, String.toList_ofList, List.forall_mem_cons]
  · exact ⟨toNat_toLower_lt h.1, h.2⟩
  · exact ⟨toNat_toUpper_lt h.1, h.2⟩

/-- A style changes letter case only. -/
theorem sameWord_apply (style : NameStyle) {name : String} (h : IsAscii name) :
    sameWord (style.apply name) name = true := by
  rw [sameWord_iff]
  rcases style.apply_cases h with heq | ⟨first, rest, hname, heq | heq⟩
  · rw [heq]
  all_goals
    rw [IsAscii, hname, List.forall_mem_cons] at h
    rw [heq, foldCase, foldCase, hname, String.toList_ofList, List.map_cons, List.map_cons]
  · rw [toLower_toLower]
  · rw [toLower_toUpper h.1]

/-- **A name in a style stays as it is** when it is written in that style again. -/
theorem apply_apply (style : NameStyle) {name : String} (h : IsAscii name) :
    style.apply (style.apply name) = style.apply name := by
  cases hname : name.toList with
  | nil =>
    obtain rfl := String.toList_eq_nil_iff.mp hname
    cases style <;> rfl
  | cons first rest =>
    have hfirst : first.toNat < 0x80 := h first (by rw [hname]; exact List.mem_cons_self)
    have hsmall := toNat_toLower_lt hfirst
    cases style with
    | pascal =>
      rw [apply_pascal hname hfirst,
        apply_pascal String.toList_ofList (toNat_toUpper_lt hfirst), toUpper_toUpper hfirst]
    | camel =>
      cases rest with
      | nil =>
        rw [apply_camel_letter hname hfirst, apply_camel_letter String.toList_ofList hsmall,
          toLower_toLower]
      | cons second rest =>
        by_cases hcapitals : upper name = name
        · have hkept : camel.apply name = name := by rw [apply_camel hname hfirst, if_pos hcapitals]
          rw [hkept, hkept]
        · rw [apply_camel hname hfirst, if_neg hcapitals,
            apply_camel String.toList_ofList hsmall, toLower_toLower, ite_self]

end NameStyle

/-! ### Keywords -/

namespace Keyword

/-- The editor's spelling of a word stands in the table. -/
theorem mem_all_of_editorSpelling? {word spelling : String}
    (h : editorSpelling? word = some spelling) :
    spelling ∈ all ∧ sameWord spelling word = true := by
  obtain ⟨before, after, hsplit, -⟩ := List.lookup_eq_some_iff.mp h
  have hmem : (foldCase word, spelling) ∈ byFolded := by
    rw [hsplit]
    exact List.mem_append_right _ List.mem_cons_self
  obtain ⟨entry, hentry, heq⟩ := List.mem_map.mp hmem
  obtain ⟨hfold, rfl⟩ := Prod.mk.inj heq
  exact ⟨hentry, sameWord_iff.mpr hfold⟩

/-- The editor's spelling of a keyword is the same word. -/
theorem sameWord_of_editorSpelling? {word spelling : String}
    (h : editorSpelling? word = some spelling) : sameWord spelling word = true :=
  (mem_all_of_editorSpelling? h).2

/-- The editor's spelling of a keyword is its own spelling. -/
theorem editorSpelling?_of_editorSpelling? {word spelling : String}
    (h : editorSpelling? word = some spelling) : editorSpelling? spelling = some spelling := by
  rw [← h, editorSpelling?, editorSpelling?, sameWord_iff.mp (sameWord_of_editorSpelling? h)]

end Keyword

namespace Speller

/-! ### The table -/

/-- What is settled in one speller **is settled the same way** in the other, and the styles agree.
-/
structure SettledIn (s s' : Speller) : Prop where
  style_eq : s'.style = s.style
  settled? : ∀ {name spelling}, s.settled? name = some spelling → s'.settled? name = some spelling

theorem SettledIn.refl (s : Speller) : s.SettledIn s :=
  ⟨rfl, id⟩

/-- What is settled stays settled along the way. -/
theorem SettledIn.trans {s s' s'' : Speller} (h : s.SettledIn s') (h' : s'.SettledIn s'') :
    s.SettledIn s'' :=
  ⟨h'.style_eq.trans h.style_eq, fun hname => h'.settled? (h.settled? hname)⟩

/-- The table **has grown in style**: what was settled stays, and a spelling that has come in since
is one that the style leaves as it is. -/
structure Grown (s s' : Speller) : Prop extends SettledIn s s' where
  choose_eq : ∀ {name spelling}, IsAscii name → s.settled? name = none →
    s'.settled? name = some spelling → s.choose spelling = spelling

theorem Grown.refl (s : Speller) : s.Grown s :=
  ⟨.refl s, fun _ hnone hsome => by rw [hnone] at hsome; cases hsome⟩

/-- A filled table chooses new spellings as before. -/
theorem SettledIn.choose_eq {s s' : Speller} (h : s.SettledIn s') (name : String) :
    s'.choose name = s.choose name := by
  rw [choose, choose, h.style_eq]

/-- What is not settled later was not settled before. -/
theorem SettledIn.settled?_eq_none {s s' : Speller} (h : s.SettledIn s') {name : String}
    (hnone : s'.settled? name = none) : s.settled? name = none := by
  cases hsettled : s.settled? name with
  | none => rfl
  | some spelling =>
    rw [h.settled? hsettled] at hnone
    cases hnone

/-- Tables grow along the way. -/
theorem Grown.trans {s s' s'' : Speller} (h : s.Grown s') (h' : s'.Grown s'') : s.Grown s'' := by
  refine ⟨h.toSettledIn.trans h'.toSettledIn, fun {name spelling} hname hnone hsome => ?_⟩
  cases hbetween : s'.settled? name with
  | none =>
    rw [← h.toSettledIn.choose_eq]
    exact h'.choose_eq hname hbetween hsome
  | some first =>
    rw [h'.settled? hbetween, Option.some.injEq] at hsome
    exact h.choose_eq hname hnone (hsome ▸ hbetween)

/-- A name that is settled gets its spelling, and the table stays as it is. -/
theorem settle_of_some {s : Speller} {name spelling : String}
    (h : s.settled? name = some spelling) : s.settle name = (spelling, s) := by
  rw [settle, h]

/-- A name that is not settled gets the spelling that is chosen for it, and the table has it from
then on. -/
theorem settle_of_none {s : Speller} {name : String} (h : s.settled? name = none) :
    s.settle name = (s.choose name,
      { s with spellings := s.spellings.insert (lower name) (s.choose name) }) := by
  rw [settle, h]

/-- A spelling that is entered is the one of all names that agree in small letters, and of no
others. -/
theorem settled?_insert (s : Speller) (name spelling other : String) :
    settled? { s with spellings := s.spellings.insert (lower name) spelling } other =
      if lower other = lower name then some spelling else s.settled? other :=
  Dictionary.get?_insert _ _ _ _

/-- Names that agree in small letters have the same spelling. -/
theorem settled?_congr (s : Speller) {name other : String} (h : lower name = lower other) :
    s.settled? name = s.settled? other := by
  rw [settled?, settled?, h]

/-- A name is settled after settling it. -/
theorem settled?_settle (s : Speller) (name : String) :
    (s.settle name).2.settled? name = some (s.settle name).1 := by
  cases h : s.settled? name with
  | some spelling => rw [settle_of_some h, h]
  | none => rw [settle_of_none h, settled?_insert, if_pos rfl]

/-- Settling a name changes no spelling that is settled already. -/
theorem settledIn_settle (s : Speller) (name : String) : s.SettledIn (s.settle name).2 := by
  cases h : s.settled? name with
  | some spelling =>
    rw [settle_of_some h]
    exact .refl s
  | none =>
    rw [settle_of_none h]
    refine ⟨rfl, fun {other spelling} hother => ?_⟩
    rw [settled?_insert, if_neg, hother]
    intro hlower
    rw [s.settled?_congr hlower, h] at hother
    cases hother

/-- **The last override** of a name is its spelling. -/
theorem settled?_override (s : Speller) (names : List String) (name : String) :
    (s.override names).settled? name =
      (names.reverse.find? (lower · == lower name)).or (s.settled? name) := by
  induction names generalizing s with
  | nil => rfl
  | cons first names ih =>
    have hfirst : s.override (first :: names) = override
        { s with spellings := s.spellings.insert (lower first) first } names := rfl
    rw [hfirst, ih, settled?_insert, List.reverse_cons, List.find?_append, Option.or_assoc,
      List.find?_singleton]
    by_cases h : lower first = lower name
    · simp [h]
    · simp [h, Ne.symm h]

/-! ### Spellings in ASCII -/

/-- The spellings of ASCII names are **the names in another letter case**. -/
def Faithful (s : Speller) : Prop :=
  ∀ {name spelling}, IsAscii name → s.settled? name = some spelling →
    IsAscii spelling ∧ sameWord spelling name = true

/-- Spellings chosen for ASCII names are ASCII. -/
theorem isAscii_choose (s : Speller) {name : String} (h : IsAscii name) :
    IsAscii (s.choose name) := by
  rw [choose]
  cases s.style with
  | none => exact h
  | some style => exact style.isAscii_apply h

/-- A spelling that is chosen for a name is the same word. -/
theorem sameWord_choose (s : Speller) {name : String} (h : IsAscii name) :
    sameWord (s.choose name) name = true := by
  rw [choose]
  cases s.style with
  | none => exact sameWord_iff.mpr rfl
  | some style => exact style.sameWord_apply h

/-- Choosing once more changes nothing. -/
theorem choose_choose (s : Speller) {name : String} (h : IsAscii name) :
    s.choose (s.choose name) = s.choose name := by
  rw [choose, choose]
  cases s.style with
  | none => rfl
  | some style => exact style.apply_apply h

/-- Settling an ASCII name brings in a spelling that the style leaves as it is. -/
theorem grown_settle (s : Speller) {name : String} (h : IsAscii name) :
    s.Grown (s.settle name).2 := by
  refine ⟨s.settledIn_settle name, fun {other spelling} hother hnone hsome => ?_⟩
  cases hsettled : s.settled? name with
  | some first =>
    rw [settle_of_some hsettled, hnone] at hsome
    cases hsome
  | none =>
    rw [settle_of_none hsettled, settled?_insert] at hsome
    split at hsome
    · rw [← Option.some.inj hsome, s.choose_choose h]
    · rw [hnone] at hsome
      cases hsome

/-- A table is faithful after overriding it by ASCII names. -/
theorem faithful_override {overrides : List String} (h : ∀ name ∈ overrides, IsAscii name)
    (style : Option NameStyle) : ((ofStyle style).override overrides).Faithful := by
  intro name spelling hname hsettled
  rw [settled?_override, show (ofStyle style).settled? name = none from rfl, Option.or_none]
    at hsettled
  have hmem := h spelling (List.mem_reverse.mp (List.mem_of_find?_eq_some hsettled))
  exact ⟨hmem, (lower_eq_iff_sameWord hmem hname).mp (by simpa using List.find?_some hsettled)⟩

/-- A faithful table stays so when an ASCII name is settled. -/
theorem Faithful.settle {s : Speller} (h : s.Faithful) {name : String} (hname : IsAscii name) :
    (s.settle name).2.Faithful := by
  cases hsettled : s.settled? name with
  | some spelling =>
    rw [settle_of_some hsettled]
    exact h
  | none =>
    intro other spelling hother hspelling
    rw [settle_of_none hsettled, settled?_insert] at hspelling
    split at hspelling
    next hlower =>
      have hsame : sameWord other name = true := (lower_eq_iff_sameWord hother hname).mp hlower
      cases hspelling
      refine ⟨s.isAscii_choose hname, ?_⟩
      rw [sameWord_iff, sameWord_iff.mp (s.sameWord_choose hname), sameWord_iff.mp hsame]
    next => exact h hother hspelling

end Speller

namespace Speller

/-! ### Entry points -/

/-- Whether the name at position `i` is that of an external procedure, where `before` is the last
token before the list that is not blank. -/
def isEntryPointAfter (before : Option Token) (tokens : List Token) (i : Nat) : Bool :=
  isEntryPoint (((tokens.take i).reverse.find? (!·.isBlank)).or before) (tokens.drop (i + 1))

/-- Whether the name at position `i` stands **between `Function` or `Sub` and `Lib`**, blanks
aside. -/
def isEntryPointAt (tokens : List Token) (i : Nat) : Bool :=
  isEntryPointAfter none tokens i

/-- An entry point is told by the last token before it that is not blank. -/
theorem isEntryPointAfter_cons_succ (before : Option Token) (t : Token) (ts : List Token)
    (i : Nat) :
    isEntryPointAfter before (t :: ts) (i + 1) =
      isEntryPointAfter (if t.isBlank then before else some t) ts i := by
  rw [isEntryPointAfter, isEntryPointAfter, List.take_succ_cons, List.reverse_cons,
    List.find?_append, List.find?_singleton, List.drop_succ_cons, Option.or_assoc]
  cases t.isBlank <;> rfl

/-- Whether something is an entry point does not depend on letter case. -/
theorem isEntryPoint_map_fold (before : Option Token) (after : List Token) :
    isEntryPoint (before.map Token.fold) (after.map Token.fold) = isEntryPoint before after := by
  simp only [isEntryPoint, Option.any_map, List.find?_map, keepsWords_fold.not_isBlank_comp,
    keepsWords_fold.spells_eq]

/-- Entry points are told by the folded tokens. -/
theorem isEntryPointAfter_map_fold (before : Option Token) (tokens : List Token) (i : Nat) :
    isEntryPointAfter (before.map Token.fold) (tokens.map Token.fold) i =
      isEntryPointAfter before tokens i := by
  rw [isEntryPointAfter, isEntryPointAfter, ← List.map_take, ← List.map_reverse, List.find?_map,
    keepsWords_fold.not_isBlank_comp, ← List.map_drop, ← Option.map_or, isEntryPoint_map_fold]

/-! ### Spelling by a table that is filled -/

/-- A token in the spelling that is settled for it. -/
def settledToken (s : Speller) (entryPoint : Bool) (t : Token) : Token :=
  match t.kind with
  | .reserved => { t with text := (Keyword.editorSpelling? t.text).getD t.text }
  | .name => if entryPoint then t else { t with text := (s.settled? t.text).getD t.text }
  | _ => t

/-- Tokens in the spellings that are settled for them. -/
def settledTokens (s : Speller) (before : Option Token) (tokens : List Token) : List Token :=
  tokens.mapIdx fun i t => s.settledToken (isEntryPointAfter before tokens i) t

/-- The tokens are spelled one after the other, each with the one before it in view. -/
theorem settledTokens_cons (s : Speller) (before : Option Token) (t : Token) (ts : List Token) :
    s.settledTokens before (t :: ts) =
      s.settledToken (isEntryPoint before ts) t ::
        s.settledTokens (if t.isBlank then before else some t) ts := by
  rw [settledTokens, List.mapIdx_cons]
  simp only [isEntryPointAfter_cons_succ]
  rfl

/-- The names of the tokens are in ASCII. -/
def AsciiNames (tokens : List Token) : Prop :=
  ∀ t ∈ tokens, t.kind = .name → IsAscii t.text

/-- The spellings of all names are settled, those of entry points apart. -/
def Settles (s : Speller) (before : Option Token) (tokens : List Token) : Prop :=
  ∀ i t, tokens[i]? = some t → t.kind = .name → isEntryPointAfter before tokens i = false →
    ∃ spelling, s.settled? t.text = some spelling

/-- Spelling keeps kinds. -/
theorem kind_settledToken (s : Speller) (entryPoint : Bool) (t : Token) :
    (s.settledToken entryPoint t).kind = t.kind := by
  unfold settledToken
  split
  · rfl
  · split <;> rfl
  · rfl

/-- A settled spelling is the token in another letter case. -/
theorem Faithful.fold_settledToken {s : Speller} (h : s.Faithful) (entryPoint : Bool) {t : Token}
    (ht : t.kind = .name → IsAscii t.text) : (s.settledToken entryPoint t).fold = t.fold := by
  refine Token.mk.injEq .. |>.mpr ⟨s.kind_settledToken entryPoint t, ?_⟩
  unfold settledToken
  split
  next =>
    cases hword : Keyword.editorSpelling? t.text with
    | none => rfl
    | some spelling => exact sameWord_iff.mp (Keyword.sameWord_of_editorSpelling? hword)
  next hname =>
    split
    · rfl
    · cases hsettled : s.settled? t.text with
      | none => rfl
      | some spelling => exact sameWord_iff.mp (h (ht hname) hsettled).2
  next => rfl

/-- A spelling that is settled is not changed by a table that has more. -/
theorem SettledIn.settledToken_eq {s s' : Speller} (h : s.SettledIn s') {entryPoint : Bool}
    {t : Token} (ht : t.kind = .name → entryPoint = false →
      ∃ spelling, s.settled? t.text = some spelling) :
    s'.settledToken entryPoint t = s.settledToken entryPoint t := by
  unfold settledToken
  split
  next => rfl
  next hname =>
    cases entryPoint with
    | true => rfl
    | false =>
      obtain ⟨spelling, hsettled⟩ := ht hname rfl
      rw [hsettled, h.settled? hsettled]
  next => rfl

/-! ### Spelling a module -/

/-- **One token**: its spelling is the one settled afterwards, and what was settled stays. -/
theorem respell_spec {s : Speller} (hs : s.Faithful) (before : Option Token) {t : Token}
    (ht : t.kind = .name → IsAscii t.text) (after : List Token) :
    (s.respell before t after).1 =
        (s.respell before t after).2.settledToken (isEntryPoint before after) t ∧
      s.Grown (s.respell before t after).2 ∧ (s.respell before t after).2.Faithful ∧
      (t.kind = .name → isEntryPoint before after = false →
        ∃ spelling, (s.respell before t after).2.settled? t.text = some spelling) := by
  obtain ⟨kind, text⟩ := t
  cases kind with
  | name =>
    cases hentry : isEntryPoint before after with
    | true =>
      have hkept : s.respell before ⟨.name, text⟩ after = (⟨.name, text⟩, s) := if_pos hentry
      rw [hkept]
      exact ⟨rfl, .refl s, hs, fun _ h => by cases h⟩
    | false =>
      have hspelled : s.respell before ⟨.name, text⟩ after =
          (⟨.name, (s.settle text).1⟩, (s.settle text).2) := if_neg (by simp [hentry])
      have hsettled := s.settled?_settle text
      rw [hspelled]
      refine ⟨?_, s.grown_settle (ht rfl), hs.settle (ht rfl), fun _ _ => ⟨_, hsettled⟩⟩
      simp only [settledToken, hsettled, Bool.false_eq_true, if_false, Option.getD_some]
  | _ => exact ⟨rfl, .refl s, hs, fun h => by cases h⟩

/-- A token whose spelling is settled leaves the table as it is. -/
theorem respell_snd_of_settled {s : Speller} {before : Option Token} {t : Token}
    {after : List Token}
    (h : t.kind = .name → isEntryPoint before after = false →
      ∃ spelling, s.settled? t.text = some spelling) : (s.respell before t after).2 = s := by
  obtain ⟨kind, text⟩ := t
  cases kind with
  | name =>
    cases hentry : isEntryPoint before after with
    | true => exact congrArg Prod.snd (if_pos hentry)
    | false =>
      obtain ⟨spelling, hspelling⟩ := h rfl hentry
      have hsettle : (s.respell before ⟨.name, text⟩ after).2 = (s.settle text).2 :=
        congrArg Prod.snd (if_neg (by simp [hentry]))
      rw [hsettle, settle_of_some hspelling]
  | _ => rfl

/-- What the next token sees before it is the same in any letter case. -/
theorem Faithful.map_fold_respell {s : Speller} (hs : s.Faithful) {t : Token}
    (ht : t.kind = .name → IsAscii t.text) {before before' : Option Token}
    (hbefore : before.map Token.fold = before'.map Token.fold) (ts : List Token) :
    (if (s.respell before t ts).1.isBlank then before else some (s.respell before t ts).1).map
        Token.fold = (if t.isBlank then before' else some t).map Token.fold := by
  obtain ⟨hfirst, -, hfaithful, -⟩ := respell_spec hs before ht ts
  have hfold : (s.respell before t ts).1.fold = t.fold := by
    rw [hfirst, hfaithful.fold_settledToken _ ht]
  have hblank : (s.respell before t ts).1.isBlank = t.isBlank := by
    rw [← keepsWords_fold.isBlank_eq, hfold, keepsWords_fold.isBlank_eq]
  rw [hblank]
  split
  · exact hbefore
  · rw [Option.map_some, Option.map_some, hfold]

/-- Only the folded token before it matters to an entry point. -/
theorem isEntryPoint_congr {before before' : Option Token}
    (h : before.map Token.fold = before'.map Token.fold) (after : List Token) :
    isEntryPoint before after = isEntryPoint before' after := by
  rw [← isEntryPoint_map_fold, h, isEntryPoint_map_fold]

/-- Spelling goes on with the table that the first token left. -/
theorem spellAfter_cons (before : Option Token) (s : Speller) (t : Token) (ts : List Token) :
    spellAfter before s (t :: ts) =
      let first := s.respell before t ts
      let rest := spellAfter (if first.1.isBlank then before else some first.1) first.2 ts
      (first.1 :: rest.1, rest.2) :=
  rfl

/-- **A run over tokens**: the spellings are those settled at its end. The token `before` may be in
another letter case than the one the run has seen. -/
theorem spellAfter_spec {s : Speller} (hs : s.Faithful) {ts : List Token} (hts : AsciiNames ts)
    {before before' : Option Token} (hbefore : before.map Token.fold = before'.map Token.fold) :
    (spellAfter before s ts).1 = (spellAfter before s ts).2.settledTokens before' ts ∧
      s.Grown (spellAfter before s ts).2 ∧ (spellAfter before s ts).2.Faithful ∧
      (spellAfter before s ts).2.Settles before' ts := by
  induction ts generalizing s before before' with
  | nil => exact ⟨rfl, .refl s, hs, fun i t ht => by cases ht⟩
  | cons t ts ih =>
    obtain ⟨ht, hts⟩ := List.forall_mem_cons.mp hts
    obtain ⟨hfirst, hgrown, hfaithful, hsettles⟩ := respell_spec hs before ht ts
    rw [isEntryPoint_congr hbefore] at hfirst hsettles
    have hnext := hs.map_fold_respell ht hbefore ts
    obtain ⟨hrest, hmore, hfaithful', hsettles'⟩ := ih hfaithful hts hnext
    rw [spellAfter_cons]
    refine ⟨?_, hgrown.trans hmore, hfaithful', fun i u hu hname hfree => ?_⟩
    · rw [settledTokens_cons, hmore.toSettledIn.settledToken_eq hsettles, ← hfirst, ← hrest]
    · cases i with
      | zero =>
        cases hu
        obtain ⟨spelling, hspelling⟩ := hsettles hname hfree
        exact ⟨spelling, hmore.settled? hspelling⟩
      | succ i =>
        rw [isEntryPointAfter_cons_succ] at hfree
        exact hsettles' i u hu hname hfree

/-- A run over tokens whose spellings are all settled leaves the table as it is. -/
theorem Settles.spellAfter_snd {s : Speller} (hs : s.Faithful) {ts : List Token}
    (hts : AsciiNames ts) {before before' : Option Token}
    (hbefore : before.map Token.fold = before'.map Token.fold) (h : s.Settles before' ts) :
    (spellAfter before s ts).2 = s := by
  induction ts generalizing before before' with
  | nil => rfl
  | cons t ts ih =>
    obtain ⟨ht, hts⟩ := List.forall_mem_cons.mp hts
    have hfirst : (s.respell before t ts).2 = s := by
      refine respell_snd_of_settled fun hname hfree => h 0 t rfl hname ?_
      rw [isEntryPoint_congr hbefore] at hfree
      exact hfree
    have hrest : s.Settles (if t.isBlank then before' else some t) ts := by
      intro i u hu hname hfree
      rw [← isEntryPointAfter_cons_succ] at hfree
      exact h (i + 1) u hu hname hfree
    rw [spellAfter_cons]
    simp only [hfirst]
    exact ih hts (hs.map_fold_respell ht hbefore ts) hrest

end Speller

end VbaModules
