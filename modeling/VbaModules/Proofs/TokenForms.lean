import VbaModules.Proofs.DirectiveLines
import VbaModules.Proofs.NameTokens
import VbaModules.Proofs.Respelling
import VbaModules.Proofs.WrittenBlocks

/-!
# The forms of tokens

Every token of a module has the form of its kind where it stands (`wellFormed_lex`). The form is a
condition on the text of the token, and for most kinds also on its surroundings: a word is as long
as it can be, a directive begins a line, a remark begins a statement, and a name that is no free
word stands between quotes in a naming line.

The forms are told of the finished tokens, while the lexer decides by a state of its own and takes
literals apart afterwards. So two things are carried along the tokens. The state of the lexer is the
one that the finished tokens before lead to, since the parts of a literal lead to the same state as
the literal. And where a literal is due to be taken apart, the start of a naming line stands in the
current line (`NamingOpen`).
-/

namespace VbaModules

open Text Token

/-! ### Keywords -/

/-- The words that are reserved are those of the table, ignoring ASCII case. -/
theorem Keyword.contains_iff {word : String} :
    contains word = true ↔ ∃ keyword ∈ all, sameWord word keyword = true := by
  constructor
  · intro h
    obtain ⟨spelling, hspelling⟩ := Option.isSome_iff_exists.mp h
    obtain ⟨hmem, hsame⟩ := mem_all_of_editorSpelling? hspelling
    exact ⟨spelling, hmem, by rwa [sameWord_comm]⟩
  · rintro ⟨keyword, hkeyword, hsame⟩
    exact Lexer.contains_of_mem hkeyword (sameWord_iff.mp hsame)

namespace Lexer

/-! ### Longest texts -/

/-- The text satisfies `p` and is **the longest that does** from where it begins, with `rest` after
it. -/
def Longest (p : List Char → Prop) (text rest : List Char) : Prop :=
  p text ∧ ∀ more, more <+: rest → p (text ++ more) → more = []

/-- A text ends where the class of its characters does. -/
theorem Longest.of_notNext {p : List Char → Prop} {q : Char → Bool} {text rest : List Char}
    (hp : ∀ cs, p cs → ∀ c ∈ cs, q c = true) (htext : p text) (hrest : NotNext q rest) :
    Longest p text rest := by
  refine ⟨htext, fun more hmore hlonger => ?_⟩
  cases more with
  | nil => rfl
  | cons c more =>
    obtain ⟨tail, rfl⟩ := hmore
    have hc : q c = true := hp _ hlonger c (List.mem_append_right _ List.mem_cons_self)
    rw [List.cons_append, notNext_cons, hc] at hrest
    cases hrest

/-- Blanks and line continuations, beginning with a blank. -/
def IsSpace (text : List Char) : Prop :=
  ∃ c cs, text = c :: cs ∧ isBlankChar c = true ∧ Spacing cs

theorem longest_isSpace {c : Char} {cs rest : List Char} (hc : isBlankChar c = true)
    (hcs : Spacing cs) (hends : SpaceEnds rest) (hunsplit : Unsplit cs rest) :
    Longest IsSpace (c :: cs) rest := by
  refine ⟨⟨c, cs, rfl, hc, hcs⟩, ?_⟩
  rintro more ⟨tail, rfl⟩ ⟨d, ds, heq, -, hds⟩
  rw [List.cons_append, List.cons.injEq] at heq
  obtain ⟨rfl, rfl⟩ := heq
  -- the reader of blanks takes all of the longer text, and it has stopped before
  have hlength := hds.length_le_spaceLength_append tail
  rw [List.append_assoc, hcs.spaceLength_append hends hunsplit, List.length_append] at hlength
  exact List.eq_nil_of_length_eq_zero (by omega)

/-- A word that begins with a digit or an underscore. -/
def IsNumeral (text : List Char) : Prop :=
  ∃ c cs, text = c :: cs ∧ (c.isDigit = true ∨ c = '_') ∧ ∀ d ∈ cs, isWordChar d = true

theorem IsNumeral.forall_isWordChar {text : List Char} (h : IsNumeral text) :
    ∀ c ∈ text, isWordChar c = true := by
  obtain ⟨c, cs, rfl, hc, hcs⟩ := h
  exact List.forall_mem_cons.mpr ⟨(isAlpha_eq_false_of_isDigit hc).2, hcs⟩

/-! ### Forms -/

/-- The text of a remark: the word `Rem`, and after it either nothing or a blank and more. -/
def IsRemark (text : List Char) : Prop :=
  ∃ word cs, text = word ++ cs ∧ sameWord (String.ofList word) "rem" = true ∧
    NotNext (!isBlankChar ·) cs

/-- Only blanks stand after the last statement separator. -/
def FollowsSeparator (before : List Token) : Prop :=
  ∃ earlier gap, before = earlier ++ ⟨.unknown, ":"⟩ :: gap ∧ ∀ t ∈ gap, t.isBlank = true

/-- The start of a naming line stands before, in the same line. -/
def OnNamingLine (before : List Token) : Prop :=
  ∃ earlier line, before = earlier ++ line ∧ beginsNameLine line = true ∧
    ∀ t ∈ line, t.isLineBreak = false

/-- A quote that opens or closes the name of a naming line. -/
def QuotesName (before after : List Token) : Prop :=
  (∃ name rest, after = ⟨.name, name⟩ :: quoteToken :: rest) ∨
    ∃ earlier name, before = earlier ++ [quoteToken, ⟨.name, name⟩]

/-- **The form of a token** of the given kind and text between the tokens `before` and `after`. -/
def HasForm (before : List Token) (kind : Token.Kind) (text : List Char) (after : List Token) :
    Prop :=
  match kind with
  | .lineBreak =>
    IsBreak text ∧ (text = ['\r'] → ∀ next ∈ after.head?, next.text.toList.head? ≠ some '\n')
  | .blank => (before = [] ∧ text = ['\uFEFF']) ∨ Longest IsSpace text (charsOf after)
  | .comment =>
    (∀ c ∈ text, isBreakChar c = false) ∧
      (text.head? = some '\'' ∨
        IsRemark text ∧ (beginsLine before before.length = true ∨ FollowsSeparator before))
  | .conditional d =>
    (∃ cs, text = '#' :: cs ∧ DirectiveText d cs) ∧ beginsLine before before.length = true
  | .reserved =>
    Longest (isIdentifier · = true) text (charsOf after) ∧
      ∃ keyword ∈ Keyword.all, sameWord (String.ofList text) keyword = true
  | .name =>
    (Longest (isIdentifier · = true) text (charsOf after) ∧
      ∀ keyword ∈ Keyword.all, sameWord (String.ofList text) keyword = false) ∨
    (text ≠ [] ∧ (∀ c ∈ text, isBreakChar c = false) ∧ after.head? = some quoteToken ∧
      ∃ earlier, before = earlier ++ [quoteToken] ∧ OnNamingLine earlier)
  | .string => text.head? = some '"' ∧ ∀ c ∈ text, isBreakChar c = false
  | .unknown =>
    (∃ c, text = [c] ∧
      (isOther c = true ∨ c = '#' ∨ c = '&' ∨ c = '"' ∧ QuotesName before after)) ∨
    Longest IsNumeral text (charsOf after) ∨
    ∃ cs, text = '&' :: cs ∧ RadixText cs (charsOf after)

/-- **Every token has the form of its kind** where it stands. -/
def WellFormed (tokens : List Token) : Prop :=
  ∀ before t after, tokens = before ++ t :: after → HasForm before t.kind t.text.toList after

/-! ### The state of the lexer -/

/-- The state of the lexer after the tokens of a module so far. -/
def stateAfter (before : List Token) : LineState :=
  before.foldl LineState.after .start

theorem stateAfter_concat (before : List Token) (t : Token) :
    stateAfter (before ++ [t]) = (stateAfter before).after t := by
  rw [stateAfter, List.foldl_concat]
  rfl

theorem atStart_foldl_after (before : List Token) (state : LineState) :
    (before.foldl LineState.after state).atStart = before.foldl lineStartAfter state.atStart := by
  induction before generalizing state with
  | nil => rfl
  | cons t before ih => rw [List.foldl_cons, List.foldl_cons, ih, LineState.atStart_after]

/-- The lexer is at the start of a line where the searches see one. -/
theorem atStart_stateAfter (before : List Token) :
    (stateAfter before).atStart = beginsLine before before.length := by
  rw [beginsLine, List.take_length]
  exact atStart_foldl_after before .start

/-- The lexer knows of a separator only where blanks alone stand after it. -/
theorem followsSeparator_of_afterSeparator {before : List Token}
    (h : (stateAfter before).afterSeparator = true) : FollowsSeparator before := by
  induction before using List.reverseRecOn with
  | nil => cases h
  | append_singleton before t ih =>
    rw [stateAfter_concat, LineState.after] at h
    split at h
    next => cases h
    next hkind =>
      obtain ⟨earlier, gap, rfl, hgap⟩ := ih h
      refine ⟨earlier, gap ++ [t], by simp, List.forall_mem_append.mpr ⟨hgap, ?_⟩⟩
      exact List.forall_mem_singleton.mpr (beq_iff_eq.mpr hkind)
    next =>
      simp only [Bool.and_eq_true, beq_iff_eq] at h
      refine ⟨before, [], ?_, by simp⟩
      rw [← h.1, ← h.2]

/-! ### The tokens that are scanned -/

/-- **A lexeme has the form of its kind.** -/
theorem Lexeme.hasForm {before after : List Token} {kind : Token.Kind} {text : List Char}
    (h : Lexeme (stateAfter before) kind text (charsOf after)) :
    HasForm before kind text after := by
  cases h with
  | lineBreak htext hunsplit =>
    refine ⟨htext, ?_⟩
    rintro rfl next hnext hhead
    obtain ⟨rest, rfl⟩ := List.head?_eq_some_iff.mp hnext
    -- the line feed would have been cut off with the carriage return
    have hfeed : (charsOf (next :: rest)).head? = some '\n' := by
      rw [charsOf_cons, List.head?_append, hhead, Option.some_or]
    simpa using hunsplit rfl '\n' hfeed
  | blank hc hcs hends hunsplit => exact .inr (longest_isSpace hc hcs hends hunsplit)
  | literal hcs _ =>
    exact ⟨rfl, List.forall_mem_cons.mpr ⟨by decide, hcs.isBreakChar_eq_false⟩⟩
  | comment hcs _ => exact ⟨List.forall_mem_cons.mpr ⟨by decide, hcs⟩, .inl rfl⟩
  | remark hstate hword hrem hgap hcs hends =>
    have hplain := (Lexeme.remark hstate hword hrem hgap hcs hends).isBreakChar_eq_false
      (by decide) (by decide)
    refine ⟨hplain, .inr ⟨⟨_, _, rfl, hrem, hgap⟩, ?_⟩⟩
    rw [LineState.mayBegin, Bool.or_eq_true, atStart_stateAfter] at hstate
    exact hstate.imp_right followsSeparator_of_afterSeparator
  | directive hstate hcs _ =>
    rw [atStart_stateAfter] at hstate
    exact ⟨⟨_, rfl, hcs⟩, hstate⟩
  | numberSign => exact .inl ⟨'#', rfl, .inr (.inl rfl)⟩
  | radix hcs => exact .inr (.inr ⟨_, rfl, hcs⟩)
  | ampersand => exact .inl ⟨'&', rfl, .inr (.inr (.inl rfl))⟩
  | word hcs hends _ =>
    have hlongest : Longest (isIdentifier · = true) text (charsOf after) :=
      .of_notNext (fun _ => forall_isWordChar_of_isIdentifier) hcs hends
    rw [wordKind]
    split
    next hcontains => exact ⟨hlongest, Keyword.contains_iff.mp hcontains⟩
    next hcontains =>
      rw [Keyword.contains_iff] at hcontains
      refine .inl ⟨hlongest, fun keyword hkeyword => ?_⟩
      exact Bool.eq_false_iff.mpr fun hsame => hcontains ⟨keyword, hkeyword, hsame⟩
  | number hc hcs hends =>
    refine .inr (.inl (.of_notNext (fun _ => IsNumeral.forall_isWordChar) ?_ hends))
    exact ⟨_, _, rfl, hc, hcs⟩
  | other hc => exact .inl ⟨_, rfl, .inl hc⟩

/-! ### Along the tokens -/

/-- The tokens have their forms when the tokens `before` stand before them. -/
def FormedAfter (before : List Token) : List Token → Prop
  | [] => True
  | t :: ts => HasForm before t.kind t.text.toList ts ∧ FormedAfter (before ++ [t]) ts

theorem FormedAfter.hasForm {before ts : List Token} (h : FormedAfter before ts)
    {between after : List Token} {t : Token} (hsplit : ts = between ++ t :: after) :
    HasForm (before ++ between) t.kind t.text.toList after := by
  induction between generalizing before ts with
  | nil =>
    subst hsplit
    rw [List.append_nil]
    exact h.1
  | cons u between ih =>
    subst hsplit
    have hrest := ih h.2 rfl
    rwa [List.append_assoc, List.singleton_append] at hrest

theorem wellFormed_of_formedAfter {ts : List Token} (h : FormedAfter [] ts) : WellFormed ts :=
  fun _ _ _ hsplit => h.hasForm hsplit

/-- The start of a naming line stands before in the current line, or has begun there and goes on in
the tokens `ts`. -/
def NamingOpen (before ts : List Token) : Prop :=
  ∃ earlier line, before = earlier ++ line ∧ line ≠ [] ∧ beginsNameLine (line ++ ts) = true ∧
    ∀ t ∈ line, t.isLineBreak = false

theorem NamingOpen.concat {before ts : List Token} {t : Token} (h : NamingOpen before (t :: ts))
    (hbreak : t.isLineBreak = false) : NamingOpen (before ++ [t]) ts := by
  obtain ⟨earlier, line, rfl, -, hbegins, hline⟩ := h
  refine ⟨earlier, line ++ [t], by simp, by simp, by simpa using hbegins, ?_⟩
  exact List.forall_mem_append.mpr ⟨hline, List.forall_mem_singleton.mpr hbreak⟩

/-- The start of a naming line has no literal in it, so before a literal it is complete. -/
theorem NamingOpen.onNamingLine {before ts : List Token} {t : Token}
    (h : NamingOpen before (t :: ts)) (ht : t.kind = .string) : OnNamingLine before := by
  obtain ⟨earlier, line, rfl, hne, hbegins, hline⟩ := h
  refine ⟨earlier, line, rfl, ?_, hline⟩
  rcases line with _ | ⟨a, _ | ⟨s, _ | ⟨v, line⟩⟩⟩
  · exact absurd rfl hne
  · cases ts with
    | nil => cases hbegins
    | cons v ts => simp [beginsNameLine, Token.isBlank, ht] at hbegins
  · simp [beginsNameLine, ht] at hbegins
  · exact hbegins

theorem OnNamingLine.namingOpen_append {before more : List Token} (h : OnNamingLine before)
    (hmore : ∀ t ∈ more, t.isLineBreak = false) (ts : List Token) :
    NamingOpen (before ++ more) ts := by
  obtain ⟨earlier, line, rfl, hbegins, hline⟩ := h
  refine ⟨earlier, line ++ more, by simp, ?_, ?_, List.forall_mem_append.mpr ⟨hline, hmore⟩⟩
  · rintro hnil
    rw [(List.append_eq_nil_iff.mp hnil).1] at hbegins
    cases hbegins
  · rcases line with _ | ⟨a, _ | ⟨s, _ | ⟨v, line⟩⟩⟩
    · cases hbegins
    · cases hbegins
    · cases hbegins
    · exact hbegins

theorem Cuts.charsOf_splitNames {state : LineState} {ts : List Token} (h : Cuts state ts)
    (due : Nat) : charsOf (splitNames due ts) = charsOf ts := by
  rw [← h.scan_eq, charsOf_splitNames_scan, h.scan_eq]

/-- A token that is kept has the form of its lexeme. -/
theorem formedAfter_cons_splitNames {before ts : List Token} {t : Token} {due : Nat}
    (h : Cuts (stateAfter before) (t :: ts))
    (hrest : Cuts (stateAfter (before ++ [t])) ts →
      FormedAfter (before ++ [t]) (splitNames due ts)) :
    FormedAfter before (t :: splitNames due ts) := by
  cases h with
  | cons hlexeme hcuts =>
    rw [← stateAfter_concat] at hcuts
    rw [← hcuts.charsOf_splitNames due] at hlexeme
    exact ⟨hlexeme.hasForm, hrest hcuts⟩

/-- The three tokens in the place of a literal. -/
def quotedName (name : String) : List Token :=
  [quoteToken, ⟨.name, name⟩, quoteToken]

/-- The parts of a literal have their forms in a naming line. -/
theorem formedAfter_quotedName {before ts : List Token} {name : String}
    (hnaming : OnNamingLine before) (hname : name ≠ "")
    (hplain : ∀ c ∈ name.toList, isBreakChar c = false)
    (hrest : FormedAfter (before ++ quotedName name) ts) :
    FormedAfter before (quotedName name ++ ts) := by
  refine ⟨.inl ⟨'"', rfl, ?_⟩, .inr ⟨?_, hplain, rfl, before, rfl, hnaming⟩,
    .inl ⟨'"', rfl, ?_⟩, ?_⟩
  · exact .inr (.inr (.inr ⟨rfl, .inl ⟨name, ts, rfl⟩⟩))
  · rwa [ne_eq, String.toList_eq_nil_iff]
  · exact .inr (.inr (.inr ⟨rfl, .inr ⟨before, name, by simp⟩⟩))
  · simpa [quotedName] using hrest

/-- The parts of a literal lead to the same state as the literal. -/
theorem stateAfter_quotedName (before : List Token) {t : Token} (ht : t.kind = .string)
    (name : String) :
    stateAfter (before ++ quotedName name) = (stateAfter before).after t := by
  rw [stateAfter, List.foldl_append, LineState.after, ht]
  rfl

/-- **The second pass gives the tokens their forms.** The induction is along the pass; what it has
made so far leads to the state in which the rest was scanned. -/
theorem formedAfter_splitNames (due : Nat) (before : List Token) {ts : List Token}
    (hcuts : Cuts (stateAfter before) ts) (hdue : due ≠ 0 → NamingOpen before ts) :
    FormedAfter before (splitNames due ts) := by
  fun_induction splitNames due ts generalizing before with
  | case1 => trivial
  | case2 due t ts hbreak ih =>
    exact formedAfter_cons_splitNames hcuts fun hrest => ih _ hrest (absurd rfl)
  | case3 due t ts hbreak hliteral name hname ih =>
    have ht := kind_eq_string_of_due hliteral
    have hnaming : OnNamingLine before := by
      rw [Bool.and_eq_true, bne_iff_ne] at hliteral
      exact (hdue hliteral.2).onNamingLine ht
    cases hcuts with
    | cons hlexeme hcuts =>
      obtain ⟨hne, c, htext⟩ := unquoted?_eq_some hname
      -- the literal stands on the line that names the module, and has no line break in it
      have hplain : ∀ d ∈ name.toList, isBreakChar d = false := by
        have hall := hlexeme.isBreakChar_eq_false (by simp [ht]) (by simp [ht])
        rw [htext] at hall
        exact fun d hd => hall d (by simp [hd])
      rw [← stateAfter_quotedName before ht name] at hcuts
      have hopen := @OnNamingLine.namingOpen_append before (quotedName name) hnaming
        (by simp [quotedName, quoteToken, Token.isLineBreak]) ts
      exact formedAfter_quotedName hnaming hne hplain (ih _ hcuts fun _ => hopen)
  | case4 due t ts hbreak hliteral hname ih =>
    exact formedAfter_cons_splitNames hcuts fun hrest => ih _ hrest (absurd rfl)
  | case5 due t ts hbreak hliteral hbegins ih =>
    refine formedAfter_cons_splitNames hcuts fun hrest => ih _ hrest fun _ => ?_
    exact ⟨before, [t], rfl, by simp, hbegins, by simpa using hbreak⟩
  | case6 due t ts hbreak hliteral hbegins ih =>
    refine formedAfter_cons_splitNames hcuts fun hrest => ih _ hrest fun hne => ?_
    exact (hdue hne).concat (by simpa using hbreak)

/-- **Every token of a module has the form of its kind.** -/
theorem wellFormed_lex (text : String) : WellFormed (lex text) := by
  refine wellFormed_of_formedAfter ?_
  rw [lex_eq_splitNames]
  unfold scanModule
  split
  next cs _ =>
    rw [splitNames_cons_of_isFiller rfl]
    exact ⟨.inl ⟨rfl, rfl⟩, formedAfter_splitNames 0 [markToken] (cuts_scan .start cs) (absurd rfl)⟩
  next => exact formedAfter_splitNames 0 [] (cuts_scan .start _) (absurd rfl)

end Lexer

end VbaModules
