import VbaModules.Proofs.Cues
import VbaModules.Proofs.Introductions

/-!
# Fillers

Blanks, comments and line breaks have no part in the meaning of a module. They do not depend on what
stands before them in their line: the rest of a line without code is read in the same way at the
start of a line (`Cuts.start_of_isFiller`). They are not taken apart with the literals
(`splitNames_append_of_isFiller`), and no comment begins like a word that tells something about the
blocks of a module (`Cuts.isIdle_of_isFiller`).
-/

namespace VbaModules.Lexer

open Token Text

/-! ### Literals before and after fillers -/

theorem beginsNameLine_append_of_isFiller {ts us : List Token} (hne : ts ≠ [])
    (h : ∀ t ∈ us, t.isFiller = true) : beginsNameLine (ts ++ us) = beginsNameLine ts := by
  have hword : ∀ t ∈ us, (t.kind == .reserved) = false := by
    intro t ht
    have hfiller := h t ht
    rw [isFiller] at hfiller
    rcases hkind : t.kind <;> simp_all
  rcases ts with _ | ⟨a, _ | ⟨s, _ | ⟨v, ts⟩⟩⟩
  · exact absurd rfl hne
  · rcases us with _ | ⟨u, _ | ⟨v, us⟩⟩
    · rfl
    · rfl
    · simp [beginsNameLine, hword v (by simp)]
  · rcases us with _ | ⟨v, us⟩
    · rfl
    · simp [beginsNameLine, hword v (by simp)]
  · rfl

theorem splitNames_cons_of_isFiller {t : Token} (h : t.isFiller = true) (due : Nat)
    (ts : List Token) :
    splitNames due (t :: ts) = t :: splitNames (if t.isLineBreak then 0 else due) ts := by
  have hstring : (t.kind == .string) = false := by
    rw [isFiller] at h
    rcases hkind : t.kind <;> simp_all
  have hreserved : (t.kind == .reserved) = false := by
    rw [isFiller] at h
    rcases hkind : t.kind <;> simp_all
  have hbegins : beginsNameLine (t :: ts) = false := by
    rw [beginsNameLine.eq_def]
    split
    next heq =>
      obtain ⟨rfl, -⟩ := List.cons.inj heq
      simp [hreserved]
    next => rfl
  rw [splitNames, hstring, hbegins]
  split <;> rfl

/-- Fillers after a row stay as they are when its literals are taken apart. -/
theorem splitNames_append_of_isFiller (due : Nat) (ts : List Token) {us : List Token}
    (h : ∀ t ∈ us, t.isFiller = true) : splitNames due (ts ++ us) = splitNames due ts ++ us := by
  have hfillers : ∀ due, splitNames due us = us := by
    induction us with
    | nil => intro due; rw [splitNames]
    | cons u us ih =>
      obtain ⟨hu, hus⟩ := List.forall_mem_cons.mp h
      intro due
      rw [splitNames_cons_of_isFiller hu, ih hus]
  fun_induction splitNames due ts with
  | case1 due => exact hfillers due
  | case2 due t ts hbreak ih => rw [List.cons_append, splitNames, if_pos hbreak, ih]; rfl
  | case3 due t ts hbreak hstring name hname ih =>
    rw [List.cons_append, splitNames, if_neg hbreak, if_pos hstring, hname, ih]
    rfl
  | case4 due t ts hbreak hstring hname ih =>
    rw [List.cons_append, splitNames, if_neg hbreak, if_pos hstring, hname, ih]
    rfl
  | case5 due t ts hbreak hstring hline ih =>
    rw [List.cons_append, splitNames, if_neg hbreak, if_neg hstring, ← List.cons_append,
      beginsNameLine_append_of_isFiller (by simp) h, if_pos hline, ih]
    rfl
  | case6 due t ts hbreak hstring hline ih =>
    rw [List.cons_append, splitNames, if_neg hbreak, if_neg hstring, ← List.cons_append,
      beginsNameLine_append_of_isFiller (by simp) h, if_neg hline, ih]
    rfl

/-- The last token stays, unless it is a literal that is taken apart. -/
theorem getLast?_splitNames {due : Nat} {ts : List Token} {last : Token}
    (h : ts.getLast? = some last) :
    (splitNames due ts).getLast? = some last ∨
      last.kind = .string ∧ (splitNames due ts).getLast? = some quoteToken := by
  have hcons : ∀ {t : Token} {ts : List Token} {due : Nat}, (t :: ts).getLast? = some last →
      (ts.getLast? = some last → (splitNames due ts).getLast? = some last ∨
        last.kind = .string ∧ (splitNames due ts).getLast? = some quoteToken) →
      (t :: splitNames due ts).getLast? = some last ∨
        last.kind = .string ∧ (t :: splitNames due ts).getLast? = some quoteToken := by
    intro t ts due hlast ih
    cases ts with
    | nil => rw [splitNames]; exact .inl hlast
    | cons u us =>
      rw [List.getLast?_cons_cons] at hlast
      obtain ⟨v, vs, hvs⟩ := List.exists_cons_of_ne_nil (@splitNames_ne_nil due u us)
      rw [hvs, List.getLast?_cons_cons, ← hvs]
      exact ih hlast
  -- only a literal that is taken apart can end in another token
  fun_induction splitNames due ts with
  | case1 => cases h
  | case2 due t ts hbreak ih => exact hcons h ih
  | case3 due t ts hbreak hstring name hname ih =>
    cases ts with
    | nil =>
      obtain rfl : t = last := by simpa using h
      rw [splitNames]
      exact .inr ⟨kind_eq_string_of_due hstring, rfl⟩
    | cons u us =>
      rw [List.getLast?_cons_cons] at h
      obtain ⟨v, vs, hvs⟩ := List.exists_cons_of_ne_nil (@splitNames_ne_nil (due - 1) u us)
      rw [hvs, List.getLast?_cons_cons, List.getLast?_cons_cons, List.getLast?_cons_cons, ← hvs]
      exact ih h
  | case4 due t ts hbreak hstring hname ih => exact hcons h ih
  | case5 due t ts hbreak hstring hline ih => exact hcons h ih
  | case6 due t ts hbreak hstring hline ih => exact hcons h ih

/-- Fillers at the end of a row were there before its literals were taken apart. -/
theorem exists_of_splitNames_eq_fillers {due : Nat} {ts xs ys : List Token}
    (h : splitNames due ts = xs ++ ys) (hys : ∀ t ∈ ys, t.isFiller = true) :
    ∃ us, ts = us ++ ys ∧ splitNames due us = xs := by
  induction ys using List.reverseRecOn generalizing ts with
  | nil => exact ⟨ts, by simp, by simpa using h⟩
  | append_singleton ys y ih =>
    obtain ⟨hmost, hy⟩ := List.forall_mem_append.mp hys
    have hfiller := hy y (List.mem_singleton_self y)
    have hlast : (splitNames due ts).getLast? = some y := by
      rw [h, ← List.append_assoc, List.getLast?_concat]
    rcases List.eq_nil_or_concat' ts with rfl | ⟨most, last, rfl⟩
    · rw [splitNames] at hlast
      cases hlast
    · have hsame : last = y := by
        rcases @getLast?_splitNames due _ last List.getLast?_concat with hsame | ⟨-, hquote⟩
        · exact Option.some.inj (hsame.symm.trans hlast)
        · obtain rfl := Option.some.inj (hquote.symm.trans hlast)
          cases hfiller
      subst hsame
      rw [splitNames_append_of_isFiller due most (by simpa using hfiller), ← List.append_assoc,
        List.append_left_inj] at h
      obtain ⟨us, rfl, hus⟩ := ih h hmost
      exact ⟨us, by simp, hus⟩

/-! ### Rows and their parts -/

theorem Cuts.drop {state : LineState} {ts us : List Token} (h : Cuts state (ts ++ us)) :
    Cuts (ts.foldl LineState.after state) us := by
  induction ts generalizing state with
  | nil => exact h
  | cons t ts ih =>
    cases h with
    | cons _ hrest => exact ih hrest

theorem foldl_after_of_endsLine {ts : List Token} (h : endsLine ts = true) (state : LineState) :
    ts.foldl LineState.after state = .start := by
  rcases List.eq_nil_or_concat' ts with rfl | ⟨most, last, rfl⟩
  · cases h
  · rw [List.foldl_append, List.foldl_cons, List.foldl_nil]
    exact LineState.after_of_isLineBreak (by simpa [endsLine] using h)

/-- **Whole lines are cut off by themselves** as they are with more lines after them. -/
theorem Cuts.of_lines {state : LineState} {ts us : List Token} (h : Cuts state (ts ++ us))
    (hends : endsLine ts = true) : Cuts state ts := by
  induction ts generalizing state with
  | nil => cases hends
  | cons t ts ih =>
    cases h with
    | cons hlexeme hrest =>
      by_cases hnil : ts = []
      · subst hnil
        have hbreak : t.isLineBreak = true := by simpa [endsLine] using hends
        have hkind : t.kind = .lineBreak := by simpa [isLineBreak] using hbreak
        refine .cons ?_ (.nil _)
        rw [hkind] at hlexeme ⊢
        exact .lineBreak (lexeme_lineBreak_iff.mp hlexeme).1 fun _ => notNext_nil _
      · have hends' : endsLine ts = true := endsLine_cons_of_ne_nil hnil ▸ hends
        have hcuts := ih hrest hends'
        refine .cons ?_ hcuts
        obtain ⟨line, c, tail, hchars, hplain, hc⟩ := hcuts.exists_line hends'
        have hsame : SameLine line (c :: tail ++ charsOf us) (c :: tail) :=
          ⟨hplain, notNext_cons.mpr (by simp [hc]), notNext_cons.mpr (by simp [hc]), by simp⟩
        rw [List.append_eq, charsOf_append, hchars, List.append_assoc] at hlexeme
        rw [hchars]
        -- the token sees no further than its line, and the line has its end in `ts`
        refine hlexeme.of_sameLine hsame fun hunsplit hlast => ?_
        have hnext := hunsplit hlast
        cases line with
        | nil => exact hnext
        | cons d line => exact hnext

/-- A filler is cut off at the start of a line as it is within one. -/
theorem Lexeme.of_isFiller {state : LineState} {t : Token} {rest : List Char}
    (h : Lexeme state t.kind t.text.toList rest) (hfiller : t.isFiller = true) :
    Lexeme .start t.kind t.text.toList rest := by
  rw [isFiller] at hfiller
  generalize t.kind = kind at h hfiller
  generalize t.text.toList = text at h
  cases h with
  | lineBreak htext hunsplit => exact .lineBreak htext hunsplit
  | blank hc hcs hends hunsplit => exact .blank hc hcs hends hunsplit
  | comment hcs hends => exact .comment hcs hends
  | remark _ hword hrem hgap hcs hends => exact .remark rfl hword hrem hgap hcs hends
  | word =>
    rw [wordKind] at hfiller
    split at hfiller <;> cases hfiller
  | _ => cases hfiller

theorem LineState.after_eq_of_isBlank {state : LineState} {t : Token} (h : t.isBlank = true) :
    state.after t = state := by
  have hkind : t.kind = .blank := by simpa [isBlank] using h
  simp [LineState.after, hkind]

theorem LineState.after_eq_after {state state' : LineState} {t : Token} (h : t.isBlank = false) :
    state.after t = state'.after t := by
  obtain ⟨kind, text⟩ := t
  cases kind <;> first | rfl | cases h

/-- The rest of a line without code can be cut off from the start of a line. -/
theorem Cuts.start_of_isFiller {state : LineState} {fs ts : List Token}
    (h : Cuts state (fs ++ ts)) (hfs : ∀ t ∈ fs, t.isFiller = true) (hends : endsLine fs = true) :
    Cuts .start (fs ++ ts) := by
  induction fs generalizing state with
  | nil => cases hends
  | cons t fs ih =>
    obtain ⟨ht, hfs⟩ := List.forall_mem_cons.mp hfs
    cases h with
    | cons hlexeme hrest =>
      refine .cons (hlexeme.of_isFiller ht) ?_
      cases hblank : t.isBlank with
      | false => rwa [@LineState.after_eq_after .start state t hblank]
      | true =>
        rw [LineState.after_eq_of_isBlank hblank] at hrest ⊢
        have hne : fs ≠ [] := by
          rintro rfl
          have hkind : t.kind = .blank := by simpa [isBlank] using hblank
          simp [endsLine, isLineBreak, hkind] at hends
        exact ih hrest hfs (endsLine_cons_of_ne_nil hne ▸ hends)

/-! ### Fillers are idle -/

/-- Whether the alternative is a word that does not begin like a comment. -/
def opensNoComment : Alternative → Bool
  | .word text => text.toList.head?.any fun c => c.toLower != '\'' && c.toLower != 'r'
  | _ => false

theorem accepts_eq_false_of_opensNoComment {a : Alternative} (h : opensNoComment a = true)
    {t : Token} {c : Char} {cs : List Char} (ht : t.text.toList = c :: cs)
    (hc : c = '\'' ∨ c.toLower = 'r') : a.accepts t = false := by
  cases a with
  | any => cases h
  | lineBreak => cases h
  | word text =>
    rw [Alternative.accepts]
    refine Bool.and_eq_false_imp.mpr fun _ => ?_
    by_contra hsame
    rw [Bool.not_eq_false, ← String.ofList_toList (s := t.text)] at hsame
    have hhead := toLower_eq_of_sameWord ht hsame
    rw [opensNoComment] at h
    cases hfirst : text.toList.head? with
    | none => rw [hfirst] at h; cases h
    | some d =>
      rw [hfirst, Option.map_some, Option.some.injEq] at hhead
      rw [hfirst, Option.any_some, hhead] at h
      rcases hc with rfl | hc
      · revert h
        decide
      · rw [hc] at h
        revert h
        decide

theorem exists_head_of_comment {state : LineState} {text rest : List Char}
    (h : Lexeme state .comment text rest) :
    ∃ c cs, text = c :: cs ∧ isWhite c = false ∧ (c = '\'' ∨ c.toLower = 'r') := by
  generalize hkind : Token.Kind.comment = kind at h
  cases h with
  | comment => exact ⟨_, _, rfl, by decide, .inl rfl⟩
  | @remark word cs _ _ hword hrem =>
    have hwords := forall_isWordChar_of_isIdentifier hword
    obtain ⟨c, letters, rfl, -⟩ := exists_cons_of_isIdentifier hword
    have hhead := toLower_eq_of_sameWord rfl hrem
    exact ⟨c, letters ++ cs, rfl, isWhite_eq_false_of_isWordChar (hwords c List.mem_cons_self),
      .inr (Option.some.inj hhead).symm⟩
  | word => exact absurd hkind (wordKind_ne (by decide) (by decide) _)
  | _ => cases hkind

/-- **Fillers are idle** in a row of lexemes: no comment begins with a word that tells something. -/
theorem Lexeme.isIdle_of_isFiller {state : LineState} {t : Token} {rest : List Char}
    (h : Lexeme state t.kind t.text.toList rest) (hfiller : t.isFiller = true) :
    t.isIdle = true := by
  by_cases hkind : t.kind = .comment
  · rw [hkind] at h
    obtain ⟨c, cs, htext, -, hc⟩ := exists_head_of_comment h
    -- no word of a cue begins like a comment
    have hwords : cuePatterns.all fun p => p.elements.all fun e =>
        e.alternatives.all opensNoComment := by decide
    have hnone : t.isNoCueWord = true := by
      refine List.all_eq_true.mpr fun p hp => List.all_eq_true.mpr fun e he => ?_
      have haccepts : e.accepts t = false := by
        refine List.any_eq_false.mpr fun a ha => ?_
        have hopens := List.all_eq_true.mp (List.all_eq_true.mp (List.all_eq_true.mp hwords p hp)
          e he) a ha
        rw [accepts_eq_false_of_opensNoComment hopens htext hc]
        exact Bool.false_ne_true
      rw [haccepts]
      rfl
    rw [isIdle, hfiller, hnone, Bool.or_true]
    rfl
  · have hother : t.isBlank = true ∨ t.isLineBreak = true := by
      rw [isFiller] at hfiller
      simp only [Bool.or_eq_true, beq_iff_eq] at hfiller
      rcases hfiller with (hblank | hcomment) | hbreak
      · exact .inl (by simp [isBlank, hblank])
      · exact absurd hcomment hkind
      · exact .inr (by simp [isLineBreak, hbreak])
    rcases hother with hblank | hbreak
    · exact isIdle_of_isBlank hblank
    · exact isIdle_of_isLineBreak hbreak

theorem Cuts.isIdle_of_isFiller {state : LineState} {ts : List Token} (h : Cuts state ts)
    {t : Token} (ht : t ∈ ts) (hfiller : t.isFiller = true) : t.isIdle = true := by
  induction h with
  | nil => cases ht
  | cons hlexeme _ ih =>
    rcases List.mem_cons.mp ht with rfl | ht
    · exact hlexeme.isIdle_of_isFiller hfiller
    · exact ih ht

end VbaModules.Lexer
