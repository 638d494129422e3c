import Mathlib.Data.List.Basic
import VbaModules.Token.Lexer

/-!
# Lexing is lossless

The tokens of a module carry its text, every character once and in order, and no token is empty.

Scanning cuts the text at lengths, so `textOf_scan` settles the first pass. The second pass, which
takes the literal of a name line apart, puts quotes of its own in the place of the first and last
character of the literal; that this changes nothing rests on what scanning promises of a literal.
`Grounded` is that promise: a token has text, and a string literal begins with a quote. It says
nothing about how a literal ends, since an unclosed one ends with its line.
-/

namespace VbaModules.Lexer

/-- What every scanned token satisfies: it has **some text**, and a string literal **begins with a
quote**. -/
structure Grounded (t : Token) : Prop where
  text_ne : t.text ≠ ""
  head_of_string : t.kind = .string → t.text.toList.head? = some '"'

/-! ### The scanned tokens -/

theorem wordToken_kind_ne_string (state : LineState) (c : Char) (cs : List Char) :
    (wordToken state c cs).1 ≠ .string := by
  simp only [wordToken]
  split
  · simp
  · split <;> simp

/-- Only a quote begins a string literal. -/
theorem eq_quote_of_nextToken_string {state : LineState} {c : Char} {cs : List Char}
    (h : (nextToken state c cs).1 = .string) : c = '"' := by
  have hword := wordToken_kind_ne_string state c cs
  -- every other rule names a kind of its own, so the kind alone rules it out
  grind [nextToken]

/-- The token cut at the head of a text, whatever its length comes out as. -/
theorem grounded_cut (state : LineState) (c : Char) (cs : List Char) (n : Nat) :
    Grounded ⟨(nextToken state c cs).1, String.ofList (c :: cs.take n)⟩ := by
  refine ⟨?_, fun hstring => ?_⟩
  · intro hempty
    have hlist := congrArg String.toList hempty
    simp at hlist
  · obtain rfl := eq_quote_of_nextToken_string hstring
    simp

theorem grounded_of_mem_scan {state : LineState} {cs : List Char} {t : Token}
    (h : t ∈ scan state cs) : Grounded t := by
  fun_induction scan state cs with
  | case1 => simp at h
  | case2 state c cs kind n hnext token ih =>
    rcases List.mem_cons.mp h with rfl | hrest
    · have hcut := grounded_cut state c cs n
      rwa [hnext] at hcut
    · exact ih hrest

/-- The second pass works on grounded tokens that carry the text of the module. -/
theorem exists_lex_eq_splitNames (text : String) :
    ∃ ts, lex text = splitNames 0 ts ∧ Token.textOf ts = text ∧ ∀ t ∈ ts, Grounded t := by
  rw [lex]
  split
  next cs hmark =>
    refine ⟨_, rfl, ?_, fun t ht => ?_⟩
    · rw [← String.toList_inj, hmark, Token.toList_textOf, List.flatMap_cons,
        ← Token.toList_textOf, textOf_scan]
      rfl
    · rcases List.mem_cons.mp ht with rfl | hrest
      · exact ⟨by decide, fun hstring => by cases hstring⟩
      · exact grounded_of_mem_scan hrest
  next =>
    refine ⟨_, rfl, ?_, fun t ht => grounded_of_mem_scan ht⟩
    rw [← String.toList_inj, textOf_scan]

/-! ### Taking name literals apart -/

/-- What stands between the quotes is some text, and it is all of the literal but its first
character and a closing quote. -/
theorem unquoted?_eq_some {text name : String} (h : unquoted? text = some name) :
    name ≠ "" ∧ ∃ c, text.toList = c :: name.toList ++ ['"'] := by
  rw [unquoted?] at h
  split at h
  next c cs htext =>
    split at h
    next hclosed =>
      simp only [Bool.and_eq_true, decide_eq_true_eq, beq_iff_eq] at hclosed
      obtain ⟨hlength, hlast⟩ := hclosed
      obtain rfl := Option.some.inj h
      refine ⟨?_, c, ?_⟩
      · intro hempty
        have hlist := congrArg String.toList hempty
        have hdrop : cs.dropLast.length = 0 := by
          rw [String.toList_ofList] at hlist
          rw [hlist]
          rfl
        rw [List.length_dropLast] at hdrop
        omega
      · have hsplit : cs.dropLast ++ ['"'] = cs :=
          List.dropLast_append_getLast? _ hlast
        rw [htext, String.toList_ofList, List.cons_append, hsplit]
    next => cases h
  next => cases h

/-- Taking a literal apart keeps its characters. -/
theorem toList_unquoted {t : Token} {name : String} (ht : Grounded t) (hkind : t.kind = .string)
    (h : unquoted? t.text = some name) : '"' :: name.toList ++ ['"'] = t.text.toList := by
  obtain ⟨-, c, htext⟩ := unquoted?_eq_some h
  have hhead := ht.head_of_string hkind
  rw [htext, List.cons_append, List.head?_cons, Option.some.injEq] at hhead
  rw [htext, hhead]

/-- **The second pass keeps the text**, however many literals it takes apart. -/
theorem textOf_splitNames {due : Nat} {ts : List Token} (h : ∀ t ∈ ts, Grounded t) :
    Token.textOf (splitNames due ts) = Token.textOf ts := by
  rw [← String.toList_inj, Token.toList_textOf, Token.toList_textOf]
  -- along the recursion: every case but the split keeps the head token as it is
  fun_induction splitNames due ts with
  | case1 => rfl
  | case2 due t ts _ ih =>
    rw [List.flatMap_cons, List.flatMap_cons, ih (List.forall_mem_cons.mp h).2]
  | case3 due t ts _ hliteral name hname ih =>
    have hkind : t.kind = .string := by
      simp only [Bool.and_eq_true, beq_iff_eq] at hliteral
      exact hliteral.1
    have hchars := toList_unquoted (h t List.mem_cons_self) hkind hname
    simp only [List.flatMap_cons, ih (List.forall_mem_cons.mp h).2, ← hchars]
    simp [quoteToken]
  | case4 due t ts _ _ _ ih =>
    rw [List.flatMap_cons, List.flatMap_cons, ih (List.forall_mem_cons.mp h).2]
  | case5 due t ts _ _ _ ih =>
    rw [List.flatMap_cons, List.flatMap_cons, ih (List.forall_mem_cons.mp h).2]
  | case6 due t ts _ _ _ ih =>
    rw [List.flatMap_cons, List.flatMap_cons, ih (List.forall_mem_cons.mp h).2]

/-- A token of the second pass is one of the first, a quote, or the name out of a literal. -/
theorem mem_splitNames {due : Nat} {ts : List Token} {t : Token} (h : t ∈ splitNames due ts) :
    t ∈ ts ∨ t = quoteToken ∨
      ∃ u ∈ ts, ∃ name, unquoted? u.text = some name ∧ t = ⟨.name, name⟩ := by
  fun_induction splitNames due ts with
  | case1 => simp at h
  | case2 due u ts _ ih => grind
  | case3 due u ts _ _ name hname ih => grind
  | case4 due u ts _ _ _ ih => grind
  | case5 due u ts _ _ _ ih => grind
  | case6 due u ts _ _ _ ih => grind

/-! ### The tokens of a module -/

theorem textOf_lex (text : String) : Token.textOf (lex text) = text := by
  obtain ⟨ts, hlex, htext, hgrounded⟩ := exists_lex_eq_splitNames text
  rw [hlex, textOf_splitNames hgrounded, htext]

/-- **Lexing is lossless**: the token texts in a row are the text of the module, and every token
has a part in it. -/
theorem textOf_lex_and_text_ne (text : String) :
    Token.textOf (lex text) = text ∧ ∀ t ∈ lex text, t.text ≠ "" := by
  obtain ⟨ts, hlex, htext, hgrounded⟩ := exists_lex_eq_splitNames text
  rw [hlex]
  refine ⟨(textOf_splitNames hgrounded).trans htext, fun t ht => ?_⟩
  rcases mem_splitNames ht with hmem | rfl | ⟨u, -, name, hname, rfl⟩
  · exact (hgrounded t hmem).text_ne
  · decide
  · exact (unquoted?_eq_some hname).1

end VbaModules.Lexer
