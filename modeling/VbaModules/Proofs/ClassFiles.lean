import VbaModules.Proofs.ClassNames
import VbaModules.Proofs.Introductions

/-!
# Class files read back

The file of a class is put together from a header with the name of the class, an annotation with
the full name of the module if the name of the class was cut, and what is left of the module. When
it is read again, its header has the only line that gives a name, and the annotation is the first
comment that carries one (`classFiles_read_back`).

The texts of the header each end their line, so the file is read part by part
(`ClassFile.lex_heading_append`). Those other than the naming line say nothing of a name, as a look
at neighbouring characters shows (`ClassFile.SaysNoName`). The body is the hard part, for it is not
read as the tokens that it was printed from. But these are legible, and none of their lines
introduces a name, so that no line of the text does (`lineMatches_withoutNameLines`).
-/

namespace VbaModules

open Lexer Text Token

/-! ### Texts without a naming line -/

theorem staysInLine_nameLine : nameLine.staysInLine = true := by
  decide

theorem endsTaking_nameLine : Pattern.endsTaking nameLine.elements = true := by
  decide

/-- Tokens without one of the words that introduce a name have no naming line. -/
theorem lineMatches_nameLine_eq_nil {tokens : List Token}
    (h : (∀ t ∈ tokens, sameWord t.text "attribute" = false) ∨
      ∀ t ∈ tokens, sameWord t.text "vb_name" = false) : nameLine.lineMatches tokens = [] := by
  refine List.eq_nil_iff_forall_not_mem.mpr fun m hm => ?_
  have hmatch := (Pattern.mem_lineMatches_iff staysInLine_nameLine).mp hm
  obtain ⟨indent, a, gap, v, gap', e, us, hdrop, -, ha, -, hv, -, -⟩ :=
    exists_of_align_nameLine hmatch.align_eq
  have hmem : ∀ t ∈ tokens.drop m.start, t ∈ tokens := fun t ht => List.mem_of_mem_drop ht
  rw [hdrop] at hmem
  rcases h with h | h
  · rw [h a (hmem a (by simp))] at ha
    cases ha
  · rw [h v (hmem v (by simp))] at hv
    cases hv

/-- A word of a text stands in the text. -/
theorem Lexer.infix_of_mem_lex {text : String} {t : Token} (h : t ∈ lex text) :
    t.text.toList <:+: text.toList := by
  obtain ⟨before, after, hsplit⟩ := List.append_of_mem h
  refine ⟨charsOf before, charsOf after, ?_⟩
  rw [← textOf_lex text, Token.toList_textOf]
  change _ = charsOf (lex text)
  rw [hsplit, charsOf_append, charsOf_cons, List.append_assoc]

/-- **What is left of a module has no naming line.** -/
theorem lineMatches_withoutNameLines {text : String} {us : List Token}
    (h : List.Forall₂ Qualified (lex text) us) :
    nameLine.lineMatches
      (splitNames 0 (scan .start (textOf (ClassFile.withoutNameLines us)).toList)) = [] := by
  refine List.eq_nil_iff_forall_not_mem.mpr fun m hm => ?_
  have hmatch := (Pattern.mem_lineMatches_iff staysInLine_nameLine).mp hm
  obtain ⟨before, indent, first, gap, second, rest, heq, hbefore, hindent, hhead, hintro⟩ :=
    exists_introduces_of_isMatch hmatch
  have hlegible : AllLegible (ClassFile.withoutNameLines us) :=
    ClassFile.allLegible_withoutNameLines (allLegible_scanModule text.toList)
      (lex_eq_splitNames text ▸ h)
  rw [Token.toList_textOf] at heq
  exact ClassFile.not_introduceName_withoutNameLines us
    (hlegible.introduceName_after hintro heq hbefore hindent hhead)

/-! ### Qualified references -/

/-- A name that is exported is a public name of the module that it is said to come from. -/
theorem Exports.of_get?_collect {modules : List NamedModule} {name : String} {e : Exported}
    (h : (collect modules).get? (lower name) = some e) :
    ∃ m ∈ modules, e.module = m.name ∧ e.name ∈ publicNames m.tokens := by
  obtain ⟨m, hm, he⟩ := get?_collect_eq_some_iff.mp h
  obtain ⟨symbol, hsymbol, rfl⟩ := Option.map_eq_some_iff.mp he
  have hmem := List.mem_of_find?_eq_some hsymbol
  rw [symbols] at hmem
  split at hmem
  · cases hmem
  · exact ⟨m, List.mem_of_find?_eq_some hm, rfl, hmem⟩

/-- Public names are texts of name tokens. -/
theorem exists_mem_of_mem_publicNames {tokens : List Token} {name : String}
    (h : name ∈ publicNames tokens) : ∃ t ∈ tokens, t.kind = .name ∧ t.text = name := by
  obtain ⟨i, -, hname⟩ := mem_namesAt_iff.mp h
  obtain ⟨t, ht, hkind, rfl⟩ := nameAt?_eq_some_iff.mp hname
  exact ⟨t, List.mem_of_getElem? ht, by simpa [Token.isName] using hkind, rfl⟩

/-- Qualifying references puts names of modules and dots before names. -/
theorem Exports.forall₂_qualify {modules : List NamedModule}
    (hnames : ∀ m ∈ modules, isIdentifier m.name.toList = true)
    (htokens : ∀ m ∈ modules, ∃ text, m.tokens = lex text) (origin : String)
    (tokens : List Token) :
    List.Forall₂ Qualified tokens ((collect modules).qualify origin tokens) := by
  have hsnd : (withPrevious tokens).map Prod.snd = tokens := List.map_snd_zip (by simp)
  rw [qualify]
  conv_lhs => rw [← hsnd]
  rw [List.forall₂_map_left_iff, List.forall₂_map_right_iff, List.forall₂_same]
  rintro ⟨previous, t⟩ -
  simp only
  split
  next e he =>
    rw [target?] at he
    split at he
    next hname =>
      obtain ⟨he, -⟩ := Option.filter_eq_some_iff.mp he
      obtain ⟨m, hm, hmodule, hsymbol⟩ := of_get?_collect he
      obtain ⟨text, htext⟩ := htokens m hm
      obtain ⟨u, hu, hukind, huname⟩ := exists_mem_of_mem_publicNames hsymbol
      have hkind : t.kind = .name := by simpa [Token.isName] using (Bool.and_eq_true_iff.mp hname).1
      have hplain := (fitsLiteral_of_mem_lex (htext ▸ hu) hukind).isBreakChar_eq_false
      rw [huname] at hplain
      rw [hkind, hmodule]
      exact .dotted hkind (hnames m hm) hplain
    next => cases he
  next => exact .same

/-! ### The texts of the header -/

/-- Texts that end their lines are lexed each by itself, and what follows them as at the start of a
line. -/
theorem Lexer.lex_join_append {texts : List String} (hne : texts ≠ [])
    (h : ∀ text ∈ texts, EndsItsLine text ∧ text.toList.head? ≠ some '\uFEFF') (body : String) :
    lex (String.join texts ++ body) =
      texts.flatMap lex ++ splitNames 0 (scan .start body.toList) := by
  induction texts with
  | nil => exact absurd rfl hne
  | cons text texts ih =>
    obtain ⟨⟨hends, hmark⟩, hrest⟩ := List.forall_mem_cons.mp h
    rw [String.join_cons, String.append_assoc, lex_append_eq hends hmark, List.flatMap_cons]
    cases texts with
    | nil => rw [String.join_nil, String.empty_append, List.flatMap_nil, List.append_nil]
    | cons next texts =>
      obtain ⟨hends', hmark'⟩ := hrest next List.mem_cons_self
      have hnext : (String.join (next :: texts) ++ body).toList.head? ≠ some '\uFEFF' := by
        rw [String.join_cons, String.append_assoc, String.toList_append,
          List.head?_append_of_ne_nil _ hends'.ne_empty]
        exact hmark'
      rw [splitNames_scan_eq_lex hnext, ih (by simp) hrest, List.append_assoc]

namespace ClassFile

/-- A text of the header that **says nothing of a name**: no underscore has an `N` after it, as that
of `VB_Name` has, no word begins like an annotation, and the text ends its line. -/
structure SaysNoName (text : String) : Prop where
  isChain : text.toList.IsChain fun c d => ¬(c.toLower = '_' ∧ d.toLower = 'n')
  lacksZ : ∀ c ∈ text.toList, c.toLower ≠ 'z'
  head : text.toList.head? ≠ some '\uFEFF'
  ends : ∃ c, text.toList.reverse.take 2 = ['\n', c] ∧ leadsOn c = false

/-- What a class file begins with. -/
def preamble : String :=
  "VERSION 1.0 CLASS\nBEGIN\n  MultiUse = -1  'True\nEND\n"

/-- The lines of the header below the name. -/
def propertyLines : List String :=
  ["Attribute VB_GlobalNameSpace = False\n", "Attribute VB_Creatable = False\n",
    "Attribute VB_PredeclaredId = False\n", "Attribute VB_Exposed = True\n"]

/-- A text without the letter `z` and without `_n` says no name, if it ends its line. -/
theorem saysNoName_of_all {text : String}
    (hchain : text.toList.IsChain fun c d => ¬(c.toLower = '_' ∧ d.toLower = 'n'))
    (hz : (text.toList.all fun c => c.toLower != 'z') = true)
    (hhead : text.toList.head? ≠ some '\uFEFF') (last : Char)
    (htake : text.toList.reverse.take 2 = ['\n', last]) (hlast : leadsOn last = false) :
    SaysNoName text :=
  ⟨hchain, fun c hc => by simpa using List.all_eq_true.mp hz c hc, hhead, last, htake, hlast⟩

theorem saysNoName_preamble : SaysNoName preamble :=
  saysNoName_of_all (by decide) (by decide) (by decide) 'D' (by decide) (by decide)

/-- The lines with the properties of a class say no name. -/
theorem saysNoName_of_mem_propertyLines : ∀ line ∈ propertyLines, SaysNoName line := by
  rw [propertyLines]
  simp only [List.forall_mem_cons]
  exact ⟨saysNoName_of_all (by decide) (by decide) (by decide) 'e' (by decide) (by decide),
    saysNoName_of_all (by decide) (by decide) (by decide) 'e' (by decide) (by decide),
    saysNoName_of_all (by decide) (by decide) (by decide) 'e' (by decide) (by decide),
    saysNoName_of_all (by decide) (by decide) (by decide) 'e' (by decide) (by decide), by simp⟩

/-- A comment that carries a name has the first letter of its first word. -/
theorem exists_z_of_nameInComment? {comment name : String}
    (h : nameInComment? comment = some name) :
    ∃ c ∈ comment.toList, c.toLower = 'z' := by
  unfold nameInComment? at h
  split at h
  next cs hcomment =>
    obtain ⟨rest, hrest, -⟩ := Option.bind_eq_some_iff.mp h
    rw [afterWord?] at hrest
    split at hrest
    next hsame =>
      rw [sameWord_iff, ← String.toList_inj, toList_foldCase, toList_foldCase,
        String.toList_ofList] at hsame
      obtain ⟨c, ds, htake, hc, -⟩ :=
        List.map_eq_cons_iff.mp (hsame.trans (by decide : _ = 'z' :: ['e', 'b', 'r', 'a']))
      have hmem := List.mem_of_mem_take (htake ▸ List.mem_cons_self : c ∈ List.take _ _)
      rw [trimStart, String.toList_ofList, String.toList_ofList] at hmem
      refine ⟨c, ?_, hc⟩
      rw [hcomment]
      exact List.mem_cons_of_mem _ ((List.dropWhile_sublist _).mem hmem)
    next => cases hrest
  next => cases h

section SaysNoName

variable {text : String} (h : SaysNoName text)
include h

theorem SaysNoName.endsItsLine : EndsItsLine text := by
  obtain ⟨c, hlast, hc⟩ := h.ends
  have htext : text.toList = (text.toList.reverse.drop 2).reverse ++ [c] ++ ['\n'] := by
    conv_lhs => rw [← List.reverse_reverse text.toList, ← List.take_append_drop 2
      text.toList.reverse, hlast, List.reverse_append]
    simp
  refine .of_feed htext fun d hd => ?_
  rw [List.getLast?_concat, Option.mem_some] at hd
  rwa [← hd]

/-- A text that says no name has no naming line. -/
theorem SaysNoName.lineMatches_lex : nameLine.lineMatches (lex text) = [] := by
  refine lineMatches_nameLine_eq_nil (.inr fun t ht => ?_)
  by_contra hsame
  have hchain := h.isChain.infix (infix_of_mem_lex ht)
  have hword : "vb_name".toList.map Char.toLower = ['v', 'b', '_', 'n', 'a', 'm', 'e'] := by decide
  rw [Bool.not_eq_false, sameWord_iff, ← String.toList_inj, toList_foldCase, toList_foldCase,
    hword] at hsame
  obtain ⟨v, cs, htext, -, hsame⟩ := List.map_eq_cons_iff.mp hsame
  obtain ⟨b, cs, rfl, -, hsame⟩ := List.map_eq_cons_iff.mp hsame
  obtain ⟨u, cs, rfl, hu, hsame⟩ := List.map_eq_cons_iff.mp hsame
  obtain ⟨n, cs, rfl, hn, -⟩ := List.map_eq_cons_iff.mp hsame
  rw [htext, List.isChain_cons_cons, List.isChain_cons_cons, List.isChain_cons_cons] at hchain
  exact hchain.2.2.1 ⟨hu, hn⟩

/-- A text that says no name gives no full name. -/
theorem SaysNoName.fullName?_lex : fullName? (lex text) = none := by
  refine List.findSome?_eq_none_iff.mpr fun t ht => ?_
  by_contra hname
  obtain ⟨name, hname⟩ := Option.ne_none_iff_exists'.mp hname
  obtain ⟨c, hc, hz⟩ := exists_z_of_nameInComment? hname
  exact h.lacksZ c ((infix_of_mem_lex (List.mem_of_mem_filter ht)).subset hc) hz

end SaysNoName

/-- The full name is the first one given. -/
theorem fullName?_append (ts us : List Token) :
    fullName? (ts ++ us) = (fullName? ts).or (fullName? us) := by
  rw [fullName?, fullName?, fullName?, List.filter_append, List.findSome?_append]

/-- The header of a class file by its parts: the preamble, the naming line and the properties. -/
theorem header_eq (className : String) :
    header className = String.join (preamble :: namingText className :: propertyLines) := by
  have hassoc : ∀ a b c d e f g h : String, a ++ b ++ c ++ d ++ e ++ f ++ g ++ h =
      String.join [a, b ++ c ++ d, e, f, g, h] := by
    intros
    simp only [String.join_cons, String.join_nil, String.append_assoc, String.append_empty]
  exact hassoc _ _ _ _ _ _ _ _

/-! ### The annotation -/

/-- The comment that carries the full name of a module. -/
def fullNameToken (module : String) : Token :=
  ⟨.comment, "'zebra NameSpace " ++ module⟩

/-- The characters of the comment with the full name. -/
theorem toList_fullNameToken (module : String) : (fullNameToken module).text.toList =
    '\'' :: ("zebra".toList ++ ' ' :: ("NameSpace".toList ++ ' ' :: module.toList)) := by
  have hwords : "'zebra NameSpace ".toList =
      '\'' :: ("zebra".toList ++ ' ' :: ("NameSpace".toList ++ [' '])) := by decide
  rw [fullNameToken, String.toList_append, hwords]
  simp only [List.cons_append, List.append_assoc, List.nil_append]

theorem fullNameLine_toList (module : String) :
    (fullNameLine module).toList = (fullNameToken module).text.toList ++ ['\n'] :=
  String.toList_append

/-- Nothing is trimmed where no white space stands first. -/
theorem trimStart_of_notNext {cs : List Char} (h : NotNext isWhite cs) :
    trimStart (String.ofList cs) = String.ofList cs := by
  rw [trimStart, String.toList_ofList]
  cases cs with
  | nil => rfl
  | cons c cs => rw [List.dropWhile_cons_of_neg (by simpa using h)]

theorem trimStart_space {cs : List Char} (h : NotNext isWhite cs) :
    trimStart (String.ofList (' ' :: cs)) = String.ofList cs := by
  rw [← trimStart_of_notNext h, trimStart, trimStart, String.toList_ofList, String.toList_ofList]
  rfl

/-- What follows a word is found behind it, whatever the case of the word. -/
theorem afterWord?_append {word : String} {front rest : List Char}
    (hlength : front.length = word.length) (hsame : sameWord (String.ofList front) word = true) :
    afterWord? word (String.ofList (front ++ rest)) = some (trimStart (String.ofList rest)) := by
  rw [afterWord?]
  simp only [String.toList_ofList, ← hlength, List.take_left, List.drop_left, hsame, if_true]

section Annotation

variable {module : String} (h : isIdentifier module.toList = true)
include h

theorem isWhite_eq_false_of_mem : ∀ c ∈ module.toList, isWhite c = false :=
  fun c hc => isWhite_eq_false_of_isWordChar (forall_isWordChar_of_isIdentifier h c hc)

/-- Nothing is trimmed of an identifier. -/
theorem trimEnd_of_isIdentifier : trimEnd module = module := by
  have hend : NotNext isWhite module.toList.reverse := fun c hc =>
    isWhite_eq_false_of_mem h c (List.mem_reverse.mp (List.mem_of_head? hc))
  have htrim := congrArg String.toList (trimStart_of_notNext hend)
  rw [trimStart, String.toList_ofList, String.toList_ofList] at htrim
  rw [trimEnd, htrim, List.reverse_reverse, String.ofList_toList]

/-- **The annotation reads back.** -/
theorem nameInComment?_fullNameToken :
    nameInComment? (fullNameToken module).text = some module := by
  have hne : module ≠ "" := by
    rintro rfl
    cases h
  have hmodule : NotNext isWhite module.toList := fun c hc =>
    isWhite_eq_false_of_mem h c (List.mem_of_head? hc)
  have hzebra : ∀ rest, NotNext isWhite ("zebra".toList ++ rest) := fun rest => by
    rw [(by decide : "zebra".toList = ['z', 'e', 'b', 'r', 'a'])]
    exact notNext_cons.mpr (by decide)
  have hspace : ∀ rest, NotNext isWhite ("NameSpace".toList ++ rest) := fun rest => by
    rw [(by decide : "NameSpace".toList = ['N', 'a', 'm', 'e', 'S', 'p', 'a', 'c', 'e'])]
    exact notNext_cons.mpr (by decide)
  unfold nameInComment?
  rw [toList_fullNameToken]
  simp only
  rw [trimStart_of_notNext (hzebra _), afterWord?_append (by decide) (by decide),
    trimStart_space (hspace _)]
  simp only [Option.bind_eq_bind, Option.bind_some]
  rw [afterWord?_append (by decide) (by decide), trimStart_space hmodule, String.ofList_toList]
  simp only [Option.bind_some, trimEnd_of_isIdentifier h, if_neg hne]

/-- The line with the full name is read as one comment. -/
theorem fullNameLine_scan : scan .start (fullNameLine module).toList =
    [fullNameToken module, ⟨.lineBreak, "\n"⟩] := by
  have hplain : ∀ c ∈ (fullNameToken module).text.toList, isBreakChar c = false := by
    have hwords : ∀ word ∈ ["zebra", "NameSpace", module], isIdentifier word.toList = true := by
      simp only [List.forall_mem_cons]
      exact ⟨by decide, by decide, h, by simp⟩
    have hletters : ∀ word ∈ ["zebra", "NameSpace", module], ∀ c ∈ word.toList,
        isBreakChar c = false := fun word hword c hc =>
      isBreakChar_eq_false_of_isWordChar
        (forall_isWordChar_of_isIdentifier (hwords word hword) c hc)
    rw [toList_fullNameToken]
    simp only [List.forall_mem_cons, List.forall_mem_append]
    exact ⟨by decide, hletters _ (by simp), by decide, hletters _ (by simp), by decide,
      hletters _ (by simp)⟩
  have hcuts : Cuts .start [fullNameToken module, ⟨.lineBreak, "\n"⟩] := by
    refine .cons ?_ (.cons (.lineBreak (by simp [IsBreak]) (by simp [Unsplit])) (.nil _))
    rw [toList_fullNameToken] at hplain ⊢
    exact .comment (List.forall_mem_cons.mp hplain).2 (notNext_cons.mpr (by decide))
  have hscan := hcuts.scan_eq
  rw [charsOf_cons, charsOf_cons, charsOf_nil, List.append_nil] at hscan
  rw [fullNameLine_toList]
  exact hscan

/-- It ends its line. -/
theorem fullNameLine_endsItsLine : EndsItsLine (fullNameLine module) where
  getLast?_eq := by rw [fullNameLine_toList, List.getLast?_concat]
  endsLine_scan := by
    rw [fullNameLine_scan h]
    rfl

omit h in
theorem fullNameLine_head? (module : String) : (fullNameLine module).toList.head? = some '\'' := by
  rw [fullNameLine_toList, toList_fullNameToken]
  rfl

/-- Lexing makes no more of it than that comment. -/
theorem fullNameLine_lex :
    lex (fullNameLine module) = [fullNameToken module, ⟨.lineBreak, "\n"⟩] := by
  rw [← splitNames_scan_eq_lex (by rw [fullNameLine_head?]; decide), fullNameLine_scan h]
  rfl

/-- There is no naming line in it. -/
theorem fullNameLine_lineMatches : nameLine.lineMatches (lex (fullNameLine module)) = [] := by
  refine lineMatches_nameLine_eq_nil (.inl ?_)
  rw [fullNameLine_lex h, List.forall_mem_cons, List.forall_mem_singleton]
  refine ⟨?_, by decide⟩
  by_contra hsame
  rw [Bool.not_eq_false, ← @String.ofList_toList (fullNameToken module).text] at hsame
  have hhead := toLower_eq_of_sameWord (toList_fullNameToken module) hsame
  revert hhead
  decide

/-- The full name is read back from it. -/
theorem fullNameLine_fullName? : fullName? (lex (fullNameLine module)) = some module := by
  rw [fullNameLine_lex h]
  have hfilter : [fullNameToken module, ⟨.lineBreak, "\n"⟩].filter (·.kind == .comment) =
      [fullNameToken module] := rfl
  rw [fullName?, hfilter, List.findSome?_cons, nameInComment?_fullNameToken h]

end Annotation

/-! ### The whole file -/

/-- A text of whole lines, none of which is a naming line. -/
structure Unnamed (text : String) : Prop where
  endsItsLine : EndsItsLine text
  head : text.toList.head? ≠ some '\uFEFF'
  lineMatches_lex : nameLine.lineMatches (lex text) = []

theorem SaysNoName.unnamed {text : String} (h : SaysNoName text) : Unnamed text :=
  ⟨h.endsItsLine, h.head, h.lineMatches_lex⟩

/-- It does not name the module. -/
theorem fullNameLine_unnamed {module : String} (h : isIdentifier module.toList = true) :
    Unnamed (fullNameLine module) := by
  refine ⟨fullNameLine_endsItsLine h, ?_, fullNameLine_lineMatches h⟩
  rw [fullNameLine_head?]
  decide

/-- Where neither the texts nor the tokens after them have naming lines, there are none. -/
theorem lineMatches_flatMap_lex {texts : List String} (h : ∀ text ∈ texts, Unnamed text)
    {tokens : List Token} (htokens : nameLine.lineMatches tokens = []) :
    nameLine.lineMatches (texts.flatMap lex ++ tokens) = [] := by
  induction texts with
  | nil => exact htokens
  | cons text texts ih =>
    obtain ⟨htext, hrest⟩ := List.forall_mem_cons.mp h
    rw [List.flatMap_cons, List.append_assoc, Pattern.lineMatches_append staysInLine_nameLine
      endsTaking_nameLine (htext.endsItsLine.wholeLines_lex htext.head), htext.lineMatches_lex,
      ih hrest]
    rfl

/-- A naming line is the only one in its own tokens. -/
theorem lineMatches_namingLine (name : String) :
    nameLine.lineMatches (namingLine name) = [⟨0, 8⟩] := by
  have hfirst := next?_namingLine_append name []
  rw [List.append_nil] at hfirst
  have hnone : nameLine.next? true (namingLine name) 8 = none := rfl
  rw [Pattern.lineMatches, Pattern.matchesFrom_eq, hfirst]
  simp only
  rw [Pattern.matchesFrom_eq, hnone]

/-- The texts above the body of a class file. -/
def heading (className : String) (below : List String) : List String :=
  preamble :: namingText className :: (propertyLines ++ below)

/-- The heading of a class file begins with the header. -/
theorem join_heading (className : String) (below : List String) :
    String.join (heading className below) = header className ++ String.join below := by
  rw [heading, header_eq, ← String.join_append]
  rfl

section Heading

variable {className : String} (hname : FitsLiteral className) {below : List String}
  (hbelow : ∀ line ∈ below, Unnamed line)
include hname hbelow

/-- **A class file is read part by part.** -/
theorem lex_heading_append (body : String) :
    lex (String.join (heading className below) ++ body) =
      lex preamble ++ (namingLine className ++
        ((propertyLines ++ below).flatMap lex ++ splitNames 0 (scan .start body.toList))) := by
  have htexts : ∀ text ∈ heading className below,
      EndsItsLine text ∧ text.toList.head? ≠ some '\uFEFF' := by
    simp only [heading, List.forall_mem_cons, List.forall_mem_append]
    refine ⟨⟨saysNoName_preamble.endsItsLine, saysNoName_preamble.head⟩,
      ⟨endsItsLine_namingText className, by rw [head?_namingText]; decide⟩, fun line hline => ?_,
      fun line hline => ⟨(hbelow line hline).endsItsLine, (hbelow line hline).head⟩⟩
    have hproperty := saysNoName_of_mem_propertyLines line hline
    exact ⟨hproperty.endsItsLine, hproperty.head⟩
  rw [lex_join_append (by simp [heading]) htexts, heading, List.flatMap_cons, List.flatMap_cons,
    lex_namingText hname]
  simp only [List.append_assoc]

variable {body : String}
  (hbody : nameLine.lineMatches (splitNames 0 (scan .start body.toList)) = [])
include hbody

/-- **The header has the only naming line.** -/
theorem lineMatches_heading_append :
    nameLine.lineMatches (lex (String.join (heading className below) ++ body)) =
      [Match.shift (lex preamble).length ⟨0, 8⟩] := by
  have hunnamed : ∀ line ∈ propertyLines ++ below, Unnamed line :=
    List.forall_mem_append.mpr
      ⟨fun line hline => (saysNoName_of_mem_propertyLines line hline).unnamed, hbelow⟩
  have hpreamble := saysNoName_preamble.unnamed
  rw [lex_heading_append hname hbelow, Pattern.lineMatches_append staysInLine_nameLine
    endsTaking_nameLine (hpreamble.endsItsLine.wholeLines_lex hpreamble.head),
    hpreamble.lineMatches_lex, Pattern.lineMatches_append staysInLine_nameLine endsTaking_nameLine
    rfl, lineMatches_namingLine, lineMatches_flatMap_lex hunnamed hbody]
  rfl

/-- **A class file declares the name of its class**, whatever its body, if the body has no naming
line. -/
theorem declaredName?_heading_append :
    declaredName? (lex (String.join (heading className below) ++ body)) = some className := by
  rw [declaredName?, lineMatches_heading_append hname hbelow hbody, List.findSome?_singleton,
    lex_heading_append hname hbelow]
  exact nameAt?_append_right _ _ 7

end Heading

/-- **The annotation is the first that is found.** -/
theorem fullName?_heading_append {className module : String} (hname : FitsLiteral className)
    (hmodule : isIdentifier module.toList = true) (body : String) :
    fullName? (lex (String.join (heading className [fullNameLine module]) ++ body)) =
      some module := by
  have hproperties : ∀ lines : List String, (∀ line ∈ lines, SaysNoName line) →
      fullName? (lines.flatMap lex) = none := by
    intro lines hlines
    induction lines with
    | nil => rfl
    | cons line lines ih =>
      obtain ⟨hline, hlines⟩ := List.forall_mem_cons.mp hlines
      rw [List.flatMap_cons, fullName?_append, hline.fullName?_lex, ih hlines, Option.none_or]
  have hbelow : ∀ line ∈ [fullNameLine module], Unnamed line :=
    List.forall_mem_singleton.mpr (fullNameLine_unnamed hmodule)
  rw [lex_heading_append hname hbelow, fullName?_append, saysNoName_preamble.fullName?_lex,
    Option.none_or, fullName?_append, show fullName? (namingLine className) = none from rfl,
    Option.none_or, List.flatMap_append, List.append_assoc, fullName?_append,
    hproperties _ saysNoName_of_mem_propertyLines, Option.none_or, fullName?_append,
    List.flatMap_singleton, fullNameLine_fullName? hmodule, Option.some_or]

end ClassFile

/-! ### The classes of a bundle -/

/-- A class that was made from a standard module. -/
theorem exists_of_mem_convertAll {exports : Exports} {taken : List String}
    {modules : List NamedModule} {c : ClassModule} (h : c ∈ convertAll exports taken modules)
    (hconverted : c.converted = true) :
    ∃ m ∈ modules, ∃ taken',
      c = convertModule exports (ShortName.shorten (generatedMark ++ m.name) taken') m := by
  induction modules generalizing taken with
  | nil => cases h
  | cons m rest ih =>
    rw [convertAll] at h
    split at h
    · rcases List.mem_cons.mp h with rfl | hrest
      · cases hconverted
      · obtain ⟨n, hn, hc⟩ := ih hrest
        exact ⟨n, List.mem_cons_of_mem m hn, hc⟩
    · rcases List.mem_cons.mp h with rfl | hrest
      · exact ⟨m, List.mem_cons_self, taken, rfl⟩
      · obtain ⟨n, hn, hc⟩ := ih hrest
        exact ⟨n, List.mem_cons_of_mem m hn, hc⟩

/-- The name of a generated class is an identifier. -/
theorem isIdentifier_shorten {name : String} (h : isIdentifier name.toList = true)
    (taken : List String) : isIdentifier (ShortName.shorten name taken).toList = true := by
  cases hfits : ShortName.fits name with
  | true => rwa [ShortName.shorten_of_fits hfits]
  | false =>
    obtain ⟨n, hn, -⟩ := ShortName.exists_shorten_eq_numbered hfits taken
    obtain ⟨c, cs, htext, hc, hcs⟩ := exists_cons_of_isIdentifier h
    rw [hn, ShortName.toList_numbered, htext]
    refine isIdentifier_cons.mpr ⟨hc, List.forall_mem_append.mpr ⟨fun d hd => ?_, fun d hd => ?_⟩⟩
    · exact hcs d (List.mem_of_mem_take hd)
    · simp [isWordChar, Char.isAlphanum, ShortName.isDigit_of_mem_counter hd]

/-- An identifier can stand in a string literal as it is. -/
theorem fitsLiteral_of_isIdentifier {name : String} (h : isIdentifier name.toList = true) :
    FitsLiteral name := by
  refine ⟨?_, true, literalTail_of_isIdentifier h⟩
  rintro rfl
  cases h

/-- An identifier with the mark of generated classes before it is an identifier. -/
theorem isIdentifier_generatedMark_append {name : String} (h : isIdentifier name.toList = true) :
    isIdentifier (generatedMark ++ name).toList = true := by
  rw [String.toList_append, (by decide : generatedMark.toList = ['z', '_', '_'])]
  refine isIdentifier_cons.mpr ⟨by decide, List.forall_mem_append.mpr ⟨?_, ?_⟩⟩
  · exact List.all_eq_true.mp (by decide)
  · exact forall_isWordChar_of_isIdentifier h

/-- The text of a class file by its parts. The line with the full name is there only if the class
does not have the full name itself. -/
theorem source_convertModule (exports : Exports) (className : String) (m : NamedModule) :
    (convertModule exports className m).source =
      String.join (ClassFile.heading className
        (if className = generatedMark ++ m.name then [] else [ClassFile.fullNameLine m.name])) ++
      textOf (ClassFile.withoutNameLines (exports.qualify m.origin m.tokens)) := by
  rw [ClassFile.join_heading, convertModule]
  split
  · rfl
  · rw [String.join_cons, String.join_nil, String.append_empty]

/-- The file of a class that is made from a module gives its name once, and the name of the module
if the name of the class was cut. -/
theorem convertModule_reads_back {exports : Exports} {className text : String} {m : NamedModule}
    (hname : FitsLiteral className) (hmodule : isIdentifier m.name.toList = true)
    (htext : m.tokens = lex text)
    (hqualified : List.Forall₂ Qualified m.tokens (exports.qualify m.origin m.tokens)) :
    declaredName? (lex (convertModule exports className m).source) = some className ∧
      (nameLine.lineMatches (lex (convertModule exports className m).source)).length = 1 ∧
      (className ≠ generatedMark ++ m.name →
        ClassFile.fullName? (lex (convertModule exports className m).source) = some m.name) := by
  rw [htext] at hqualified
  have hbody := lineMatches_withoutNameLines hqualified
  have hbelow : ∀ line ∈ (if className = generatedMark ++ m.name then []
      else [ClassFile.fullNameLine m.name]), ClassFile.Unnamed line := by
    split
    · simp
    · exact List.forall_mem_singleton.mpr (ClassFile.fullNameLine_unnamed hmodule)
  rw [source_convertModule, htext]
  refine ⟨ClassFile.declaredName?_heading_append hname hbelow hbody, ?_, fun hcut => ?_⟩
  · rw [ClassFile.lineMatches_heading_append hname hbelow hbody]
    rfl
  · rw [if_neg hcut]
    exact ClassFile.fullName?_heading_append hname hmodule _

/-- **Generated class files read back**: if the names of all modules are identifiers, then the file
of a class that was made from a module gives the name of the class in its only naming line, and a
file whose class has a name that was cut gives the full name of the module. -/
theorem classFiles_read_back {texts : List (String × String)} {classes : List ClassModule}
    (hnames : ∀ m ∈ (Bundle.ofTexts texts).modules, isIdentifier m.name.toList = true)
    (hconvert : convertBundle (.ofTexts texts) = .ok classes) :
    ∀ c ∈ classes, c.converted = true →
      declaredName? (lex c.source) = some c.className ∧
        (nameLine.lineMatches (lex c.source)).length = 1 ∧
        (c.className ≠ generatedMark ++ c.module →
          ClassFile.fullName? (lex c.source) = some c.module) := by
  intro c hc hconverted
  have htokens : ∀ m ∈ (Bundle.ofTexts texts).modules, ∃ text, m.tokens = lex text := by
    intro m hm
    obtain ⟨text, -, htext⟩ :=
      Bundle.exists_text_of_mem_ofTexts ((Bundle.mem_modules_iff hconvert).mp hm).1
    exact ⟨text, htext⟩
  obtain ⟨-, rfl⟩ := convertBundle_eq_ok_iff.mp hconvert
  obtain ⟨m, hm, taken, rfl⟩ := exists_of_mem_convertAll hc hconverted
  obtain ⟨text, htext⟩ := htokens m hm
  have hmodule := hnames m hm
  have hname := isIdentifier_shorten (isIdentifier_generatedMark_append hmodule) taken
  exact convertModule_reads_back (fitsLiteral_of_isIdentifier hname) hmodule htext
    (Exports.forall₂_qualify hnames htokens m.origin m.tokens)

/-- A module with a long name and, in its body, an annotation of another name and what looks like a
naming line but for a blank. -/
def longTexts : List NamedText :=
  [⟨"cells.bas", "CellsOfTheRowsAndColumnsOfAllGrids",
    "'zebra NameSpace Grids\nAttribute. VB_Name = \"Grids\"\n"⟩]

/-- The name of its class is cut, and the full name is found all the same. -/
theorem classFiles_read_back_longTexts :
    ∃ c, convertBundle (.ofNamedTexts longTexts) = .ok [c] ∧
      (∀ m ∈ (Bundle.ofNamedTexts longTexts).modules, isIdentifier m.name.toList = true) ∧
      c.className = "z__CellsOfTheRowsAndColumnsO001" ∧
      declaredName? (lex c.source) = some "z__CellsOfTheRowsAndColumnsO001" ∧
      (nameLine.lineMatches (lex c.source)).length = 1 ∧
      ClassFile.fullName? (lex c.source) = some "CellsOfTheRowsAndColumnsOfAllGrids" := by
  obtain ⟨⟨classes, hconvert⟩, hmodules⟩ :=
    @exists_convertBundle_ofNamedTexts longTexts (by decide) (by decide)
  have hnames : ∀ m ∈ (Bundle.ofNamedTexts longTexts).modules,
      isIdentifier m.name.toList = true := by
    rw [hmodules]
    decide
  have hread := classFiles_read_back hnames hconvert
  obtain ⟨c, rfl, hname, hmodule, hconverted⟩ : ∃ c, classes = [c] ∧
      c.className = "z__CellsOfTheRowsAndColumnsO001" ∧
      c.module = "CellsOfTheRowsAndColumnsOfAllGrids" ∧ c.converted = true := by
    obtain ⟨-, rfl⟩ := convertBundle_eq_ok_iff.mp hconvert
    rw [hmodules, longTexts, List.map_cons, List.map_nil]
    have hshort : ShortName.shorten (generatedMark ++ "CellsOfTheRowsAndColumnsOfAllGrids") [] =
        "z__CellsOfTheRowsAndColumnsO001" := by
      decide
    exact ⟨_, rfl, hshort, rfl, rfl⟩
  have hcut : c.className ≠ generatedMark ++ c.module := by
    rw [hname, hmodule]
    decide
  obtain ⟨hdeclared, honce, hfull⟩ := hread c (by simp) hconverted
  exact ⟨c, hconvert, hnames, hname, hdeclared.trans (congrArg some hname), honce,
    (hfull hcut).trans (congrArg some hmodule)⟩

end VbaModules
