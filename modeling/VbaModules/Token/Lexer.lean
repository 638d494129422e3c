import VbaModules.Token.Basic
import VbaModules.Token.Keyword

/-!
# From text to tokens

The lexer reads module text without a grammar and never fails: what no rule claims becomes a token
of kind `unknown`. At each position the rules look at the first character and at what is known of
the line so far, and decide the kind of the next token and how many characters it takes. Cutting
the text at these lengths makes the token texts, so no character is lost or changed
(`textOf_scan`).

The quoted value of an `Attribute VB_Name` line is then split into quote, name, quote, so that the
name of the module can be renamed like any other identifier.
-/

namespace VbaModules.Lexer

open Text

/-! ### Lengths of runs -/

/-- The blanks inside a line. -/
def isBlankChar (c : Char) : Bool :=
  c == ' ' || c == '\t'

/-- The characters of a line break. -/
def isBreakChar (c : Char) : Bool :=
  c == '\r' || c == '\n'

/-- How many characters at the start satisfy `p` without a gap. -/
def runLength (p : Char → Bool) (cs : List Char) : Nat :=
  (cs.takeWhile p).length

/-- How many characters stand before the next line break. -/
def restOfLine (cs : List Char) : Nat :=
  runLength (!isBreakChar ·) cs

/-- The length of the line break at the start, or zero when there is none. -/
def lineBreakLength : List Char → Nat
  | '\r' :: '\n' :: _ => 2
  | '\r' :: _ => 1
  | '\n' :: _ => 1
  | _ => 0

/-- The length of the line continuation at the start: an underscore, blanks, a line break and the
indentation of the next line. -/
def continuation? : List Char → Option Nat
  | '_' :: cs =>
    let gap := runLength isBlankChar cs
    let lineBreak := lineBreakLength (cs.drop gap)
    if lineBreak = 0 then none
    else some (1 + gap + lineBreak + runLength isBlankChar (cs.drop (gap + lineBreak)))
  | _ => none

theorem continuation?_pos {cs : List Char} {n : Nat} (h : continuation? cs = some n) :
    0 < n ∧ cs ≠ [] := by
  unfold continuation? at h
  split at h
  · simp only [Option.ite_none_left_eq_some, Option.some.injEq] at h
    exact ⟨by omega, by simp⟩
  · simp at h

/-- How many characters at the start are blanks or belong to line continuations. -/
def spaceLength (cs : List Char) : Nat :=
  let gap := runLength isBlankChar cs
  match _h : continuation? (cs.drop gap) with
  | none => gap
  | some n => gap + n + spaceLength (cs.drop (gap + n))
termination_by cs.length
decreasing_by
  obtain ⟨hn, hne⟩ := continuation?_pos _h
  have : cs ≠ [] := fun hcs => hne (by simp [hcs])
  have := List.length_pos_iff.mpr this
  simp only [List.length_drop]
  omega

/-- How many characters a string literal has after its opening quote. A doubled quote stands for
one inside the literal; an unclosed literal ends with its line. -/
def stringLength : List Char → Nat
  | [] => 0
  | '"' :: '"' :: cs => 2 + stringLength cs
  | c :: cs => if c == '"' then 1 else if isBreakChar c then 0 else 1 + stringLength cs

/-- The length of the identifier at the start. -/
def wordLength? : List Char → Option Nat
  | [] => none
  | c :: cs => if c.isAlpha then some (1 + runLength isWordChar cs) else none

/-- The length of the octal or hexadecimal literal whose ampersand stands just before: the radix
letter, at least one digit and possibly a closing ampersand. -/
def radixLength? : List Char → Option Nat
  | [] => none
  | radix :: cs =>
    let digits :=
      if radix.toLower == 'h' then runLength isHexDigit cs
      else if radix.toLower == 'o' then runLength isOctDigit cs
      else 0
    if digits = 0 then none
    else some (1 + digits + if (cs.drop digits).head? = some '&' then 1 else 0)

/-! ### Directives -/

/-- The identifier at the start after blanks, folded, with the number of characters up to its
end. -/
def directiveWord? (cs : List Char) : Option (String × Nat) :=
  let gap := runLength isBlankChar cs
  (wordLength? (cs.drop gap)).map fun n =>
    (foldCase (String.ofList ((cs.drop gap).take n)), gap + n)

/-- The directive whose number sign stands just before, with the number of its characters. Blanks
may follow the number sign and divide `End` from `If`. -/
def directive? (cs : List Char) : Option (Directive × Nat) :=
  match directiveWord? cs with
  | some ("if", n) => some (.opening, n)
  | some ("elseif", n) => some (.elseIf, n)
  | some ("else", n) => some (.otherwise, n)
  | some ("endif", n) => some (.closing, n)
  | some ("end", n) =>
    match directiveWord? (cs.drop n) with
    | some ("if", m) => some (.closing, n + m)
    | _ => none
  | _ => none

/-! ### The next token -/

/-- What the rules need to know of the line so far. -/
structure LineState where
  /-- Only blanks stand between the last line break and here. -/
  atStart : Bool
  /-- The last token that is not blank is a statement separator. -/
  afterSeparator : Bool
deriving DecidableEq, Repr

/-- The state at the start of a line. -/
def LineState.start : LineState :=
  ⟨true, false⟩

/-- The state after one more token. -/
def LineState.after (state : LineState) (token : Token) : LineState :=
  match token.kind with
  | .lineBreak => .start
  | .blank => state
  | kind => ⟨false, kind == .unknown && token.text == ":"⟩

/-- Kind and number of further characters of a token that starts with the letter `c`: a comment
where a statement may start with `Rem`, otherwise a keyword or a name. -/
def wordToken (state : LineState) (c : Char) (cs : List Char) : Token.Kind × Nat :=
  let n := runLength isWordChar cs
  let word := String.ofList (c :: cs.take n)
  let remark := (state.atStart || state.afterSeparator) && sameWord word "rem" &&
    (cs.drop n).head?.all fun next => isBlankChar next || isBreakChar next
  if remark then (.comment, restOfLine cs)
  else if Keyword.contains word then (.reserved, n)
  else (.name, n)

/-- Kind of the token that starts with `c`, and how many of the characters `cs` after it belong to
it. -/
def nextToken (state : LineState) (c : Char) (cs : List Char) : Token.Kind × Nat :=
  if isBreakChar c then (.lineBreak, lineBreakLength (c :: cs) - 1)
  else if isBlankChar c then (.blank, spaceLength cs)
  else if c == '"' then (.string, stringLength cs)
  else if c == '\'' then (.comment, restOfLine cs)
  else if c == '#' then
    match if state.atStart then directive? cs else none with
    | some (directive, n) => (.conditional directive, n)
    | none => (.unknown, 0)
  else if c == '&' then (.unknown, (radixLength? cs).getD 0)
  else if c.isAlpha then wordToken state c cs
  else if c.isDigit || c == '_' then (.unknown, runLength isWordChar cs)
  else (.unknown, 0)

/-- The tokens of a text, cut one after the other. -/
def scan (state : LineState) : List Char → List Token
  | [] => []
  | c :: cs =>
    let (kind, n) := nextToken state c cs
    let token : Token := ⟨kind, String.ofList (c :: cs.take n)⟩
    token :: scan (state.after token) (cs.drop n)
termination_by cs => cs.length

/-- **Scanning loses nothing**: the token texts in a row are the text that was read. -/
theorem textOf_scan (state : LineState) (cs : List Char) :
    (Token.textOf (scan state cs)).toList = cs := by
  fun_induction scan state cs with
  | case1 => simp [Token.textOf]
  | case2 state c cs kind n _ token ih =>
    rw [Token.toList_textOf] at ih ⊢
    rw [List.flatMap_cons, ih]
    simp [token]

/-! ### The name of the module -/

/-- The tokens that begin the line in which a module gives its name. -/
def beginsNameLine : List Token → Bool
  | a :: s :: v :: _ =>
    a.kind == .reserved && a.spells "attribute" && s.isBlank &&
      v.kind == .reserved && v.spells "vb_name"
  | _ => false

/-- What stands between the quotes of a closed and non-empty string literal. -/
def unquoted? (text : String) : Option String :=
  match text.toList with
  | _ :: cs =>
    if cs.length ≥ 2 && cs.getLast? == some '"' then some (String.ofList cs.dropLast) else none
  | [] => none

/-- The token of a quote that stands on its own. -/
def quoteToken : Token :=
  ⟨.unknown, "\""⟩

/-- Splits the string literal after the start of a name line into quote, name, quote. Here `due`
counts the starts seen on the current line that still wait for their literal; an empty or unclosed
literal serves all of them and is left as it is. -/
def splitNames (due : Nat) : List Token → List Token
  | [] => []
  | t :: ts =>
    if t.isLineBreak then t :: splitNames 0 ts
    else if t.kind == .string && due != 0 then
      match unquoted? t.text with
      | some name => quoteToken :: ⟨.name, name⟩ :: quoteToken :: splitNames (due - 1) ts
      | none => t :: splitNames 0 ts
    else if beginsNameLine (t :: ts) then t :: splitNames (due + 1) ts
    else t :: splitNames due ts

/-- The tokens of a module. A byte order mark at the very start is a blank. -/
def lex (text : String) : List Token :=
  splitNames 0 <|
    match text.toList with
    | '\uFEFF' :: cs => ⟨.blank, "\uFEFF"⟩ :: scan .start cs
    | cs => scan .start cs

end VbaModules.Lexer
