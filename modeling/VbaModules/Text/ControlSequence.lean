/-!
# Control sequences

A text may hold sequences that tell a terminal what to do. They begin with the escape character;
what follows decides how far they reach. What a text shows without a terminal is the text without
such sequences and without control characters other than white space.

White space that stands inside a sequence is shown. The characters after it are then shown as they
are up to the next control character, and there the sequence goes on.
-/

namespace VbaModules.Text

/-- How far a control sequence has been read. -/
inductive Sequence where
  /-- No sequence has begun. -/
  | outside
  /-- After the escape character. -/
  | escape
  /-- After the escape character and an intermediate one: one more character ends the sequence. -/
  | escapeTail
  /-- After the introducer of a control function, up to its final character. -/
  | control
  /-- At the beginning of a device control string. -/
  | deviceStart
  /-- Among the parameters of a device control string. -/
  | deviceParameters
  /-- Among the intermediate characters of a device control string. -/
  | deviceTail
  /-- In a string for the terminal, which only its terminator ends. -/
  | string
  /-- In a command for the operating system, which the bell ends. -/
  | command
deriving DecidableEq, Repr

namespace Sequence

/-- Whether one of the bytes of a character is the terminator of a string. -/
def holdsTerminator (c : Char) : Bool :=
  (String.utf8EncodeChar c).contains 0x9c

/-- What the character after the escape character begins or ends. -/
def afterEscape (n : Nat) : Sequence :=
  if n < 0x20 || 0x7f ≤ n then escape
  else if n < 0x30 then escapeTail
  else if n = 0x50 then deviceStart
  else if n = 0x58 || n = 0x5e || n = 0x5f then string
  else if n = 0x5b then control
  else if n = 0x5d then command
  else outside

/-- How far the sequence has been read after one more character. The escape character begins a new
sequence anywhere, and the two characters that cancel a sequence end it anywhere. -/
def next (s : Sequence) (c : Char) : Sequence :=
  let n := c.toNat
  if n = 0x1b then escape
  else if n = 0x18 || n = 0x1a then outside
  else match s with
    | outside => outside
    | escape => afterEscape n
    | escapeTail => if 0x30 ≤ n && n < 0x7f then outside else escapeTail
    | control => if 0x40 ≤ n && n < 0x7f then outside else control
    | deviceStart =>
      if n < 0x20 || 0x7f ≤ n then deviceStart
      else if n < 0x30 then deviceTail
      else if n < 0x40 then deviceParameters
      else string
    | deviceParameters =>
      if n < 0x20 || 0x7f ≤ n then deviceParameters
      else if n < 0x30 then deviceTail
      else if n < 0x3c then deviceParameters
      else string
    | deviceTail => if 0x30 ≤ n && n < 0x7f then string else deviceTail
    | string => if holdsTerminator c then outside else string
    | command => if n = 0x07 then outside else command

/-- Whether white space inside the sequence is shown. -/
def showsWhite : Sequence → Bool
  | outside | escape | escapeTail | control => true
  | _ => false

end Sequence

/-- Whether a character is ASCII white space. -/
def isAsciiWhite (c : Char) : Bool :=
  c == ' ' || c == '\t' || c == '\n' || c == '\r' || c.toNat == 0x0c

/-- Whether a character outside of sequences is shown. -/
def isShown (c : Char) : Bool :=
  isAsciiWhite c || (0x20 ≤ c.toNat && c.toNat != 0x7f)

/-- What the characters show, when `s` has been read before them. If `interrupted`, white space has
interrupted the sequence. -/
def shownFrom (s : Sequence) (interrupted : Bool) : List Char → List Char
  | [] => []
  | c :: cs =>
    if (interrupted || s == .outside) && isShown c then
      c :: shownFrom (if c.toNat < 0x80 then s else .outside) interrupted cs
    else if s.showsWhite && isAsciiWhite c && c != ' ' then
      c :: shownFrom s true cs
    else shownFrom (s.next c) false cs

/-- Characters that are shown outside of sequences, and so no escape character among them, are shown
as they are. -/
theorem shownFrom_outside_of_forall_isShown (interrupted : Bool) {cs : List Char}
    (h : ∀ c ∈ cs, isShown c = true) : shownFrom .outside interrupted cs = cs := by
  induction cs with
  | nil => rfl
  | cons c cs ih =>
    have hc : isShown c = true := h c List.mem_cons_self
    have hcs := ih fun d hd => h d (List.mem_cons_of_mem c hd)
    simp [shownFrom, hc, hcs]

/-- What a text shows without a terminal. -/
def shown (text : String) : String :=
  String.ofList (shownFrom .outside false text.toList)

/-- A text without control characters other than white space is shown as it is. -/
theorem shown_of_forall_isShown {text : String} (h : ∀ c ∈ text.toList, isShown c = true) :
    shown text = text := by
  rw [shown, shownFrom_outside_of_forall_isShown false h, String.ofList_toList]

end VbaModules.Text
