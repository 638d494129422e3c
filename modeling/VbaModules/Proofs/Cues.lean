import VbaModules.Merge.OptionStatement
import VbaModules.Proofs.NamesByLine
import VbaModules.Proofs.OpeningWords

/-!
# What the first words of a line tell

Option statements count only outside of procedures, types and conditional blocks. Which lines are
outside can be told while the lines are read one after the other: the first words of a line tell
whether it opens a block, closes one or states an option (`cue?`), and what is open is kept in a
small state (`Reading`). Nothing else in a line matters.

The tokens of a line after its code play no part (`cues_append_of_idle`), nor do lines without code
(`cues_of_idle`), and the cues of whole lines are those of each line in turn
(`cues_append`).
-/

namespace VbaModules

open Token Candidate

/-! ### Cues -/

/-- What a line tells about the blocks of a module by its first words. -/
inductive Cue where
  | opensConditional
  | closesConditional
  /-- The header of a procedure or type. -/
  | opensBlock (keyword : String)
  /-- The end of a procedure or type. -/
  | closesBlock (keyword : String)
  /-- An option statement, in its normal form. -/
  | states (option : String)
deriving DecidableEq, Repr

/-- The words that begin and end procedures and types. -/
def blockKeywords : List String :=
  ["property", "sub", "function", "enum", "type"]

/-- The start of a line that ends a procedure or type. -/
def blockEnd : Pattern :=
  ⟨[.words ["end"], .words blockKeywords]⟩

/-- The last word of a match at the head of the tokens. -/
def Pattern.headWord? (p : Pattern) (ts : List Token) : Option String :=
  (p.matchLength? ts).map fun n => lastWord ts ⟨0, n⟩

/-- The cue of the line at the head of the tokens, if it begins with a word. -/
def wordCue? (ts : List Token) : Option Cue :=
  match blockHeader.headWord? ts, blockEnd.headWord? ts with
  | some keyword, _ => some (.opensBlock keyword)
  | none, some keyword => some (.closesBlock keyword)
  | none, none =>
    if declarationStart.headWord? ts = some "option" then
      some (.states (OptionStatement.normalForm (ts.takeWhile (!·.isLineBreak))))
    else none

/-- The cue of the line at the head of the tokens. -/
def cue? (ts : List Token) : Option Cue :=
  match ts.head?.map Token.kind with
  | some (.conditional .opening) => some .opensConditional
  | some (.conditional .closing) => some .closesConditional
  | _ => wordCue? ts

/-- The cues of the lines, in order. The flag tells whether the tokens begin at the start of a
line. -/
def cues (atLineStart : Bool) : List Token → List Cue
  | [] => []
  | t :: ts =>
    (if atLineStart && !t.isBlank then (cue? (t :: ts)).toList else []) ++
      cues (lineStartAfter atLineStart t) ts

/-! ### Tokens without a part in the cues -/

/-- The patterns by which the cues are told. -/
def cuePatterns : List Pattern :=
  [blockHeader, blockEnd, declarationStart]

/-- Whether no element of these patterns accepts the token. -/
def Token.isNoCueWord (t : Token) : Bool :=
  cuePatterns.all fun p => p.elements.all fun e => !e.accepts t

/-- Whether the token is **idle**: it has no part in the meaning of a statement, and it is not
taken for one of the first words of a line. -/
def Token.isIdle (t : Token) : Bool :=
  t.isFiller && (t.isBlank || t.isNoCueWord)

theorem Token.accepts_eq_false_of_isNoCueWord {t : Token} (h : t.isNoCueWord = true) {p : Pattern}
    (hp : p ∈ cuePatterns) {e : Element} (he : e ∈ p.elements) : e.accepts t = false := by
  have hall := List.all_eq_true.mp (List.all_eq_true.mp h p hp) e he
  simpa using hall

/-- A line break is no word of a cue. -/
theorem Token.isNoCueWord_of_isLineBreak {t : Token} (h : t.isLineBreak = true) :
    t.isNoCueWord = true := by
  refine List.all_eq_true.mpr fun p hp => List.all_eq_true.mpr fun e he => ?_
  have hstays : p.staysInLine = true := by
    have hall : cuePatterns.all Pattern.staysInLine = true := by decide
    exact List.all_eq_true.mp hall p hp
  cases hacc : e.accepts t with
  | false => rfl
  | true =>
    rw [Pattern.isLineBreak_eq_false_of_accepts hstays he hacc] at h
    cases h

/-- Blanks are idle. -/
theorem Token.isIdle_of_isBlank {t : Token} (h : t.isBlank = true) : t.isIdle = true := by
  have hkind : t.kind = .blank := by simpa [isBlank] using h
  simp [isIdle, isFiller, hkind, h]

/-- So are line breaks. -/
theorem Token.isIdle_of_isLineBreak {t : Token} (h : t.isLineBreak = true) : t.isIdle = true := by
  have hkind : t.kind = .lineBreak := by simpa [isLineBreak] using h
  simp [isIdle, isFiller, hkind, isNoCueWord_of_isLineBreak h]

/-- The first token that is not blank is not taken for a cue. -/
def Token.noCueNext (ts : List Token) : Prop :=
  ∀ t, (ts.dropWhile isBlank).head? = some t → t.isNoCueWord = true

/-- No word of a cue stands next where all tokens are idle. -/
theorem Token.noCueNext_of_isIdle {ts : List Token} (h : ∀ t ∈ ts, t.isIdle = true) :
    noCueNext ts := by
  intro t ht
  have hmem : t ∈ ts := (List.dropWhile_sublist _).mem (List.mem_of_head? ht)
  have hblank := isBlank_eq_false_of_head?_dropWhile ht
  have hidle := h t hmem
  rw [isIdle, hblank, Bool.false_or, Bool.and_eq_true] at hidle
  exact hidle.2

theorem Token.noCueNext_cons {t : Token} (hblank : t.isBlank = false) (h : t.isNoCueWord = true)
    (ts : List Token) : noCueNext (t :: ts) := by
  intro u hu
  rw [List.dropWhile_cons_of_neg (by simp [hblank]), List.head?_cons, Option.some.injEq] at hu
  exact hu ▸ h

/-- Elements do not look past a token that none of them accepts. -/
theorem Pattern.align_append_of_stop {es : List Element} {ys : List Token}
    (h : ∀ e ∈ es, (ys.dropWhile isBlank).head?.any e.accepts = false) (xs : List Token) :
    align es (xs ++ ys) = align es xs := by
  induction es generalizing xs with
  | nil => rfl
  | cons e es ih =>
    obtain ⟨he, hes⟩ := List.forall_mem_cons.mp h
    by_cases hblank : ∀ t ∈ xs, t.isBlank = true
    · -- the first token to take would be that none accepts
      have hxs : xs.dropWhile isBlank = [] := List.dropWhile_eq_nil_iff.mpr hblank
      rw [align, align, List.dropWhile_append_of_pos hblank, he, hxs, List.head?_nil,
        Option.any_none, ih hes]
      rfl
    · obtain ⟨t, ht, htblank⟩ := not_forall₂.mp hblank
      have hne : xs.dropWhile isBlank ≠ [] := fun hnil =>
        htblank (List.dropWhile_eq_nil_iff.mp hnil t ht)
      obtain ⟨u, us, hus⟩ := List.exists_cons_of_ne_nil hne
      have hsplit : xs = xs.takeWhile isBlank ++ u :: us := by
        rw [← hus, List.takeWhile_append_dropWhile]
      have hhead : (xs.dropWhile isBlank).head? = some u := hus ▸ rfl
      have hu := isBlank_eq_false_of_head?_dropWhile hhead
      have hall : ∀ t ∈ xs.takeWhile isBlank, t.isBlank = true := fun t ht =>
        List.mem_takeWhile_imp ht
      -- the element takes `u` or is left out, and what follows `xs` is seen in neither case
      generalize xs.takeWhile isBlank = front at hsplit hall
      subst hsplit
      rw [align, align, List.append_assoc, List.takeWhile_append_of_pos hall,
        List.takeWhile_append_of_pos hall, List.dropWhile_append_of_pos hall,
        List.dropWhile_append_of_pos hall, List.cons_append,
        List.takeWhile_cons_of_neg (by simp [hu]), List.takeWhile_cons_of_neg (by simp [hu]),
        List.dropWhile_cons_of_neg (by simp [hu]), List.dropWhile_cons_of_neg (by simp [hu]),
        List.append_nil, List.head?_cons, List.head?_cons, List.drop_length_add_append,
        List.drop_length_add_append, List.drop_one, List.drop_one, List.tail_cons, List.tail_cons,
        ih hes us, ← List.cons_append, ← List.append_assoc, ih hes]

/-- The first words of a line do not depend on what comes after its code. -/
theorem Pattern.headWord?_append {p : Pattern} (hp : p ∈ cuePatterns) {ys : List Token}
    (h : noCueNext ys) (xs : List Token) : p.headWord? (xs ++ ys) = p.headWord? xs := by
  have hstop : ∀ e ∈ p.elements, (ys.dropWhile isBlank).head?.any e.accepts = false := by
    intro e he
    cases hnext : (ys.dropWhile isBlank).head? with
    | none => rfl
    | some t => exact accepts_eq_false_of_isNoCueWord (h t hnext) hp he
  rw [headWord?, headWord?, matchLength?, matchLength?, align_append_of_stop hstop]
  refine Option.map_congr fun n hn => ?_
  obtain ⟨halign, hpos⟩ := Option.filter_eq_some_iff.mp hn
  have hle := align_le_length halign
  rw [decide_eq_true_eq] at hpos
  rw [lastWord, lastWord, lastToken?, lastToken?, List.getElem?_append_left (by simp only; omega)]

/-- Where no word of a cue stands next, no line with a cue begins. -/
theorem Pattern.headWord?_eq_none {p : Pattern} (hp : p ∈ cuePatterns) {ts : List Token}
    (h : noCueNext ts) : p.headWord? ts = none := by
  have hnil : p.headWord? [] = none := by
    have hall : cuePatterns.all fun p => (p.headWord? []).isNone = true := by decide
    simpa using List.all_eq_true.mp hall p hp
  exact (headWord?_append hp h []).trans hnil

theorem head?_map_kind_append {xs : List Token} (hne : xs ≠ []) (ys : List Token) :
    (xs ++ ys).head?.map Token.kind = xs.head?.map Token.kind := by
  rw [List.head?_append_of_ne_nil _ hne]

/-- The cue of a line does not depend on what follows, if its head words and the option it states do
not. -/
theorem cue?_append {xs ys : List Token} (hne : xs ≠ [])
    (hwords : ∀ p ∈ cuePatterns, p.headWord? (xs ++ ys) = p.headWord? xs)
    (hform : OptionStatement.normalForm ((xs ++ ys).takeWhile (!·.isLineBreak)) =
      OptionStatement.normalForm (xs.takeWhile (!·.isLineBreak))) :
    cue? (xs ++ ys) = cue? xs := by
  rw [cue?, cue?, wordCue?, wordCue?, head?_map_kind_append hne, hwords _ (by simp [cuePatterns]),
    hwords _ (by simp [cuePatterns]), hwords _ (by simp [cuePatterns]), hform]

/-- Fillers at the end do not show in the normal form of an option. -/
theorem OptionStatement.normalForm_append_of_isFiller {xs ys : List Token}
    (h : ∀ t ∈ ys, t.isFiller = true) : normalForm (xs ++ ys) = normalForm xs := by
  have hnone : ys.filter (!·.isFiller) = [] := by
    refine List.filter_eq_nil_iff.mpr fun t ht => ?_
    simp [h t ht]
  rw [normalForm, normalForm, List.filter_append, hnone, List.append_nil]

theorem isFiller_of_isIdle {t : Token} (h : t.isIdle = true) : t.isFiller = true :=
  (Bool.and_eq_true_iff.mp h).1

/-- A run that ends within a list does not depend on what follows the list. -/
theorem takeWhile_append_of_exists {α : Type} {p : α → Bool} {xs : List α}
    (h : ∃ x ∈ xs, p x = false) (ys : List α) : (xs ++ ys).takeWhile p = xs.takeWhile p := by
  induction xs with
  | nil => simp at h
  | cons x xs ih =>
    rw [List.cons_append, List.takeWhile_cons, List.takeWhile_cons]
    cases hx : p x with
    | false => rfl
    | true =>
      have hrest : ∃ y ∈ xs, p y = false := by simpa [hx] using h
      rw [ih hrest]

/-- The cue of a line does not depend on what stands idle after its code. -/
theorem cue?_append_of_idle {xs ys : List Token} (hne : xs ≠ [])
    (h : ∀ t ∈ ys, t.isIdle = true) : cue? (xs ++ ys) = cue? xs := by
  refine cue?_append hne (fun p hp => Pattern.headWord?_append hp (noCueNext_of_isIdle h) xs) ?_
  by_cases hbreak : ∀ t ∈ xs, t.isLineBreak = false
  · have hall : ∀ t ∈ xs, (!t.isLineBreak) = true := by simpa using hbreak
    rw [List.takeWhile_append_of_pos hall, List.takeWhile_eq_self_iff.mpr hall]
    refine OptionStatement.normalForm_append_of_isFiller fun t ht => ?_
    exact isFiller_of_isIdle (h t ((List.takeWhile_sublist _).mem ht))
  · have hexists : ∃ t ∈ xs, (!t.isLineBreak) = false := by simpa using hbreak
    rw [takeWhile_append_of_exists hexists]

/-- The cue of a line that is ended does not depend on the lines after it. -/
theorem cue?_append_of_lineBreak {xs : List Token} (h : ∃ t ∈ xs, t.isLineBreak = true)
    (ys : List Token) : cue? (xs ++ ys) = cue? xs := by
  obtain ⟨t, ht, hbreak⟩ := h
  obtain ⟨before, after, rfl⟩ := List.append_of_mem ht
  have hblank : t.isBlank = false := by
    have hkind : t.kind = .lineBreak := by simpa [isLineBreak] using hbreak
    simp [isBlank, hkind]
  have hnext : ∀ us, noCueNext (t :: us) :=
    noCueNext_cons hblank (isNoCueWord_of_isLineBreak hbreak)
  refine cue?_append (by simp) (fun p hp => ?_) ?_
  · rw [List.append_assoc, List.cons_append, Pattern.headWord?_append hp (hnext _),
      Pattern.headWord?_append hp (hnext _)]
  · rw [takeWhile_append_of_exists ⟨t, ht, by simp [hbreak]⟩]

/-- A line whose first token is neither a directive nor taken for a cue has none. -/
theorem cue?_of_isNoCueWord {t : Token} (h : t.isNoCueWord = true) (hblank : t.isBlank = false)
    (hkind : ∀ d, t.kind ≠ .conditional d) (ts : List Token) : cue? (t :: ts) = none := by
  have hnone : ∀ p ∈ cuePatterns, p.headWord? (t :: ts) = none := fun p hp =>
    Pattern.headWord?_eq_none hp (noCueNext_cons hblank h ts)
  obtain ⟨kind, text⟩ := t
  rw [cue?, wordCue?, hnone _ (by simp [cuePatterns]), hnone _ (by simp [cuePatterns]),
    hnone _ (by simp [cuePatterns])]
  rcases kind with _ | _ | _ | _ | _ | _ | (_ | _ | _ | _) | _ <;>
    first | rfl | exact absurd rfl (hkind _)

/-- A line that begins with a token that is idle has no cue. -/
theorem cue?_of_idle {t : Token} (h : t.isIdle = true) (hblank : t.isBlank = false)
    (ts : List Token) : cue? (t :: ts) = none := by
  have hfiller := isFiller_of_isIdle h
  rw [isIdle, hblank, Bool.false_or, Bool.and_eq_true] at h
  refine cue?_of_isNoCueWord h.2 hblank (fun d hkind => ?_) ts
  rw [isFiller, hkind] at hfiller
  cases hfiller

/-! ### The cues of parts -/

/-- Idle tokens tell nothing, but those behind them may begin a line. -/
theorem cues_of_idle {ts : List Token} (h : ∀ t ∈ ts, t.isIdle = true) (atLineStart : Bool)
    (us : List Token) :
    cues atLineStart (ts ++ us) = cues (ts.foldl lineStartAfter atLineStart) us := by
  induction ts generalizing atLineStart with
  | nil => rfl
  | cons t ts ih =>
    obtain ⟨ht, hts⟩ := List.forall_mem_cons.mp h
    have hnone :
        (if atLineStart && !t.isBlank then (cue? (t :: (ts ++ us))).toList else []) = [] := by
      cases hblank : t.isBlank with
      | true => simp
      | false => simp [cue?_of_idle ht hblank]
    rw [List.cons_append, cues, hnone, List.nil_append, ih hts, List.foldl_cons]

/-- What stands idle after the code of a line has no part in the cues. -/
theorem cues_append_of_idle {us : List Token} (h : ∀ t ∈ us, t.isIdle = true)
    (atLineStart : Bool) (ts : List Token) :
    cues atLineStart (ts ++ us) = cues atLineStart ts := by
  induction ts generalizing atLineStart with
  | nil =>
    have hcues := cues_of_idle h atLineStart []
    rwa [List.append_nil] at hcues
  | cons t ts ih =>
    rw [List.cons_append, cues, cues, ih, ← List.cons_append, cue?_append_of_idle (by simp) h]

/-- **The cues of whole lines** are those of the first lines, then those of the rest. -/
theorem cues_append {ts : List Token} (h : wholeLines ts = true) (atLineStart : Bool)
    (us : List Token) :
    cues atLineStart (ts ++ us) =
      cues atLineStart ts ++ cues (ts.foldl lineStartAfter atLineStart) us := by
  induction ts generalizing atLineStart with
  | nil => rfl
  | cons t ts ih =>
    have hrest : wholeLines ts = true := by
      cases ts with
      | nil => rfl
      | cons u ts => rwa [wholeLines, List.getLast?_cons_cons] at h
    have hbreak : ∃ u ∈ t :: ts, u.isLineBreak = true := by
      obtain ⟨last, hlast⟩ : ∃ last, (t :: ts).getLast? = some last :=
        Option.isSome_iff_exists.mp (by simp)
      rw [wholeLines, hlast, Option.all_some] at h
      exact ⟨last, List.mem_of_getLast? hlast, h⟩
    rw [List.cons_append, cues, cues, ih hrest, ← List.cons_append,
      cue?_append_of_lineBreak hbreak, List.foldl_cons, List.append_assoc]

/-- Behind whole lines a line begins. -/
theorem Token.foldl_lineStartAfter_of_wholeLines {ts : List Token} (h : wholeLines ts = true) :
    ts.foldl lineStartAfter true = true := by
  have hbegins := beginsLine_of_wholeLines h []
  rwa [beginsLine, List.append_nil, List.take_length] at hbegins

/-- **Whole lines tell what they tell**, whatever follows. -/
theorem cues_lines_append {ts : List Token} (h : wholeLines ts = true) (us : List Token) :
    cues true (ts ++ us) = cues true ts ++ cues true us := by
  rw [cues_append h, foldl_lineStartAfter_of_wholeLines h]

/-! ### Reading -/

/-- What is open while the lines are read. -/
structure Reading where
  /-- How many conditional blocks are open. -/
  conditionals : Nat
  /-- The keyword of the procedure or type that is open. -/
  block : Option String
deriving DecidableEq, Repr

/-- The option statement of a cue. -/
def Cue.option? : Cue → Option String
  | states option => some option
  | _ => none

namespace Reading

/-- Nothing is open. -/
def outside : Reading :=
  ⟨0, none⟩

/-- What is open after a line. A line that closes a block which is not open has no effect, and
within a procedure or type no other is opened. -/
def step (r : Reading) : Cue → Reading
  | .opensConditional => { r with conditionals := r.conditionals + 1 }
  | .closesConditional => { r with conditionals := r.conditionals - 1 }
  | .opensBlock keyword => { r with block := r.block.or (some keyword) }
  | .closesBlock keyword => { r with block := r.block.filter (· != keyword) }
  | .states _ => r

/-- What is open after some lines. -/
def after (r : Reading) (cs : List Cue) : Reading :=
  cs.foldl step r

/-- The option statements that are read while nothing is open. -/
def options (r : Reading) : List Cue → List String
  | [] => []
  | c :: cs => (if r = outside then c.option?.toList else []) ++ (r.step c).options cs

@[simp]
theorem after_nil (r : Reading) : r.after [] = r :=
  rfl

/-- What is open after two rows of cues is what the second leaves open of what the first did. -/
theorem after_append (r : Reading) (cs ds : List Cue) :
    r.after (cs ++ ds) = (r.after cs).after ds :=
  List.foldl_append

/-- What is read of two rows of cues is read one after the other. -/
theorem options_append (r : Reading) (cs ds : List Cue) :
    r.options (cs ++ ds) = r.options cs ++ (r.after cs).options ds := by
  induction cs generalizing r with
  | nil => rfl
  | cons c cs ih => rw [List.cons_append, options, options, ih, List.append_assoc]; rfl

/-- **Parts that leave nothing open are read one by one.** -/
theorem options_flatMap {α : Type} {f : α → List Cue} {xs : List α}
    (h : ∀ x ∈ xs, outside.after (f x) = outside) :
    outside.after (xs.flatMap f) = outside ∧
      outside.options (xs.flatMap f) = xs.flatMap fun x => outside.options (f x) := by
  induction xs with
  | nil => exact ⟨rfl, rfl⟩
  | cons x xs ih =>
    obtain ⟨hx, hxs⟩ := List.forall_mem_cons.mp h
    obtain ⟨hafter, hoptions⟩ := ih hxs
    rw [List.flatMap_cons, List.flatMap_cons, after_append, options_append, hx]
    exact ⟨hafter, by rw [hoptions]⟩

end Reading

end VbaModules
