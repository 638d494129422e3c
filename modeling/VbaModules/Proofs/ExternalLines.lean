import VbaModules.Proofs.KeptLines

/-!
# Lines that declare external procedures

A line that declares a private external procedure names the procedure, then its library, and then
perhaps the entry point in an `Alias` clause (`DeclaresExternal`). A clause is missing exactly in
those of these lines that have none (`mem_unaliased_iff`), and in at most one place of each. Whether
it is missing can be told from the line alone, so the clauses can be put in line by line
(`aliased_append`).
-/

namespace VbaModules

open Token Lexer ClassFile

/-! ### The next token that is not blank -/

namespace Token

variable {tokens : List Token} {start stop i : Nat}

theorem getElem?_slice_append {gap more : List Token} {t : Token}
    (h : slice tokens start stop = gap ++ t :: more) : tokens[start + gap.length]? = some t := by
  have hget : (slice tokens start stop)[gap.length]? = some t := by simp [h]
  rw [slice, List.getElem?_drop, List.getElem?_take] at hget
  split at hget
  · exact hget
  · cases hget

/-- What follows a token of a slice is the slice from behind it. -/
theorem slice_succ_of_append {gap more : List Token} {t : Token}
    (h : slice tokens start stop = gap ++ t :: more) :
    slice tokens (start + gap.length + 1) stop = more := by
  have hdrop : slice tokens (start + gap.length + 1) stop =
      (slice tokens start stop).drop (gap.length + 1) := by
    rw [slice, slice, List.drop_drop, Nat.add_assoc]
  rw [hdrop, h, List.append_cons, List.drop_left' (by simp)]

/-- The next token that is not blank stands behind a gap of blanks. -/
theorem nextNonBlank?_eq_some_iff :
    nextNonBlank? tokens start stop = some i ↔
      ∃ gap t more, slice tokens start stop = gap ++ t :: more ∧
        (∀ u ∈ gap, u.isBlank = true) ∧ t.isBlank = false ∧ i = start + gap.length := by
  rw [nextNonBlank?, Option.map_eq_some_iff]
  generalize slice tokens start stop = ts
  constructor
  · rintro ⟨k, hk, rfl⟩
    obtain ⟨hlt, hblank, hgap⟩ := List.findIdx?_eq_some_iff_getElem.mp hk
    refine ⟨ts.take k, ts[k], ts.drop (k + 1), ?_, fun u hu => ?_, by simpa using hblank, ?_⟩
    · rw [← List.drop_eq_getElem_cons hlt, List.take_append_drop]
    · obtain ⟨j, hj, rfl⟩ := List.mem_take_iff_getElem.mp hu
      simpa using hgap j (by omega)
    · rw [List.length_take_of_le hlt.le]
  · rintro ⟨gap, t, more, rfl, hgap, hblank, rfl⟩
    refine ⟨gap.length, List.findIdx?_eq_some_iff_getElem.mpr ⟨by simp, ?_, fun j hj => ?_⟩, rfl⟩
    · simp [hblank]
    · rw [List.getElem_append_left hj]
      simpa using hgap _ (List.getElem_mem hj)

/-- The first token that is not blank is the same wherever it is looked for. -/
theorem bind_nextNonBlank? :
    (nextNonBlank? tokens start stop).bind (tokens[·]?) =
      ((slice tokens start stop).dropWhile isBlank).head? := by
  cases hnext : nextNonBlank? tokens start stop with
  | none =>
    have hblank := List.findIdx?_eq_none_iff.mp (Option.map_eq_none_iff.mp hnext)
    have hnil : (slice tokens start stop).dropWhile isBlank = [] :=
      List.dropWhile_eq_nil_iff.mpr fun t ht => by simpa using hblank t ht
    rw [hnil]
    rfl
  | some i =>
    obtain ⟨gap, t, more, hslice, hgap, hblank, rfl⟩ := nextNonBlank?_eq_some_iff.mp hnext
    rw [Option.bind_some, getElem?_slice_append hslice, hslice, List.dropWhile_append_of_pos hgap,
      List.dropWhile_cons_of_neg (by simp [hblank]), List.head?_cons]

/-- A row can be split in one way only at its first token that is not blank. -/
theorem eq_of_blanks {gap gap' more more' : List Token} {t t' : Token}
    (h : gap ++ t :: more = gap' ++ t' :: more') (hgap : ∀ u ∈ gap, u.isBlank = true)
    (hgap' : ∀ u ∈ gap', u.isBlank = true) (ht : t.isBlank = false) (ht' : t'.isBlank = false) :
    gap = gap' ∧ t = t' ∧ more = more' := by
  have hrun := congrArg (List.takeWhile isBlank) h
  rw [List.takeWhile_append_of_pos hgap, List.takeWhile_append_of_pos hgap',
    List.takeWhile_cons_of_neg (by simp [ht]), List.takeWhile_cons_of_neg (by simp [ht']),
    List.append_nil, List.append_nil] at hrun
  subst hrun
  exact ⟨rfl, List.cons.inj (List.append_cancel_left h)⟩

end Token

namespace Qualify

/-! ### Libraries and clauses -/

/-- The tokens are a **clause** of a keyword and a string literal. -/
structure Clause (keyword : String) (ts : List Token) : Prop where
  exists_parts : ∃ gap word gap' literal, ts = gap ++ word :: (gap' ++ [literal]) ∧
    (∀ t ∈ gap, t.isBlank = true) ∧ word.spells keyword = true ∧
    (∀ t ∈ gap', t.isBlank = true) ∧ literal.kind = .string

/-- Whether the tokens begin with the keyword of an `Alias` clause. -/
def opensAlias (ts : List Token) : Bool :=
  (ts.dropWhile isBlank).head?.any (·.spells "alias")

/-- A token that spells a keyword is not blank. -/
theorem isBlank_eq_false_of_spells {t : Token} {word : String} (h : t.spells word = true) :
    t.isBlank = false := by
  rw [spells, Bool.and_eq_true, Bool.or_eq_true, beq_iff_eq, beq_iff_eq] at h
  rcases h.1 with hkind | hkind <;> rw [isBlank, hkind] <;> rfl

theorem isBlank_eq_false_of_string {t : Token} (h : t.kind = .string) : t.isBlank = false := by
  rw [isBlank, h]
  rfl

/-- A row begins with one clause at most. -/
theorem Clause.eq_of_append {keyword : String} {part part' rest rest' : List Token}
    (h : Clause keyword part) (h' : Clause keyword part') (heq : part ++ rest = part' ++ rest') :
    part = part' := by
  obtain ⟨gap, word, between, literal, rfl, hgap, hword, hbetween, hliteral⟩ := h.exists_parts
  obtain ⟨gap', word', between', literal', rfl, hgap', hword', hbetween', hliteral'⟩ :=
    h'.exists_parts
  simp only [List.append_assoc, List.cons_append, List.nil_append] at heq
  obtain ⟨rfl, rfl, hmore⟩ := eq_of_blanks heq hgap hgap' (isBlank_eq_false_of_spells hword)
    (isBlank_eq_false_of_spells hword')
  obtain ⟨rfl, rfl, -⟩ := eq_of_blanks hmore hbetween hbetween'
    (isBlank_eq_false_of_string hliteral) (isBlank_eq_false_of_string hliteral')
  rfl

theorem guard_eq_some {b : Bool} (h : b = true) : (guard (b = true) : Option Unit) = some () :=
  if_pos h

/-- **A clause is missing** behind the library, if what follows there is no clause. -/
theorem unaliased?_eq_some_iff {tokens : List Token} {m : Match} {position : Nat}
    {entryPoint : String} :
    unaliased? tokens m = some (position, entryPoint) ↔
      ∃ name part rest, tokens[m.stop - 1]? = some name ∧ name.text = entryPoint ∧
        slice tokens m.stop (lineEnd tokens m.stop) = part ++ rest ∧ Clause "lib" part ∧
        opensAlias rest = false ∧ position = m.stop + part.length := by
  constructor
  · intro h
    obtain ⟨name, hname, h⟩ := Option.bind_eq_some_iff.mp h
    obtain ⟨lib, hlib, h⟩ := Option.bind_eq_some_iff.mp h
    obtain ⟨_, hspells, h⟩ := Option.bind_eq_some_iff.mp h
    obtain ⟨library, hlibrary, h⟩ := Option.bind_eq_some_iff.mp h
    obtain ⟨_, hstring, h⟩ := Option.bind_eq_some_iff.mp h
    obtain ⟨_, halias, heq⟩ := Option.bind_eq_some_iff.mp h
    obtain ⟨rfl, rfl⟩ := Prod.mk.inj (Option.some.inj heq)
    -- the two tokens that are found are those of the clause, each with the blanks before it
    obtain ⟨gap, t, more, hslice, hgap, -, rfl⟩ := nextNonBlank?_eq_some_iff.mp hlib
    have hrest := slice_succ_of_append hslice
    obtain ⟨gap', u, rest, hslice', hgap', -, rfl⟩ := nextNonBlank?_eq_some_iff.mp hlibrary
    have hlast := slice_succ_of_append hslice'
    have ht := of_guard_eq_some hspells
    have hu := of_guard_eq_some hstring
    have hnone := of_guard_eq_some halias
    rw [getElem?_slice_append hslice, Option.any_some] at ht
    rw [getElem?_slice_append hslice', Option.any_some, beq_iff_eq] at hu
    rw [bind_nextNonBlank?, hlast, Bool.not_eq_true'] at hnone
    refine ⟨name, gap ++ t :: (gap' ++ [u]), rest, hname, rfl, ?_,
      ⟨gap, t, gap', u, rfl, hgap, ht, hgap', hu⟩, hnone, ?_⟩
    · rw [hslice, ← hrest, hslice']
      simp
    · simp only [List.length_append, List.length_cons, List.length_nil]
      omega
  · rintro ⟨name, part, rest, hname, rfl, hslice, hlibrary, halias, rfl⟩
    obtain ⟨gap, t, gap', u, rfl, hgap, ht, hgap', hu⟩ := hlibrary.exists_parts
    have hslice₁ : slice tokens m.stop (lineEnd tokens m.stop) =
        gap ++ t :: (gap' ++ u :: rest) := by
      rw [hslice]
      simp
    have hslice₂ := slice_succ_of_append hslice₁
    have hslice₃ := slice_succ_of_append hslice₂
    -- each step of the search finds the next part of the clause
    refine Option.bind_eq_some_iff.mpr ⟨name, hname, Option.bind_eq_some_iff.mpr
      ⟨m.stop + gap.length, ?_, Option.bind_eq_some_iff.mpr ⟨(), guard_eq_some ?_,
        Option.bind_eq_some_iff.mpr ⟨m.stop + gap.length + 1 + gap'.length, ?_,
          Option.bind_eq_some_iff.mpr ⟨(), guard_eq_some ?_,
            Option.bind_eq_some_iff.mpr ⟨(), guard_eq_some ?_, ?_⟩⟩⟩⟩⟩⟩
    · exact nextNonBlank?_eq_some_iff.mpr
        ⟨gap, t, _, hslice₁, hgap, isBlank_eq_false_of_spells ht, rfl⟩
    · rw [getElem?_slice_append hslice₁, Option.any_some, ht]
    · exact nextNonBlank?_eq_some_iff.mpr
        ⟨gap', u, _, hslice₂, hgap', isBlank_eq_false_of_string hu, rfl⟩
    · rw [getElem?_slice_append hslice₂, Option.any_some, hu]
      rfl
    · rw [bind_nextNonBlank?, hslice₃, Bool.not_eq_true']
      exact halias
    · refine congrArg some (Prod.ext ?_ rfl)
      simp only [List.length_append, List.length_cons, List.length_nil]
      omega

end Qualify

/-! ### Searching one line -/

/-- A pattern **covers** tokens if it can be laid along them from the first, which is not blank, to
the last. -/
structure Pattern.Covers (p : Pattern) (ts : List Token) : Prop where
  exists_first : ∃ t, ts.head? = some t ∧ t.isBlank = false
  align_eq : align p.elements ts = some ts.length

theorem Pattern.Covers.length_pos {p : Pattern} {ts : List Token} (h : p.Covers ts) :
    0 < ts.length := by
  obtain ⟨t, ht, -⟩ := h.exists_first
  exact List.length_pos_of_mem (List.mem_of_head? ht)

/-- A pattern that covers tokens covers them whatever follows, if its last element must take a
token. -/
theorem Pattern.Covers.align_append {p : Pattern} {ts : List Token} (h : p.Covers ts)
    (hends : endsTaking p.elements = true) (more : List Token) :
    align p.elements (ts ++ more) = some ts.length := by
  have hleft : align p.elements ((ts ++ more).take ts.length) = some ts.length := by
    rw [List.take_left]
    exact h.align_eq
  exact ((align_take_iff hends).mp hleft).1

namespace ClassFile

variable {line : List Token}

/-- A line is not empty, and breaks at its end only. -/
theorem isLine_iff :
    IsLine line ↔ line ≠ [] ∧ ∀ t ∈ line.dropLast, t.isLineBreak = false := by
  constructor
  · intro h
    refine ⟨h.ne_nil, ?_⟩
    induction h with
    | last t => simp
    | @cons t ts ht hts ih =>
      rw [List.dropLast_cons_of_ne_nil hts.ne_nil]
      exact List.forall_mem_cons.mpr ⟨ht, ih⟩
  · rintro ⟨hne, h⟩
    induction line with
    | nil => exact absurd rfl hne
    | cons t ts ih =>
      by_cases hts : ts = []
      · rw [hts]
        exact .last t
      · rw [List.dropLast_cons_of_ne_nil hts, List.forall_mem_cons] at h
        exact .cons h.1 (ih hts h.2)

/-- The end of a line is its end, wherever in it one starts to look. -/
theorem IsLine.lineEnd_eq {ts : List Token} (h : IsLine ts) {i : Nat} (hi : i ≤ ts.length) :
    lineEnd ts i = ts.length := by
  refine Nat.le_antisymm (lineEnd_bounds hi).2 (Nat.le_of_not_lt fun hlt => ?_)
  rw [lineEnd] at hlt
  split at hlt
  next offset hoffset =>
    obtain ⟨hlength, hbreak, -⟩ := List.findIdx?_eq_some_iff_getElem.mp hoffset
    rw [List.getElem_drop] at hbreak
    have hmem : ts[i + offset] ∈ ts.dropLast := by
      refine List.mem_of_getElem? (i := i + offset) ?_
      rw [List.getElem?_dropLast, if_pos (by omega), List.getElem?_eq_getElem]
    rw [(isLine_iff.mp h).2 _ hmem] at hbreak
    cases hbreak
  next => omega

/-- Only its indentation stands before the start of a line. -/
theorem IsLine.isBlank_of_beginsLine (h : IsLine line) {i : Nat} (hi : i < line.length)
    (hbegins : beginsLine line i = true) : ∀ t ∈ line.take i, t.isBlank = true := by
  obtain ⟨before, gap, htake, hbefore, hgap⟩ := exists_wholeLines_of_beginsLine hbegins
  obtain rfl : before = [] := by
    by_contra hne
    have hlast := hbefore
    rw [wholeLines, List.getLast?_eq_some_getLast hne, Option.all_some] at hlast
    have hmem : before.getLast hne ∈ line.take i := by
      rw [htake]
      exact List.mem_append_left _ (List.getLast_mem hne)
    obtain ⟨j, hj, hget⟩ := List.mem_take_iff_getElem.mp hmem
    have hdropped : before.getLast hne ∈ line.dropLast := by
      refine List.mem_of_getElem? (i := j) ?_
      rw [List.getElem?_dropLast, if_pos (by omega), ← hget, List.getElem?_eq_getElem]
    rw [(isLine_iff.mp h).2 _ hdropped] at hlast
    cases hlast
  rw [htake]
  exact hgap

/-- **A line is searched at its first token** that is not blank. -/
theorem IsLine.isMatch_iff {p : Pattern} (hends : Pattern.endsTaking p.elements = true)
    (h : IsLine line) {m : Match} :
    p.IsMatch true line m ↔
      ∃ indent opening rest, line = indent ++ (opening ++ rest) ∧
        (∀ t ∈ indent, t.isBlank = true) ∧ p.Covers opening ∧
        m = ⟨indent.length, indent.length + opening.length⟩ := by
  constructor
  · intro hm
    have hlt := hm.start_lt_stop
    have hle := hm.stop_le
    obtain ⟨t, ht, hblank⟩ := hm.exists_first
    have hlength : (slice line m.start m.stop).length = m.stop - m.start := length_slice hle
    refine ⟨line.take m.start, slice line m.start m.stop, line.drop m.stop, ?_,
      h.isBlank_of_beginsLine (by omega) (hm.beginsLine rfl), ⟨⟨t, ?_, hblank⟩, ?_⟩, ?_⟩
    · rw [slice, List.drop_take, ← List.append_assoc, ← List.take_add,
        Nat.add_sub_cancel' hlt.le, List.take_append_drop]
    · rw [List.head?_eq_getElem?, getElem?_slice (by omega), Nat.add_zero, ht]
    · rw [hlength, slice, List.drop_take, Pattern.align_take_iff hends]
      exact ⟨hm.align_eq, le_rfl⟩
    · rw [hlength, List.length_take_of_le (by omega), Nat.add_sub_cancel' hlt.le]
  · rintro ⟨indent, opening, rest, rfl, hindent, hcovers, rfl⟩
    obtain ⟨t, ht, hblank⟩ := hcovers.exists_first
    have hpos := hcovers.length_pos
    refine ⟨by simp only; omega, ⟨t, ?_, hblank⟩, fun _ => ?_, ?_⟩
    · rw [List.getElem?_append_right le_rfl, Nat.sub_self, List.getElem?_append_left hpos,
        ← List.head?_eq_getElem?, ht]
    · rw [beginsLine, List.take_left]
      exact foldl_lineStartAfter_of_isBlank hindent
    · rw [List.drop_left, Nat.add_sub_cancel_left]
      exact hcovers.align_append hends rest

/-- All matches in a line begin at its first token that is not blank. -/
theorem IsLine.start_eq {p p' : Pattern} {m m' : Match} (h : IsLine line)
    (hends : Pattern.endsTaking p.elements = true)
    (hends' : Pattern.endsTaking p'.elements = true) (hm : p.IsMatch true line m)
    (hm' : p'.IsMatch true line m') : m.start = m'.start := by
  obtain ⟨indent, opening, rest, rfl, hindent, hcovers, rfl⟩ := (h.isMatch_iff hends).mp hm
  obtain ⟨indent', opening', rest', heq, hindent', hcovers', rfl⟩ := (h.isMatch_iff hends').mp hm'
  obtain ⟨t, ht, hblank⟩ := hcovers.exists_first
  obtain ⟨t', ht', hblank'⟩ := hcovers'.exists_first
  obtain ⟨us, rfl⟩ := List.head?_eq_some_iff.mp ht
  obtain ⟨us', rfl⟩ := List.head?_eq_some_iff.mp ht'
  obtain ⟨rfl, -, -⟩ := eq_of_blanks heq hindent hindent' hblank hblank'
  rfl

/-- There is one match at most in a line. -/
theorem IsLine.lineMatches_eq_singleton {p : Pattern} {m : Match} (h : IsLine line)
    (hstays : p.staysInLine = true)
    (hends : Pattern.endsTaking p.elements = true) (hm : p.IsMatch true line m) :
    p.lineMatches line = [m] := by
  have hmem : m ∈ p.lineMatches line := (Pattern.mem_lineMatches_iff hstays).mpr hm
  have hsorted : (p.lineMatches line).Pairwise fun a b => a.start < b.start :=
    Pattern.pairwise_matchesFrom p true line 0
  have hstart : ∀ m' ∈ p.lineMatches line, m'.start = m.start := fun m' hm' =>
    h.start_eq hends hends ((Pattern.mem_lineMatches_iff hstays).mp hm') hm
  match hlist : p.lineMatches line with
  | [] => rw [hlist] at hmem; cases hmem
  | [a] =>
    rw [hlist] at hmem
    rw [List.mem_singleton.mp hmem]
  | a :: b :: more =>
    rw [hlist] at hstart hsorted
    have hlt := (List.pairwise_cons.mp hsorted).1 b List.mem_cons_self
    rw [hstart a (by simp), hstart b (by simp)] at hlt
    exact absurd hlt (lt_irrefl _)

end ClassFile

namespace Qualify

/-! ### External procedures -/

/-- The tokens **declare a private external procedure**: they begin a line with `Private Declare`
up to the name of the procedure, and then name its library in a clause. -/
structure DeclaresExternal (head : List Token) (name : Token) : Prop where
  exists_parts : ∃ indent opening part, head = indent ++ (opening ++ part) ∧
    (∀ t ∈ indent, t.isBlank = true) ∧ privateExternal.Covers opening ∧
    opening.getLast? = some name ∧ Clause "lib" part

theorem endsTaking_privateExternal : Pattern.endsTaking privateExternal.elements = true := by
  decide

/-- A line declares one external procedure at most. -/
theorem DeclaresExternal.eq_of_append {head head' rest rest' : List Token} {name name' : Token}
    (h : DeclaresExternal head name) (h' : DeclaresExternal head' name')
    (heq : head ++ rest = head' ++ rest') : head = head' ∧ name = name' := by
  obtain ⟨indent, opening, part, rfl, hindent, hcovers, hname, hpart⟩ := h.exists_parts
  obtain ⟨indent', opening', part', rfl, hindent', hcovers', hname', hpart'⟩ := h'.exists_parts
  obtain ⟨t, ht, hblank⟩ := hcovers.exists_first
  obtain ⟨t', ht', hblank'⟩ := hcovers'.exists_first
  simp only [List.append_assoc] at heq
  obtain ⟨rfl, hmore⟩ : indent = indent' ∧
      opening ++ (part ++ rest) = opening' ++ (part' ++ rest') := by
    obtain ⟨us, rfl⟩ := List.head?_eq_some_iff.mp ht
    obtain ⟨us', rfl⟩ := List.head?_eq_some_iff.mp ht'
    obtain ⟨rfl, rfl, hus⟩ := eq_of_blanks heq hindent hindent' hblank hblank'
    exact ⟨rfl, congrArg (t :: ·) hus⟩
  have hlength : opening.length = opening'.length := by
    have halign := hcovers.align_append endsTaking_privateExternal (part ++ rest)
    rw [hmore, hcovers'.align_append endsTaking_privateExternal] at halign
    exact (Option.some.inj halign).symm
  obtain ⟨rfl, hparts⟩ := List.append_inj hmore hlength
  obtain rfl := hpart.eq_of_append hpart' hparts
  exact ⟨rfl, Option.some.inj (hname.symm.trans hname')⟩

/-- The last token of a part is where the part stops. -/
theorem getElem?_stop_of_append {front part rest : List Token} (h : 0 < part.length) :
    (front ++ (part ++ rest))[front.length + part.length - 1]? = part.getLast? := by
  rw [List.getLast?_eq_getElem?, List.getElem?_append_right (by omega),
    List.getElem?_append_left (by omega)]
  congr 1
  omega

section Line

variable {line head rest : List Token} {name : Token}

/-- **Where a clause is missing in a line.** -/
theorem mem_unaliased_iff (h : IsLine line) {e : Nat × String} :
    e ∈ unaliased line ↔
      ∃ head name rest, line = head ++ rest ∧ DeclaresExternal head name ∧
        opensAlias rest = false ∧ e = (head.length, name.text) := by
  have hslice : ∀ {i : Nat}, i ≤ line.length → slice line i (lineEnd line i) = line.drop i := by
    intro i hi
    rw [h.lineEnd_eq hi, slice, List.take_length]
  -- a match covers the opening words, and the clause is found in what follows it
  rw [unaliased, List.mem_filterMap]
  constructor
  · rintro ⟨m, hm, he⟩
    obtain ⟨indent, opening, rest, hline, hindent, hcovers, rfl⟩ :=
      (h.isMatch_iff endsTaking_privateExternal).mp (Pattern.isMatch_of_mem_matchesFrom hm)
    obtain ⟨name, part, rest', hname, htext, hparts, hpart, halias, hposition⟩ :=
      unaliased?_eq_some_iff.mp he
    rw [hslice (by rw [hline]; simp), hline, ← List.append_assoc,
      List.drop_left' (by simp)] at hparts
    subst hparts
    refine ⟨indent ++ (opening ++ part), name, rest', by simp [hline],
      ⟨indent, opening, part, rfl, hindent, hcovers, ?_, hpart⟩, halias, Prod.ext ?_ htext.symm⟩
    · rw [← hname, hline]
      exact (getElem?_stop_of_append hcovers.length_pos).symm
    · rw [hposition]
      simp only [List.length_append]
      omega
  · rintro ⟨head, name, rest, hline, hdeclares, halias, rfl⟩
    obtain ⟨indent, opening, part, rfl, hindent, hcovers, hname, hpart⟩ := hdeclares.exists_parts
    have hparts : line = indent ++ (opening ++ (part ++ rest)) := by simp [hline]
    refine ⟨⟨indent.length, indent.length + opening.length⟩,
      (Pattern.mem_lineMatches_iff (by decide)).mpr
        ((h.isMatch_iff endsTaking_privateExternal).mpr
          ⟨indent, opening, part ++ rest, hparts, hindent, hcovers, rfl⟩),
      unaliased?_eq_some_iff.mpr ⟨name, part, rest, ?_, rfl, ?_, hpart, halias, ?_⟩⟩
    · rw [← hname, hparts]
      exact getElem?_stop_of_append hcovers.length_pos
    · rw [hslice (by rw [hparts]; simp), hparts, ← List.append_assoc,
        List.drop_left' (by simp)]
    · simp only [List.length_append]
      omega

/-- One clause at most is missing in a line. -/
theorem unaliased_eq_singleton (h : IsLine line) {e : Nat × String} (he : e ∈ unaliased line) :
    unaliased line = [e] := by
  obtain ⟨m, hm, he⟩ := List.mem_filterMap.mp he
  rw [unaliased, h.lineMatches_eq_singleton (by decide) endsTaking_privateExternal
    (Pattern.isMatch_of_mem_matchesFrom hm), List.filterMap_cons_some he, List.filterMap_nil]

end Line

/-! ### Clauses line by line -/

/-- The tokens with all clauses put in that are missing. -/
def aliased (tokens : List Token) : List Token :=
  addAliases (unaliased tokens) tokens

section Line

variable {line head rest : List Token} {name : Token}

/-- No clause is missing where there is one. -/
theorem unaliased_eq_nil (h : IsLine (head ++ rest)) (hdeclares : DeclaresExternal head name)
    (halias : opensAlias rest = true) : unaliased (head ++ rest) = [] := by
  refine List.eq_nil_iff_forall_not_mem.mpr fun e he => ?_
  obtain ⟨head', name', rest', heq, hdeclares', halias', -⟩ := (mem_unaliased_iff h).mp he
  obtain ⟨rfl, -⟩ := hdeclares.eq_of_append hdeclares' heq
  obtain rfl := List.append_cancel_left heq
  rw [halias] at halias'
  cases halias'

/-- **The clause of a line** that declares an external procedure stands behind the library. -/
theorem aliased_of_declaresExternal (h : IsLine (head ++ rest))
    (hdeclares : DeclaresExternal head name) :
    aliased (head ++ rest) =
      head ++ (if opensAlias rest then [] else aliasClause name.text) ++ rest := by
  cases halias : opensAlias rest with
  | true =>
    rw [aliased, unaliased_eq_nil h hdeclares halias, if_pos rfl, List.append_nil]
    rfl
  | false =>
    have hmem : (head.length, name.text) ∈ unaliased (head ++ rest) :=
      (mem_unaliased_iff h).mpr ⟨head, name, rest, rfl, hdeclares, halias, rfl⟩
    rw [aliased, unaliased_eq_singleton h hmem, addAliases_cons, if_neg Bool.false_ne_true]
    change (head ++ rest).take head.length ++ _ ++ (head ++ rest).drop head.length = _
    rw [List.take_left, List.drop_left]

/-- A line that declares no external procedure gets no clause. -/
theorem aliased_of_forall_not (h : IsLine line)
    (hnot : ∀ head name rest, line = head ++ rest → ¬DeclaresExternal head name) :
    aliased line = line := by
  have hnone : unaliased line = [] := by
    refine List.eq_nil_iff_forall_not_mem.mpr fun e he => ?_
    obtain ⟨head, name, rest, heq, hdeclares, -, -⟩ := (mem_unaliased_iff h).mp he
    exact hnot head name rest heq hdeclares
  rw [aliased, hnone]
  rfl

end Line

section Append

variable {as bs : List Token}

/-- Clauses for later tokens leave the first tokens alone. -/
theorem addAliases_map_add (missing : List (Nat × String)) (as bs : List Token) :
    addAliases (missing.map fun e => (as.length + e.1, e.2)) (as ++ bs) =
      as ++ addAliases missing bs := by
  induction missing with
  | nil => rfl
  | cons e missing ih =>
    rw [List.map_cons, addAliases_cons, ih, addAliases_cons, List.take_length_add_append,
      List.drop_length_add_append]
    simp only [List.append_assoc]

/-- Clauses for the first tokens leave later ones alone. -/
theorem addAliases_append_right {missing : List (Nat × String)}
    (h : ∀ e ∈ missing, e.1 ≤ as.length) (bs : List Token) :
    addAliases missing (as ++ bs) = addAliases missing as ++ bs := by
  induction missing with
  | nil => rfl
  | cons e missing ih =>
    obtain ⟨he, hmissing⟩ := List.forall_mem_cons.mp h
    have hle := he.trans (length_le_addAliases missing as)
    rw [addAliases_cons, ih hmissing, addAliases_cons, List.take_append_of_le_length hle,
      List.drop_append_of_le_length hle]
    simp only [List.append_assoc]

/-- A match in the first lines ends before the last of them does. -/
theorem stop_lt_of_wholeLines {m : Match} (hm : privateExternal.IsMatch true as m)
    (h : wholeLines as = true) : m.stop < as.length := by
  refine Nat.lt_of_le_of_ne hm.stop_le fun heq => ?_
  have hlt := hm.start_lt_stop
  have hne : as ≠ [] := List.ne_nil_of_length_pos (by omega)
  rw [wholeLines, List.getLast?_eq_some_getLast hne, Option.all_some] at h
  have hlast : as[m.stop - 1]? = some (as.getLast hne) := by
    rw [← List.getLast?_eq_some_getLast hne, List.getLast?_eq_getElem?, heq]
  rw [hm.isLineBreak_eq_false (by decide) (by omega) (by omega) hlast] at h
  cases h

/-- Whether a clause is missing in the first lines does not depend on the lines behind them. -/
theorem unaliased?_append_left {m : Match} (hm : privateExternal.IsMatch true as m)
    (h : wholeLines as = true) (bs : List Token) :
    unaliased? (as ++ bs) m = unaliased? as m := by
  have hstop := stop_lt_of_wholeLines hm h
  have hname : (as ++ bs)[m.stop - 1]? = as[m.stop - 1]? :=
    List.getElem?_append_left (by omega)
  refine Option.ext fun e => ?_
  rw [← Prod.eta e, unaliased?_eq_some_iff, unaliased?_eq_some_iff, hname,
    slice_lineEnd_append_left h hstop]

/-- Nor does it depend on the lines before. -/
theorem unaliased?_append_right {m : Match} (hpos : 0 < m.stop) (as bs : List Token) :
    unaliased? (as ++ bs) (m.shift as.length) =
      (unaliased? bs m).map fun e => (as.length + e.1, e.2) := by
  have hname : (as ++ bs)[(m.shift as.length).stop - 1]? = bs[m.stop - 1]? := by
    rw [Match.shift, Nat.add_sub_assoc hpos, List.getElem?_append_right (Nat.le_add_right _ _),
      Nat.add_sub_cancel_left]
  refine Option.ext fun e => ?_
  rw [← Prod.eta e, unaliased?_eq_some_iff, hname, Match.shift, slice_lineEnd_append_right,
    Option.map_eq_some_iff]
  constructor
  · rintro ⟨name, part, rest, hget, htext, hslice, hpart, halias, hposition⟩
    refine ⟨(m.stop + part.length, e.2), unaliased?_eq_some_iff.mpr
      ⟨name, part, rest, hget, htext, hslice, hpart, halias, rfl⟩, Prod.ext ?_ rfl⟩
    simp only [hposition]
    omega
  · rintro ⟨e', he', heq⟩
    rw [← Prod.eta e', unaliased?_eq_some_iff] at he'
    obtain ⟨name, part, rest, hget, htext, hslice, hpart, halias, hposition⟩ := he'
    obtain ⟨hfst, hsnd⟩ := Prod.mk.inj heq
    refine ⟨name, part, rest, hget, htext.trans hsnd, hslice, hpart, halias, ?_⟩
    rw [← hfst, hposition, Nat.add_assoc]

/-- **Missing clauses are found line by line.** -/
theorem unaliased_append (h : wholeLines as = true) (bs : List Token) :
    unaliased (as ++ bs) =
      unaliased as ++ (unaliased bs).map fun e => (as.length + e.1, e.2) := by
  rw [unaliased, Pattern.lineMatches_append (by decide) (by decide) h, List.filterMap_append,
    List.filterMap_map, unaliased, unaliased, List.map_filterMap]
  congr 1
  · exact List.filterMap_congr fun m hm =>
      unaliased?_append_left (Pattern.isMatch_of_mem_matchesFrom hm) h bs
  · refine List.filterMap_congr fun m hm => ?_
    have hlt := (Pattern.isMatch_of_mem_matchesFrom hm).start_lt_stop
    exact unaliased?_append_right (by omega) as bs

/-- **Clauses are put in line by line.** -/
theorem aliased_append (h : wholeLines as = true) (bs : List Token) :
    aliased (as ++ bs) = aliased as ++ aliased bs := by
  rw [aliased, unaliased_append h, addAliases, List.foldr_append]
  change addAliases (unaliased as) (addAliases _ (as ++ bs)) = _
  rw [addAliases_map_add, addAliases_append_right fun e he => le_length_of_mem_unaliased he]
  rfl

end Append

end Qualify

end VbaModules
