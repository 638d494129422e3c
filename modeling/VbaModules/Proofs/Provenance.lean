import VbaModules.Proofs.IsolatedBlocks
import VbaModules.Proofs.NameIsolation

/-!
# The marks of a merged module

A merged module names the source of each of its blocks by the last mark before it. A mark is written
only where the source changes, and neither option statements nor sections without text take part in
this, so what a mark stands for has to be kept over any mixture of them. `attributed_of_ofBundle`
says that it is: the nearest mark before a block outside the options names the source that the block
comes from, and marks stand before the blocks at which the source changes and nowhere else.

Writing is told as a run over the sections. One section adds its pieces (`piecesOf`) and leaves an
origin to compare the next ones with (`originAfter`). Over a whole run this is the origin of the
last section with text that is no option statement (`foldl_originAfter`), and the last mark is its
name (`getLast?_marks_layoutFrom`).
-/

namespace VbaModules

namespace Piece

/-- The text of a block. -/
def block? : Piece → Option String
  | block text => some text
  | _ => none

/-- The name in a mark. -/
def mark? : Piece → Option String
  | mark module => some module
  | _ => none

end Piece

namespace Assembly

/-! ### One section -/

/-- The origin of the last block that can have a mark, after one more section. -/
def originAfter (current : Option String) (e : Bucket × Section) : Option String :=
  if e.2.block = "" ∨ e.1 = .options then current else e.2.origin

/-- The mark before the block of a section, if there is one. -/
def markOf (m : Assembly) (current : Option String) (e : Bucket × Section) : List Piece :=
  if e.1 ≠ .options ∧ e.2.origin ≠ current then [.mark (m.sourceName (e.2.origin.getD ""))] else []

/-- The pieces that a section adds. -/
def piecesOf (m : Assembly) (current : Option String) (e : Bucket × Section) : List Piece :=
  if e.2.block = "" then [] else m.markOf current e ++ [.block e.2.block]

section Pieces

variable {m : Assembly} {current : Option String} {e : Bucket × Section}
  {sections : List (Bucket × Section)}

/-- **One step of writing.** -/
theorem layoutFrom_cons :
    m.layoutFrom current (e :: sections) =
      m.piecesOf current e ++ m.layoutFrom (originAfter current e) sections := by
  obtain ⟨b, s⟩ := e
  rw [layoutFrom, piecesOf, originAfter, markOf]
  by_cases hempty : s.block = ""
  · simp [hempty]
  · by_cases hoptions : b = .options
    · simp [hempty, hoptions]
    · by_cases horigin : s.origin = current
      · simp [hempty, hoptions, horigin]
      · simp [hempty, hoptions, horigin]

theorem markOf_eq_nil_or :
    m.markOf current e = [] ∨ m.markOf current e = [.mark (m.sourceName (e.2.origin.getD ""))] := by
  rw [markOf]
  split
  · exact .inr rfl
  · exact .inl rfl

theorem blocks_markOf : (m.markOf current e).filterMap Piece.block? = [] := by
  rcases @markOf_eq_nil_or m current e with hmark | hmark
  · rw [hmark, List.filterMap_nil]
  · rw [hmark, List.filterMap_cons_none rfl, List.filterMap_nil]

/-- A piece of a section is its block, after its mark, or its mark, before its block. -/
theorem piecesOf_eq_append {first last : List Piece} {piece : Piece}
    (h : m.piecesOf current e = first ++ piece :: last) :
    (piece = .block e.2.block ∧ first = m.markOf current e) ∨
      (∃ module, piece = .mark module) ∧ last = [.block e.2.block] := by
  rw [piecesOf] at h
  split at h
  next => simp at h
  next =>
    rcases @markOf_eq_nil_or m current e with hmark | hmark
    · rw [hmark, List.nil_append] at h
      obtain ⟨rfl, hpiece⟩ := List.append_eq_singleton_iff.mp h.symm |>.resolve_right (by simp)
      exact .inl ⟨(List.cons.inj hpiece).1, hmark.symm⟩
    · rw [hmark, List.singleton_append] at h
      rcases first with _ | ⟨mark, first⟩
      · obtain ⟨rfl, rfl⟩ := List.cons.inj h
        exact .inr ⟨⟨_, rfl⟩, rfl⟩
      · obtain ⟨rfl, hrest⟩ := List.cons.inj h
        obtain ⟨rfl, hpiece⟩ :=
          List.append_eq_singleton_iff.mp hrest.symm |>.resolve_right (by simp)
        exact .inl ⟨(List.cons.inj hpiece).1, hmark.symm⟩

/-! ### A run of sections -/

theorem layoutFrom_append (m : Assembly) (current : Option String)
    (earlier later : List (Bucket × Section)) :
    m.layoutFrom current (earlier ++ later) =
      m.layoutFrom current earlier ++ m.layoutFrom (earlier.foldl originAfter current) later := by
  induction earlier generalizing current with
  | nil => rfl
  | cons e earlier ih =>
    rw [List.cons_append, layoutFrom_cons, layoutFrom_cons, ih, List.foldl_cons, List.append_assoc]

theorem layoutFrom_concat (m : Assembly) (current : Option String)
    (earlier : List (Bucket × Section)) (e : Bucket × Section) :
    m.layoutFrom current (earlier ++ [e]) =
      m.layoutFrom current earlier ++ m.piecesOf (earlier.foldl originAfter current) e := by
  rw [layoutFrom_append, layoutFrom_cons, layoutFrom, List.append_nil]

/-- Every piece is one of the pieces that some section adds after those before it. -/
theorem exists_of_layoutFrom_eq {before after : List Piece} {piece : Piece}
    (h : m.layoutFrom current sections = before ++ piece :: after) :
    ∃ earlier e later first last, sections = earlier ++ e :: later ∧
      m.piecesOf (earlier.foldl originAfter current) e = first ++ piece :: last ∧
      before = m.layoutFrom current earlier ++ first ∧
      last <+: after := by
  induction sections generalizing current before with
  | nil => simp [layoutFrom] at h
  | cons e sections ih =>
    rw [layoutFrom_cons, List.append_eq_append_iff] at h
    rcases h with ⟨tail, hbefore, htail⟩ | ⟨tail, hpieces, htail⟩
    · -- the piece comes after those of the first section
      obtain ⟨earlier, e', later, first, last, rfl, hpieces, rfl, hlast⟩ := ih htail
      refine ⟨e :: earlier, e', later, first, last, rfl, ?_, ?_, hlast⟩
      · rw [List.foldl_cons, hpieces]
      · rw [layoutFrom_cons, List.append_assoc, hbefore]
    · cases tail with
      | nil =>
        rw [List.append_nil] at hpieces
        obtain ⟨earlier, e', later, first, last, rfl, hpieces', hbefore, hlast⟩ :=
          @ih (originAfter current e) [] htail.symm
        refine ⟨e :: earlier, e', later, first, last, rfl, ?_, ?_, hlast⟩
        · rw [List.foldl_cons, hpieces']
        · rw [layoutFrom_cons, List.append_assoc, ← hbefore, hpieces, List.append_nil]
      | cons piece' last =>
        rw [List.cons_append, List.cons.injEq] at htail
        obtain ⟨rfl, rfl⟩ := htail
        exact ⟨[], e, sections, before, last, rfl, hpieces, rfl, List.prefix_append _ _⟩

/-- A mark is followed by a block. -/
theorem exists_block_of_layoutFrom_eq {before after : List Piece} {module : String}
    (h : m.layoutFrom current sections = before ++ .mark module :: after) :
    ∃ text rest, after = .block text :: rest := by
  obtain ⟨earlier, e, later, first, last, -, hpieces, -, rest, rfl⟩ := exists_of_layoutFrom_eq h
  rcases piecesOf_eq_append hpieces with ⟨hpiece, -⟩ | ⟨-, rfl⟩
  · cases hpiece
  · exact ⟨e.2.block, rest, rfl⟩

/-- **The blocks are those of the sections**, in their order and without the empty ones. -/
theorem blocks_layoutFrom (m : Assembly) (current : Option String)
    (sections : List (Bucket × Section)) :
    (m.layoutFrom current sections).filterMap Piece.block? =
      (sections.map (·.2.block)).filter (· != "") := by
  induction sections generalizing current with
  | nil => rfl
  | cons e sections ih =>
    rw [layoutFrom_cons, List.filterMap_append, ih, List.map_cons, piecesOf]
    by_cases hempty : e.2.block = ""
    · simp [hempty]
    · rw [if_neg hempty, List.filterMap_append, blocks_markOf,
        List.filter_cons_of_pos (by simpa using hempty)]
      rfl

end Pieces

/-! ### Sections with text -/

/-- The sections that have text, in the order in which they are written. -/
def written (m : Assembly) : List (Bucket × Section) :=
  m.sections.filter (·.2.block != "")

/-- **Sections without text leave no trace.** -/
theorem layoutFrom_filter (m : Assembly) (current : Option String)
    (sections : List (Bucket × Section)) :
    m.layoutFrom current (sections.filter (·.2.block != "")) = m.layoutFrom current sections := by
  induction sections generalizing current with
  | nil => rfl
  | cons e sections ih =>
    by_cases hempty : e.2.block = ""
    · rw [List.filter_cons_of_neg (by simp [hempty]), layoutFrom_cons, piecesOf, if_pos hempty,
        originAfter, if_pos (.inl hempty), ih]
      rfl
    · rw [List.filter_cons_of_pos (by simp [hempty]), layoutFrom_cons, layoutFrom_cons, ih]

/-- The last of the sections that is no option statement. -/
def previous? (earlier : List (Bucket × Section)) : Option Section :=
  (earlier.filter (·.1 != .options)).getLast?.map Prod.snd

theorem previous?_concat (earlier : List (Bucket × Section)) (e : Bucket × Section) :
    previous? (earlier ++ [e]) = if e.1 = .options then previous? earlier else some e.2 := by
  rw [previous?, List.filter_append]
  by_cases hoptions : e.1 = .options
  · simp [hoptions, previous?]
  · simp [hoptions]

section Run

variable {earlier : List (Bucket × Section)} (hwritten : ∀ e ∈ earlier, e.2.block ≠ "")
  (horigin : ∀ e ∈ earlier, ∃ origin, e.2.origin = some origin)

include hwritten in
/-- The origin that the next section is compared with. -/
theorem foldl_originAfter :
    earlier.foldl originAfter none = (previous? earlier).bind (·.origin) := by
  induction earlier using List.reverseRecOn with
  | nil => rfl
  | append_singleton earlier e ih =>
    obtain ⟨hearlier, he⟩ := List.forall_mem_append.mp hwritten
    have he := he e List.mem_cons_self
    rw [List.foldl_concat, previous?_concat, originAfter]
    by_cases hoptions : e.1 = .options
    · rw [if_pos (.inr hoptions), if_pos hoptions, ih hearlier]
    · rw [if_neg (by simp [he, hoptions]), if_neg hoptions, Option.bind_some]

include horigin in
/-- **The last mark names the source** of the last section that can have one. -/
theorem getLast?_marks_layoutFrom (m : Assembly) :
    ((m.layoutFrom none earlier).filterMap Piece.mark?).getLast? =
      (earlier.foldl originAfter none).map m.sourceName := by
  induction earlier using List.reverseRecOn with
  | nil => rfl
  | append_singleton earlier e ih =>
    obtain ⟨hearlier, he⟩ := List.forall_mem_append.mp horigin
    obtain ⟨origin, horigin⟩ := he e List.mem_cons_self
    rw [layoutFrom_concat, List.foldl_concat, List.filterMap_append, List.getLast?_append,
      ih hearlier]
    generalize earlier.foldl originAfter none = current
    rw [piecesOf, originAfter, markOf]
    by_cases hempty : e.2.block = ""
    · simp [hempty]
    · by_cases hoptions : e.1 = .options
      · simp [hempty, hoptions, List.filterMap_cons, Piece.mark?]
      · by_cases hsame : some origin = current
        · simp [hempty, hoptions, horigin, hsame, List.filterMap_cons, Piece.mark?]
        · simp [hempty, hoptions, horigin, hsame, List.filterMap_cons, Piece.mark?]

end Run

/-! ### Marks and blocks -/

/-- The pieces `before` **introduce** the block of the section `e`, which comes after the sections
`earlier`: its nearest mark names its source, and stands right before it where the source has
changed. -/
structure Introduced (bundle : Bundle) (before : List Piece) (earlier : List (Bucket × Section))
    (e : Bucket × Section) : Prop where
  blocks_before : before.filterMap Piece.block? = earlier.map (·.2.block)
  marked_iff : (∃ module, before.getLast? = some (.mark module)) ↔
    e.1 ≠ .options ∧ ∀ s ∈ previous? earlier, s.origin ≠ e.2.origin
  nearest : e.1 ≠ .options → ∃ origin tokens name, (origin, tokens) ∈ bundle.entries ∧
    e.2.origin = some origin ∧ (∀ t ∈ e.2.tokens, t ∈ Qualify.qualify name tokens) ∧
    declaredName? tokens = some name ∧ (before.filterMap Piece.mark?).getLast? = some name

/-- **The layout tells where the blocks come from**, and it is what is written. -/
structure Attributed (bundle : Bundle) (m : Assembly) : Prop where
  /-- The text is that of the pieces, one after the other. -/
  render_eq : m.render = String.join (m.layout.map Piece.render)
  /-- Sections without text leave no trace. -/
  layout_eq : m.layout = .header m.name :: m.layoutFrom none m.written
  buckets_eq : m.buckets.map Prod.fst = Bucket.all
  /-- The blocks are those of the sections, bucket by bucket. -/
  blocks_eq : m.layout.filterMap Piece.block? =
    (m.buckets.flatMap fun held => held.2.map Section.block).filter (· != "")
  block : ∀ before text after, m.layout = before ++ .block text :: after →
    ∃ earlier e later, m.written = earlier ++ e :: later ∧ e.2.block = text ∧
      Introduced bundle before earlier e
  mark : ∀ before module after, m.layout = before ++ .mark module :: after →
    ∃ text rest, after = .block text :: rest

theorem layout_eq_written (m : Assembly) :
    m.layout = .header m.name :: m.layoutFrom none m.written := by
  rw [layout, written, layoutFrom_filter]

theorem block_ne_of_mem_written {m : Assembly} {e : Bucket × Section} (h : e ∈ m.written) :
    e.2.block ≠ "" :=
  bne_iff_ne.mp (List.mem_filter.mp h).2

/-- A mark stands last among the pieces so far only if it belongs to the next section. -/
theorem marked_iff_of_layoutFrom {m : Assembly} {earlier : List (Bucket × Section)}
    {e : Bucket × Section} (hwritten : ∀ e ∈ earlier, e.2.block ≠ "")
    (horigin : ∃ origin, e.2.origin = some origin) (header : String) :
    (∃ module, (.header header :: m.layoutFrom none earlier ++
        m.markOf (earlier.foldl originAfter none) e).getLast? = some (.mark module)) ↔
      e.1 ≠ .options ∧ ∀ s ∈ previous? earlier, s.origin ≠ e.2.origin := by
  obtain ⟨origin, horigin⟩ := horigin
  have hchanged : e.2.origin ≠ earlier.foldl originAfter none ↔
      ∀ s ∈ previous? earlier, s.origin ≠ e.2.origin := by
    rw [foldl_originAfter hwritten, horigin]
    cases previous? earlier with
    | none => simp
    | some s => simp [eq_comm]
  rw [← hchanged, markOf]
  split
  next hmark => exact iff_of_true ⟨_, List.getLast?_concat⟩ hmark
  next hmark =>
    refine iff_of_false ?_ hmark
    rintro ⟨module, hlast⟩
    -- a mark at the end would have no block after it
    rw [List.append_nil] at hlast
    obtain ⟨init, hinit⟩ := List.getLast?_eq_some_iff.mp hlast
    cases init with
    | nil => simp at hinit
    | cons piece init =>
      obtain ⟨text, rest, hnil⟩ := exists_block_of_layoutFrom_eq (List.cons.inj hinit).2
      cases hnil

section Assembled

variable {bundle : Bundle} {name? : Option String} {m : Assembly} {first : Prepared}
  {rest : List Prepared}

theorem Assembled.exists_origin (h : Assembled bundle name? m first rest) {e : Bucket × Section}
    (he : e ∈ m.written) : ∃ origin, e.2.origin = some origin := by
  obtain ⟨origin, -, -, -, -, horigin, -⟩ := h.exists_source (List.mem_filter.mp he).1
  exact ⟨origin, horigin⟩

/-- The pieces before a block introduce it. -/
theorem Assembled.introduced (h : Assembled bundle name? m first rest)
    {earlier later : List (Bucket × Section)} {e : Bucket × Section}
    (hsplit : m.written = earlier ++ e :: later) :
    Introduced bundle (.header m.name :: m.layoutFrom none earlier ++
      m.markOf (earlier.foldl originAfter none) e) earlier e := by
  have hmem : ∀ e' ∈ earlier ++ [e], e' ∈ m.written := by
    intro e' he'
    rw [hsplit, List.append_cons]
    exact List.mem_append_left later he'
  obtain ⟨hearlier, he⟩ := List.forall_mem_append.mp hmem
  have he := he e List.mem_cons_self
  have hwritten : ∀ e' ∈ earlier, e'.2.block ≠ "" :=
    fun e' he' => block_ne_of_mem_written (hearlier e' he')
  refine ⟨?_, marked_iff_of_layoutFrom hwritten (h.exists_origin he) m.name, fun hoptions => ?_⟩
  · have hkept : (earlier.map (·.2.block)).filter (· != "") = earlier.map (·.2.block) := by
      refine List.filter_eq_self.mpr (List.forall_mem_map.mpr fun e' he' => ?_)
      exact bne_iff_ne.mpr (hwritten e' he')
    rw [List.cons_append, List.filterMap_cons_none rfl, List.filterMap_append, blocks_layoutFrom,
      hkept, blocks_markOf, List.append_nil]
  · obtain ⟨origin, tokens, name, hentry, hname, horigin, hsource, htokens⟩ :=
      h.exists_source (List.mem_filter.mp he).1
    refine ⟨origin, tokens, name, hentry, horigin, htokens, hname, ?_⟩
    -- with the block itself the pieces are those of a run that ends with this section
    have hmarks := getLast?_marks_layoutFrom (fun e' he' => h.exists_origin (hmem e' he')) m
    rw [layoutFrom_concat, piecesOf, if_neg (block_ne_of_mem_written he), ← List.append_assoc,
      List.filterMap_append, List.filterMap_cons_none rfl, List.filterMap_nil, List.append_nil,
      List.foldl_concat, originAfter, if_neg (by simp [block_ne_of_mem_written he, hoptions]),
      horigin, Option.map_some, hsource] at hmarks
    rwa [List.cons_append, List.filterMap_cons_none rfl]

end Assembled

/-- **Provenance**: a merged module tells by its marks where its blocks come from. -/
theorem attributed_of_ofBundle {bundle : Bundle} {name? : Option String} {m : Assembly}
    (h : ofBundle bundle name? = .ok m) : Attributed bundle m := by
  obtain ⟨first, rest, hassembled⟩ := ofBundle_eq_ok_iff.mp h
  refine ⟨rfl, m.layout_eq_written, ?_, ?_, ?_, ?_⟩
  · rw [hassembled.result_eq]
    simp [Function.comp_def]
  · rw [layout, List.filterMap_cons_none rfl, blocks_layoutFrom, sections, List.map_flatMap]
    simp [Function.comp_def]
  · intro before text after hlayout
    rw [layout_eq_written] at hlayout
    cases before with
    | nil => simp at hlayout
    | cons piece before =>
      obtain ⟨rfl, hpieces⟩ := List.cons.inj hlayout
      obtain ⟨earlier, e, later, marks, last, hsplit, hpiece, rfl, -⟩ :=
        exists_of_layoutFrom_eq hpieces
      rcases piecesOf_eq_append hpiece with ⟨hblock, rfl⟩ | ⟨⟨module, hmark⟩, -⟩
      · exact ⟨earlier, e, later, hsplit, (Piece.block.inj hblock).symm,
          hassembled.introduced hsplit⟩
      · cases hmark
  · intro before module after hlayout
    rw [layout] at hlayout
    cases before with
    | nil => simp at hlayout
    | cons piece before => exact exists_block_of_layoutFrom_eq (List.cons.inj hlayout).2

/-- Two modules with a private variable each can be merged, and the marks tell them apart. -/
theorem attributed_gridTexts :
    ∃ m, ofBundle (Bundle.ofTexts gridTexts) none = .ok m ∧
      Attributed (Bundle.ofTexts gridTexts) m := by
  obtain ⟨m, hm, -⟩ := ofBundle_gridTexts
  exact ⟨m, hm, attributed_of_ofBundle hm⟩

end Assembly

end VbaModules
