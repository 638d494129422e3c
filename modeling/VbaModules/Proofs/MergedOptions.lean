import VbaModules.Proofs.OrderlyModules
import VbaModules.Proofs.QualifiedOptions

/-!
# Options of a merged module

A merged module has the option statements of its first source (`options_lex_of_merge`), if its
sources are orderly. The merged text is read piece by piece. The header and the marks tell nothing,
and each block tells what its section is said to tell, so that all that is told is what the sections
tell, in their order (`Assembly.Assembled.cues_render`). Only the option lines of the first source
state options, and they come first. What stands open behind them does not matter if no source hides
an option. Else no source may leave anything open, since what one leaves open the next might close.

A byte order mark is a blank at the start of a source and nowhere else. If a source begins with one,
it stays in front of its first block. That does no harm if the block is not kept, as the line that
names the module is not, or if it tells the same with the mark, as a comment line does
(`Section.StandsAlone`). But an option statement right behind the mark is lost
(`options_lost_markedText`).
-/

namespace VbaModules

open Token Text Lexer VbaModules.Partition

/-! ### What the pieces tell -/

/-- Behind its first word a line tells nothing. -/
theorem ClassFile.IsLine.cues_false {ts : List Token} (h : ClassFile.IsLine ts) :
    cues false ts = [] := by
  induction h with
  | last t => rfl
  | @cons t ts ht _ ih =>
    have hnext : lineStartAfter false t = false := by
      rw [lineStartAfter, ht, ite_self]
    rw [cues, hnext, ih]
    rfl

/-- A line whose first word is no cue tells nothing. -/
theorem ClassFile.IsLine.cues_eq_nil {t : Token} {ts : List Token}
    (h : ClassFile.IsLine (t :: ts)) (ht : t.isBlank = false) (hcue : cue? (t :: ts) = none) :
    cues true (t :: ts) = [] := by
  cases h with
  | last =>
    rw [cues, hcue, Option.toList_none, ite_self]
    rfl
  | cons hbreak hts =>
    have hnext : lineStartAfter true t = false := by
      rw [lineStartAfter, ht, if_neg Bool.false_ne_true, hbreak]
    rw [cues, hcue, hnext, hts.cues_false, Option.toList_none, ite_self]
    rfl

theorem isLine_namingLine (name : String) : ClassFile.IsLine (namingLine name) := by
  unfold namingLine
  iterate 9 refine .cons rfl ?_
  exact .last _

/-- A text that ends its line tells what it tells, whatever follows. -/
theorem Lexer.EndsItsLine.cuesOf_append {text : String} (h : EndsItsLine text) (cs : List Char) :
    cuesOf (text.toList ++ cs) = cuesOf text.toList ++ cuesOf cs := by
  have hunsplit : Unsplit text.toList cs := by
    intro hreturn
    rw [h.getLast?_eq] at hreturn
    cases hreturn
  rw [cuesOf, scan_append h.endsLine_scan hunsplit, splitNames_append h.endsLine_scan,
    cues_lines_append (wholeLines_of_endsLine (endsLine_splitNames.trans h.endsLine_scan))]
  rfl

namespace Piece

/-- What a piece tells at the start of a line. -/
def told (piece : Piece) : List Cue :=
  cuesOf piece.render.toList

/-- The header tells nothing, since an attribute line has no cue. -/
theorem told_header {name : String} (h : FitsLiteral name) : (header name).told = [] := by
  obtain ⟨-, hmatch, -⟩ := Pattern.next?_eq_some_iff.mp (next?_namingLine_append name [])
  rw [List.append_nil] at hmatch
  have hcue : cue? ((namingLine name).drop 0) = none :=
    cue?_eq_none_of_excludes hmatch (by decide) (by decide) (by simp [namingLine])
  change cuesOf (namingText name).toList = []
  rw [cuesOf, splitNames_scan_eq_lex (by rw [head?_namingText]; decide), lex_namingText h]
  exact (isLine_namingLine name).cues_eq_nil rfl hcue

/-- Neither does a mark, which is a comment. -/
theorem told_mark {module : String} (h : ∀ c ∈ module.toList, isBreakChar c = false) :
    (mark module).told = [] := by
  have hcuts := cuts_mark h
  have hidle : ∀ t ∈ [(⟨.comment, "'*************** " ++ module⟩ : Token), ⟨.lineBreak, "\n"⟩],
      t.isIdle = true :=
    fun t ht => hcuts.isIdle_of_isFiller ht (by
      simp only [List.mem_cons, List.not_mem_nil, or_false] at ht
      rcases ht with rfl | rfl <;> rfl)
  rw [told, cuesOf, toList_mark, hcuts.scan_eq]
  have hcues := cues_splitNames_of_isIdle hidle rfl []
  rw [List.append_nil] at hcues
  exact hcues

/-- A block tells what its section is said to tell. -/
theorem told_block (s : Section) : (block s.block).told = s.told := by
  rw [told, Section.told, show (block s.block).render.toList = s.block.toList ++ ['\n', '\n'] from
    String.toList_append]

/-- Pieces that end their lines are read one after the other. -/
theorem cuesOf_join {pieces : List Piece} (h : ∀ piece ∈ pieces, EndsItsLine piece.render) :
    cuesOf (String.join (pieces.map render)).toList = pieces.flatMap told := by
  induction pieces with
  | nil => simp [String.join]
  | cons piece pieces ih =>
    obtain ⟨hends, hpieces⟩ := List.forall_mem_cons.mp h
    rw [List.map_cons, String.join_cons, String.toList_append, hends.cuesOf_append, ih hpieces,
      List.flatMap_cons]
    rfl

end Piece

theorem flatMap_filter_of_forall {α β : Type} {p : α → Bool} {f : α → List β} {xs : List α}
    (h : ∀ x ∈ xs, p x = false → f x = []) : (xs.filter p).flatMap f = xs.flatMap f := by
  induction xs with
  | nil => rfl
  | cons x xs ih =>
    obtain ⟨hx, hxs⟩ := List.forall_mem_cons.mp h
    cases hp : p x with
    | true => rw [List.filter_cons_of_pos hp, List.flatMap_cons, List.flatMap_cons, ih hxs]
    | false =>
      rw [List.filter_cons_of_neg (by simp [hp]), List.flatMap_cons, hx hp, ih hxs,
        List.nil_append]

namespace Assembly

/-- All that the blocks and marks of a layout tell is what the sections tell. -/
theorem told_layoutFrom {m : Assembly} {current : Option String}
    {sections : List (Bucket × Section)}
    (hmarks : ∀ e ∈ sections, (Piece.mark (m.sourceName (e.2.origin.getD ""))).told = []) :
    (m.layoutFrom current sections).flatMap Piece.told = sections.flatMap fun e => e.2.told := by
  fun_induction layoutFrom m current sections with
  | case1 => rfl
  | case2 current b s rest hempty ih =>
    obtain ⟨-, hmarks⟩ := List.forall_mem_cons.mp hmarks
    have hnone : s.told = [] := by
      rw [Section.told, hempty, String.toList_empty, List.nil_append, cuesOf_feed, cuesOf_feed,
        cuesOf_nil]
    rw [List.flatMap_cons, hnone, ih hmarks]
    rfl
  | case3 current b s rest hempty hmark ih =>
    obtain ⟨hnone, hmarks⟩ := List.forall_mem_cons.mp hmarks
    rw [List.flatMap_cons, List.flatMap_cons, List.flatMap_cons, hnone, Piece.told_block, ih hmarks]
    rfl
  | case4 current b s rest hempty hmark ih =>
    obtain ⟨-, hmarks⟩ := List.forall_mem_cons.mp hmarks
    rw [List.flatMap_cons, List.flatMap_cons, Piece.told_block, ih hmarks]

end Assembly

/-! ### What a merged module states -/

/-- No option is hidden if those parts come first that state options, and leave nothing open. -/
theorem Reading.shown_flatMap_append {α : Type} {f : α → List Cue} {xs ys : List α}
    (hclosed : ∀ x ∈ xs, outside.after (f x) = outside)
    (hshown : ∀ x ∈ xs, outside.options (f x) = (f x).filterMap Cue.option?)
    (hnone : ∀ y ∈ ys, (f y).filterMap Cue.option? = []) :
    outside.options ((xs ++ ys).flatMap f) = ((xs ++ ys).flatMap f).filterMap Cue.option? := by
  obtain ⟨hafter, hoptions⟩ := options_flatMap hclosed
  have hrest : (ys.flatMap f).filterMap Cue.option? = [] := by
    rw [List.filterMap_flatMap]
    exact List.flatMap_eq_nil_iff.mpr hnone
  rw [List.flatMap_append, options_append, hafter, hoptions, options_eq_nil hrest,
    List.filterMap_append, hrest, List.filterMap_flatMap]
  exact congrArg (· ++ []) (List.flatMap_congr hshown)

/-- All modules of the bundle leave nothing open. -/
def Bundle.LeavesNothingOpen (bundle : Bundle) : Prop :=
  ∀ entry ∈ bundle.entries, VbaModules.LeavesNothingOpen entry.2

/-- No module of the bundle hides an option. -/
def Bundle.HidesNoOption (bundle : Bundle) : Prop :=
  ∀ entry ∈ bundle.entries, VbaModules.HidesNoOption entry.2

instance (bundle : Bundle) : Decidable bundle.LeavesNothingOpen :=
  inferInstanceAs (Decidable (∀ entry ∈ _, _))

instance (bundle : Bundle) : Decidable bundle.HidesNoOption :=
  inferInstanceAs (Decidable (∀ entry ∈ _, _))

/-- Only option lines go into the bucket for options. -/
theorem Bucket.ofKind?_eq_options_iff {kind : Section.Kind} :
    Bucket.ofKind? kind = some .options ↔ kind = .optionLine := by
  cases kind <;> simp [Bucket.ofKind?]

namespace Assembly

section Assembled

variable {texts : List (String × String)} {m : Assembly} {first : Prepared} {rest : List Prepared}
  (hreturns : ∀ source ∈ texts, '\r' ∉ source.2.toList)
  (horderly : ∀ source ∈ texts, ∀ name, VbaModules.declaredName? (lex source.2) = some name →
    Orderly (Qualify.qualify name (lex source.2)))
include hreturns horderly

/-- The blocks of a source are faithful, and together they state what its qualified tokens state. -/
theorem faithful_of_prepare {entry : String × List Token}
    (hentry : entry ∈ (Bundle.ofTexts texts).entries) {p : Prepared}
    (hprepare : prepare entry.1 entry.2 = .ok p)
    (hopen : LeavesNothingOpen entry.2 ∨ HidesNoOption entry.2) :
    (∀ s ∈ attachUnknown [] p.sections, s.Faithful ∧
        (LeavesNothingOpen entry.2 → LeavesNothingOpen s.tokens) ∧
        (HidesNoOption entry.2 → HidesNoOption s.tokens)) ∧
      (attachUnknown [] p.sections).flatMap Section.stated =
        Reading.outside.options (cues true (Qualify.qualify p.name entry.2)) := by
  obtain ⟨origin, tokens⟩ := entry
  obtain ⟨name, hname, rfl⟩ := prepare_eq_ok_iff.mp hprepare
  obtain ⟨text, htext, rfl⟩ := Bundle.exists_text_of_mem_ofTexts hentry
  have hsource : Orderly (Qualify.qualify name (lex text)) := horderly _ htext name hname
  have hnone : '\r' ∉ charsOf (Qualify.qualify name (lex text)) :=
    not_mem_charsOf_qualify (by decide) (hreturns _ htext) hname
  have hfree : ∀ s ∈ privateNames (lex text), Keyword.contains s = false := fun s hs =>
    (isFreeWord_iff.mp (isFreeWord_of_mem_privateNames hs)).2
  have hlead := directivesLead_lex text
  rw [← @Qualify.leavesNothingOpen_qualify_iff name _ hlead hfree,
    ← @Qualify.hidesNoOption_qualify_iff name _ hlead hfree] at hopen ⊢
  rw [Prepared.attachUnknown_named, List.forall_mem_map, List.flatMap_map]
  refine ⟨fun s hs => ?_, hsource.stated_blocksOf hnone hopen⟩
  obtain ⟨⟨halone, htells⟩, hrest⟩ := hsource.faithful_of_mem hnone hopen hs
  exact ⟨⟨halone, htells⟩, hrest⟩

variable (hopen : (Bundle.ofTexts texts).LeavesNothingOpen ∨ (Bundle.ofTexts texts).HidesNoOption)
  (h : Assembled (Bundle.ofTexts texts) none m first rest)
include h

omit hreturns horderly in
/-- The sections of a merged module are in the bucket of their kind. -/
theorem Assembled.ofKind?_of_mem_sections {e : Bucket × Section} (he : e ∈ m.sections) :
    Bucket.ofKind? e.2.kind = some e.1 := by
  obtain ⟨p, -, isFirst, hplaced⟩ := h.exists_mem_placed he
  have hbucket := (List.mem_filter.mp hplaced).2
  rw [Section.bucket?_beq_some, Bool.and_eq_true, beq_iff_eq] at hbucket
  exact hbucket.2

omit hreturns horderly in
/-- The options of the first source come first in the merged module, and there are no others. -/
theorem Assembled.exists_sections :
    ∃ others, m.sections = (first.contribution .options).map (Bucket.options, ·) ++ others ∧
      ∀ e ∈ others, e.2.kind ≠ .optionLine := by
  have hbuckets : m.sections =
      Bucket.all.flatMap fun b => (bucketSections first rest b).map (b, ·) := by
    rw [sections, h.result_eq, List.flatMap_map]
  have hsections : m.sections = (first.contribution .options).map (Bucket.options, ·) ++
      Bucket.all.tail.flatMap fun b => (bucketSections first rest b).map (b, ·) := by
    rw [hbuckets, show Bucket.all = .options :: Bucket.all.tail from rfl, List.flatMap_cons,
      bucketSections, if_pos rfl, List.append_nil]
    rfl
  refine ⟨_, hsections, fun e he hkind => ?_⟩
  have hbucket := h.ofKind?_of_mem_sections (hsections ▸ List.mem_append_right _ he)
  rw [hkind] at hbucket
  obtain ⟨b, hb, hmem⟩ := List.mem_flatMap.mp he
  obtain ⟨s, -, rfl⟩ := List.mem_map.mp hmem
  obtain rfl : b = .options := (Option.some.inj hbucket).symm
  exact absurd hb (by decide)

omit hreturns horderly in
/-- **What the merged text tells** is what its sections tell, in their order. -/
theorem Assembled.cues_render :
    cues true (lex m.render) = m.sections.flatMap fun e => e.2.told := by
  have hbundle := ofBundle_eq_ok_iff.mpr ⟨first, rest, h⟩
  have hheader : (Piece.header m.name).told = [] := by
    obtain ⟨entry, hentry, hprepare⟩ := h.exists_prepare_eq_ok List.mem_cons_self
    obtain ⟨name, hname, rfl⟩ := prepare_eq_ok_iff.mp hprepare
    obtain ⟨text, -, htokens⟩ := Bundle.exists_text_of_mem_ofTexts hentry
    rw [htokens] at hname
    rw [show m.name = name by rw [h.result_eq]; rfl]
    exact Piece.told_header (fitsLiteral_of_declaredName? hname)
  -- all pieces end their lines, and a header comes first, so no byte order mark does
  have hcues : cues true (lex m.render) = m.layout.flatMap Piece.told := by
    rw [← Piece.cuesOf_join fun piece hpiece => (endsItsLine_of_mem_layout hbundle hpiece).1,
      cuesOf, splitNames_scan_eq_lex]
    · rfl
    · rw [layout, List.map_cons, String.join_cons, String.toList_append, List.head?_append,
        show (Piece.header m.name).render.toList.head? = some 'A' from head?_namingText m.name]
      simp
  rw [hcues, layout, List.flatMap_cons, hheader, List.nil_append]
  refine told_layoutFrom fun e he => ?_
  obtain ⟨origin, tokens, name, hentry, hname, horigin, hsource, -⟩ := h.exists_source he
  obtain ⟨text, -, rfl⟩ := Bundle.exists_text_of_mem_ofTexts hentry
  rw [horigin, Option.getD_some, hsource]
  exact Piece.told_mark (fitsLiteral_of_declaredName? hname).isBreakChar_eq_false

include hopen

/-- What the sections of a merged module tell. -/
theorem Assembled.told_of_mem_sections {e : Bucket × Section} (he : e ∈ m.sections) :
    TellsAs e.2.kind e.2.told ∧ (e.2.kind = .optionLine → e.2.told = cues true e.2.tokens) ∧
      ((Bundle.ofTexts texts).LeavesNothingOpen → Reading.outside.after e.2.told = .outside) ∧
      ((Bundle.ofTexts texts).HidesNoOption →
        Reading.outside.options e.2.told = e.2.told.filterMap Cue.option?) := by
  obtain ⟨p, hp, isFirst, hplaced⟩ := h.exists_mem_placed he
  obtain ⟨entry, hentry, hprepare⟩ := h.exists_prepare_eq_ok hp
  obtain ⟨hfaithful, hclosed, hshown⟩ := (faithful_of_prepare hreturns horderly hentry hprepare
    (hopen.imp (· entry hentry) (· entry hentry))).1 e.2 (List.mem_of_mem_filter hplaced)
  have hbucket : Bucket.ofKind? e.2.kind ≠ none := by
    rw [h.ofKind?_of_mem_sections he]
    exact Option.some_ne_none _
  obtain ⟨htells, htold, hclosed', hshown'⟩ := hfaithful.told_spec hbucket
  exact ⟨htells, htold, fun hall => hclosed' (hclosed (hall entry hentry)),
    fun hall => hshown' (hshown (hall entry hentry))⟩

/-- The merged text leaves nothing open or hides no option, and what is read of it is what is read
of its sections. -/
theorem Assembled.options_render :
    (LeavesNothingOpen (lex m.render) ∨ HidesNoOption (lex m.render)) ∧
      Reading.outside.options (cues true (lex m.render)) =
        m.sections.flatMap fun e => Reading.outside.options e.2.told := by
  have htold := fun e he => @Assembled.told_of_mem_sections _ _ _ _ hreturns horderly hopen h e he
  rw [LeavesNothingOpen, HidesNoOption, h.cues_render]
  rcases hopen with hclosed | hshown
  · obtain ⟨hafter, hoptions⟩ := Reading.options_flatMap fun e he => (htold e he).2.2.1 hclosed
    exact ⟨.inl hafter, hoptions⟩
  · have hall := fun e he => (htold e he).2.2.2 hshown
    obtain ⟨others, hsections, hothers⟩ := h.exists_sections
    -- the options come first and leave nothing open, and behind them no option is stated
    have hmerged := @Reading.shown_flatMap_append _ (fun e => e.2.told)
      ((first.contribution .options).map (Bucket.options, ·)) others ?_ ?_ ?_
    · rw [← hsections] at hmerged
      exact ⟨.inr hmerged, Reading.options_flatMap_of_shown hmerged hall⟩
    · intro e he
      have hmem : e ∈ m.sections := hsections ▸ List.mem_append_left _ he
      obtain ⟨s, -, rfl⟩ := List.mem_map.mp he
      have hbucket := h.ofKind?_of_mem_sections hmem
      exact (htold _ hmem).1.closed (Bucket.ofKind?_eq_options_iff.mp hbucket)
    · exact fun e he => hall e (hsections ▸ List.mem_append_left _ he)
    · intro e he
      have hmem : e ∈ m.sections := hsections ▸ List.mem_append_right _ he
      rw [← hall e hmem]
      exact (htold e hmem).1.states (hothers e he)

/-- **Only the first source states options** in the merged module. -/
theorem Assembled.stated_sections :
    m.sections.flatMap (fun e => Reading.outside.options e.2.told) =
      (attachUnknown [] first.sections).flatMap Section.stated := by
  have htold := fun e he => @Assembled.told_of_mem_sections _ _ _ _ hreturns horderly hopen h e he
  obtain ⟨entry, hentry, hprepare⟩ := h.exists_prepare_eq_ok List.mem_cons_self
  obtain ⟨hfaithful, -⟩ := faithful_of_prepare hreturns horderly hentry hprepare
    (hopen.imp (· entry hentry) (· entry hentry))
  obtain ⟨others, hsections, hothers⟩ := h.exists_sections
  have hrest : others.flatMap (fun e => Reading.outside.options e.2.told) = [] :=
    List.flatMap_eq_nil_iff.mpr fun e he =>
      (htold e (hsections ▸ List.mem_append_right _ he)).1.states (hothers e he)
  rw [hsections, List.flatMap_append, hrest, List.append_nil, List.flatMap_map]
  -- the sections of the first source in other buckets state nothing either
  have hcontribution : (first.contribution .options).flatMap Section.stated =
      (attachUnknown [] first.sections).flatMap Section.stated := by
    refine flatMap_filter_of_forall fun s hs hbucket => (hfaithful s hs).1.tellsAs.states ?_
    intro hkind
    rw [hkind] at hbucket
    cases hbucket
  rw [← hcontribution]
  refine List.flatMap_congr fun s hs => ?_
  have hmem : (Bucket.options, s) ∈ m.sections :=
    hsections ▸ List.mem_append_left _ (List.mem_map_of_mem hs)
  have hkind := Bucket.ofKind?_eq_options_iff.mp (h.ofKind?_of_mem_sections hmem)
  rw [(htold _ hmem).2.1 hkind]
  rfl

/-- **The merged text states what the first source states.** -/
theorem Assembled.inOrder_render {entry : String × List Token}
    (hentry : entry ∈ (Bundle.ofTexts texts).entries)
    (hprepare : prepare entry.1 entry.2 = .ok first) :
    OptionStatement.inOrder (Partition.sections (lex m.render)) =
      Reading.outside.options (cues true (Qualify.qualify first.name entry.2)) := by
  obtain ⟨hmerged, hoptions⟩ := h.options_render hreturns horderly hopen
  obtain ⟨-, hstated⟩ := faithful_of_prepare hreturns horderly hentry hprepare
    (hopen.imp (· entry hentry) (· entry hentry))
  rw [inOrder_sections (directivesLead_lex _) hmerged, hoptions,
    h.stated_sections hreturns horderly hopen, hstated]

end Assembled

end Assembly

/-! ### Options of the first source -/

/-- No option statement of the module has one of its private names in it. -/
def OptionsArePublic (tokens : List Token) : Prop :=
  ∀ s ∈ sections tokens, s.kind = .optionLine → ∀ t ∈ s.tokens, t.isName = true →
    ∀ name ∈ privateNames tokens, sameWord t.text name = false

instance (tokens : List Token) : Decidable (OptionsArePublic tokens) :=
  inferInstanceAs (Decidable (∀ s ∈ _, _))

/-- The text of a source is **orderly** if its carriage returns all stand before line feeds, and the
module read from it without them is orderly when its private names are qualified. -/
structure OrderlyText (text : String) : Prop where
  returnsPaired : ReturnsPaired text.toList
  orderly : ∀ name, declaredName? (lex (withoutReturns text)) = some name →
    Orderly (Qualify.qualify name (lex (withoutReturns text)))

instance (text : String) : Decidable (OrderlyText text) :=
  decidable_of_iff (ReturnsPaired text.toList ∧
      ∀ name ∈ declaredName? (lex (withoutReturns text)),
        Orderly (Qualify.qualify name (lex (withoutReturns text))))
    ⟨fun ⟨hpaired, horderly⟩ => ⟨hpaired, horderly⟩, fun h => ⟨h.returnsPaired, h.orderly⟩⟩

section Returns

variable {tokens : List Token}

/-- The option statements do not show carriage returns. -/
theorem ofSections_map_dropReturns (tokens : List Token) :
    OptionStatement.ofSections (sections (tokens.map Token.dropReturns)) =
      OptionStatement.ofSections (sections tokens) := by
  rw [keepsCode_dropReturns.keepsWords.sections_map,
    OptionStatement.ofSections_mapTokens keepsCode_dropReturns.normalForm_map]

/-- Option statements without private names have none without carriage returns. -/
theorem OptionsArePublic.map_dropReturns (h : OptionsArePublic tokens)
    (hunmarked : ∀ t ∈ tokens, t.Unmarked) : OptionsArePublic (tokens.map Token.dropReturns) := by
  rw [OptionsArePublic, keepsCode_dropReturns.keepsWords.sections_map, List.forall_mem_map]
  intro s hs hkind t' ht' hname
  obtain ⟨t, ht, rfl⟩ := List.mem_map.mp ht'
  rw [keepsCode_dropReturns.isName_eq] at hname
  rw [keepsCode_dropReturns.privateNames_map fun t ht => (hunmarked t ht).keepsMarks_dropReturns,
    keepsCode_dropReturns.eq_self_of_isName hname]
  exact h s hs hkind t ht hname

/-- A bundle of texts without their carriage returns. -/
theorem Bundle.ofTexts_withoutReturns {texts : List (String × String)}
    (h : ∀ source ∈ texts, ReturnsPaired source.2.toList) :
    Bundle.ofTexts (texts.map fun source => (source.1, withoutReturns source.2)) =
      (Bundle.ofTexts texts).mapValues fun _ tokens => tokens.map Token.dropReturns := by
  rw [Bundle.ofTexts, Bundle.ofTexts, ← Dictionary.ofList_map, List.map_map, List.map_map]
  congr 1
  refine List.map_congr_left fun source hsource => ?_
  simp only [Function.comp_apply, lex_withoutReturns (h source hsource)]

/-- A change of blanks and line breaks keeps cues, since these are no part of them. -/
theorem KeepsCode.keepsCues {f : Token → Token} (h : KeepsCode f) : KeepsCues f where
  toKeepsKinds := h.toKeepsKinds
  acceptsAlike p _ := h.keepsWords.acceptsAlike p
  eq_of_accepts p hp e he t hblank haccepts := by
    have hstays : cuePatterns.all Pattern.staysInLine = true := by decide
    exact h.eq_self t hblank
      (Pattern.isLineBreak_eq_false_of_accepts (List.all_eq_true.mp hstays p hp) he haccepts)

/-- Without carriage returns a bundle leaves as much open and hides as much as with them. -/
theorem Bundle.open_withoutReturns {texts : List (String × String)}
    (h : ∀ source ∈ texts, ReturnsPaired source.2.toList) :
    let bundle := Bundle.ofTexts (texts.map fun source => (source.1, withoutReturns source.2))
    (bundle.LeavesNothingOpen ↔ (Bundle.ofTexts texts).LeavesNothingOpen) ∧
      (bundle.HidesNoOption ↔ (Bundle.ofTexts texts).HidesNoOption) := by
  have hkeeps := keepsCode_dropReturns.keepsCues
  simp only [Bundle.LeavesNothingOpen, Bundle.HidesNoOption, Bundle.ofTexts_withoutReturns h,
    Dictionary.mapValues, List.forall_mem_map, hkeeps.leavesNothingOpen_map_iff,
    hkeeps.hidesNoOption_map_iff, and_self]

end Returns

/-- The options of a text without carriage returns are merged as they are. -/
theorem options_lex_of_returnless {texts : List (String × String)} {out : String}
    (hreturns : ∀ source ∈ texts, '\r' ∉ source.2.toList)
    (horderly : ∀ source ∈ texts, ∀ name, declaredName? (lex source.2) = some name →
      Orderly (Qualify.qualify name (lex source.2)))
    (hopen : (Bundle.ofTexts texts).LeavesNothingOpen ∨ (Bundle.ofTexts texts).HidesNoOption)
    {first : String × List Token} (hfirst : (Bundle.ofTexts texts).entries.head? = some first)
    (hoptions : OptionsArePublic first.2)
    (hmerge : merge (Bundle.ofTexts texts) none = .ok out) :
    OptionStatement.ofSections (sections (lex out)) =
      OptionStatement.ofSections (sections first.2) := by
  obtain ⟨m, hm, rfl⟩ := merge_eq_ok_iff.mp hmerge
  obtain ⟨p, rest, hassembled⟩ := Assembly.ofBundle_eq_ok_iff.mp hm
  have hentry : first ∈ (Bundle.ofTexts texts).entries := List.mem_of_head? hfirst
  have hprepare : prepare first.1 first.2 = .ok p := by
    have hprepared := hassembled.prepared
    obtain ⟨entries, hentries⟩ := List.head?_eq_some_iff.mp hfirst
    rw [hentries] at hprepared
    exact (List.forall₂_cons.mp hprepared).1
  have hrender := hassembled.inOrder_render hreturns horderly hopen hentry hprepare
  have hsource : LeavesNothingOpen first.2 ∨ HidesNoOption first.2 :=
    hopen.imp (· first hentry) (· first hentry)
  obtain ⟨text, -, htokens⟩ := Bundle.exists_text_of_mem_ofTexts hentry
  rw [htokens] at hrender hoptions hsource ⊢
  rw [OptionStatement.ofSections_eq, OptionStatement.ofSections_eq, hrender,
    Qualify.options_qualify (directivesLead_lex text)
      (fun s hs => (isFreeWord_iff.mp (isFreeWord_of_mem_privateNames hs)).2) hsource
      fun s hs hkind t ht => Qualify.renameToken_eq_self (hoptions s hs hkind t ht)]

/-- **Options survive merging**: the option statements of the text that is merged from orderly
sources are those of the first source, if no private name of it stands in them, and if either all
sources leave nothing open or no source hides an option. -/
theorem options_lex_of_merge {texts : List (String × String)} {out : String}
    (hsources : ∀ source ∈ texts, OrderlyText source.2)
    (hopen : (Bundle.ofTexts texts).LeavesNothingOpen ∨ (Bundle.ofTexts texts).HidesNoOption)
    {first : String × List Token} (hfirst : (Bundle.ofTexts texts).entries.head? = some first)
    (hoptions : OptionsArePublic first.2)
    (hmerge : merge (Bundle.ofTexts texts) none = .ok out) :
    OptionStatement.ofSections (sections (lex out)) =
      OptionStatement.ofSections (sections first.2) := by
  -- merging does not see the carriage returns, so the sources are taken without them
  have hpaired : ∀ source ∈ texts, ReturnsPaired source.2.toList := fun source hsource =>
    (hsources source hsource).returnsPaired
  have hbundle := Bundle.ofTexts_withoutReturns hpaired
  obtain ⟨hclosed, hshown⟩ := Bundle.open_withoutReturns hpaired
  have hunmarked := Bundle.unmarked_ofTexts first (List.mem_of_head? hfirst)
  rw [← ofSections_map_dropReturns first.2]
  refine @options_lex_of_returnless
    (texts.map fun source => (source.1, withoutReturns source.2)) out ?_ ?_
    (hopen.imp hclosed.mpr hshown.mpr) (first.1, first.2.map Token.dropReturns) ?_
    (hoptions.map_dropReturns hunmarked) ?_
  · intro source hsource
    obtain ⟨source, -, rfl⟩ := List.mem_map.mp hsource
    rw [toList_withoutReturns]
    exact fun hreturn => by simpa using (List.mem_filter.mp hreturn).2
  · intro source hsource name hname
    obtain ⟨source, hmem, rfl⟩ := List.mem_map.mp hsource
    exact (hsources source hmem).orderly name hname
  · rw [hbundle, Dictionary.mapValues, List.head?_map, hfirst]
    rfl
  · rw [hbundle, merge_mapValues_dropReturns none Bundle.unmarked_ofTexts, hmerge]

/-! ### Modules with an option statement -/

/-- The tokens of an option statement. -/
def explicitLine (lineBreak : String) : List Token :=
  [⟨.reserved, "Option"⟩, ⟨.blank, " "⟩, ⟨.reserved, "Explicit"⟩, ⟨.lineBreak, lineBreak⟩]

/-- The tokens of a line with a keyword and a name. -/
def wordLine (keyword name : String) : List Token :=
  [⟨.reserved, keyword⟩, ⟨.blank, " "⟩, ⟨.name, name⟩, ⟨.lineBreak, "\n"⟩]

/-- Two modules with the same option statement. The first begins with a byte order mark, and the
procedure of the second has no end. -/
def optionTexts : List (String × String) :=
  [("grid.bas", "\uFEFFAttribute VB_Name = \"Grid\"\nOption Explicit\r\nPrivate Count\n"),
    ("row.bas", "Attribute VB_Name = \"Row\"\nOption Explicit\nPrivate Count\nSub Draw\n")]

/-- The tokens of the first module, with its private variable under the given name. -/
def gridModule (lineBreak symbol : String) : List Token :=
  ⟨.blank, "\uFEFF"⟩ :: (namingLine "Grid" ++ explicitLine lineBreak ++ wordLine "Private" symbol)

/-- The tokens of the second module. -/
def rowModule (symbol : String) : List Token :=
  namingLine "Row" ++ explicitLine "\n" ++ wordLine "Private" symbol ++ wordLine "Sub" "Draw"

/-- What is read of the two modules: their tokens, names, qualified tokens and candidates, that they
are tidy and that they hide no option. -/
theorem reading_optionTexts :
    (∀ source ∈ optionTexts, ReturnsPaired source.2.toList) ∧
      optionTexts.map (fun source => (source.1, lex source.2)) =
        [("grid.bas", gridModule "\r\n" "Count"), ("row.bas", rowModule "Count")] ∧
      optionTexts.map (fun source => lex (withoutReturns source.2)) =
        [gridModule "\n" "Count", rowModule "Count"] ∧
      (∀ lineBreak ∈ ["\r\n", "\n"],
        declaredName? (gridModule lineBreak "Count") = some "Grid" ∧
          Qualify.qualify "Grid" (gridModule lineBreak "Count") =
            gridModule lineBreak "Grid_Count" ∧
          ∀ symbol ∈ ["Count", "Grid_Count"], Candidate.all (gridModule lineBreak symbol) =
            [⟨1, 11, .attributeLine⟩, ⟨11, 15, .optionLine⟩, ⟨15, 19, .global⟩]) ∧
      (declaredName? (rowModule "Count") = some "Row" ∧
        Qualify.qualify "Row" (rowModule "Count") = rowModule "Row_Count" ∧
        Candidate.all (rowModule "Row_Count") =
          [⟨0, 10, .attributeLine⟩, ⟨10, 14, .optionLine⟩, ⟨14, 18, .global⟩]) ∧
      (Tidy (gridModule "\n" "Grid_Count") ∧ Orderly (rowModule "Row_Count")) ∧
      HidesNoOption (gridModule "\r\n" "Count") ∧ HidesNoOption (rowModule "Count") := by
  decide +kernel

/-- The mark is a section of its own, of unknown kind. -/
theorem sections_gridModule {lineBreak symbol : String}
    (hall : Candidate.all (gridModule lineBreak symbol) =
      [⟨1, 11, .attributeLine⟩, ⟨11, 15, .optionLine⟩, ⟨15, 19, .global⟩]) :
    sections (gridModule lineBreak symbol) =
      [.ofTokens [⟨.blank, "\uFEFF"⟩] .unknown, .ofTokens (namingLine "Grid") .attributeLine,
        .ofTokens (explicitLine lineBreak) .optionLine,
        .ofTokens (wordLine "Private" symbol) .global] := by
  rw [sections, spans_eq_coverFrom_absorb hall (by decide)]
  rfl

/-- The procedure without an end is of unknown kind. -/
theorem sections_rowModule : sections (rowModule "Row_Count") =
    [.ofTokens (namingLine "Row") .attributeLine, .ofTokens (explicitLine "\n") .optionLine,
      .ofTokens (wordLine "Private" "Row_Count") .global,
      .ofTokens (wordLine "Sub" "Draw") .unknown] := by
  obtain ⟨-, -, -, -, ⟨-, -, hall⟩, -⟩ := reading_optionTexts
  rw [sections, spans_eq_coverFrom_absorb hall (by decide)]
  rfl

/-- The words of the option statement are reserved. -/
theorem optionsArePublic_gridModule : OptionsArePublic (gridModule "\r\n" "Count") := by
  obtain ⟨-, -, -, hgrid, -⟩ := reading_optionTexts
  obtain ⟨-, -, hall⟩ := hgrid "\r\n" (by simp)
  rw [OptionsArePublic, sections_gridModule (hall _ (by simp))]
  intro s hs hkind t ht hname
  obtain rfl : s = .ofTokens (explicitLine "\r\n") .optionLine := by
    simp only [List.mem_cons, List.not_mem_nil, or_false] at hs
    obtain rfl | rfl | rfl | rfl := hs
    · cases hkind
    · cases hkind
    · rfl
    · cases hkind
  simp only [Section.ofTokens, explicitLine, List.mem_cons, List.not_mem_nil, or_false] at ht
  obtain rfl | rfl | rfl | rfl := ht <;> cases hname

/-- The mark is in front of the attribute line, which is not kept. -/
theorem orderlyText_of_mem_optionTexts : ∀ source ∈ optionTexts, OrderlyText source.2 := by
  obtain ⟨hpaired, -, hlex, hgrid, ⟨hrowName, hrowQualify, -⟩, ⟨htidy, horderly⟩, -⟩ :=
    reading_optionTexts
  obtain ⟨hgridName, hgridQualify, hall⟩ := hgrid "\n" (by simp)
  obtain ⟨hgridLex, hlex⟩ := List.cons.inj hlex
  obtain ⟨hrowLex, -⟩ := List.cons.inj hlex
  have hgridOrderly : Orderly (gridModule "\n" "Grid_Count") := by
    refine ⟨htidy, fun _ s hs => .inl ?_⟩
    rw [blocksOf, sections_gridModule (hall _ (by simp))] at hs
    obtain rfl := Option.some.inj hs
    rfl
  intro source hsource
  refine ⟨hpaired source hsource, fun name hname => ?_⟩
  simp only [optionTexts, List.mem_cons, List.not_mem_nil, or_false] at hsource
  rcases hsource with rfl | rfl
  · simp only [hgridLex] at hname ⊢
    rw [hgridName] at hname
    rw [← Option.some.inj hname, hgridQualify]
    exact hgridOrderly
  · simp only [hrowLex] at hname ⊢
    rw [hrowName] at hname
    rw [← Option.some.inj hname, hrowQualify]
    exact horderly

theorem entries_optionTexts : (Bundle.ofTexts optionTexts).entries =
    [("grid.bas", gridModule "\r\n" "Count"), ("row.bas", rowModule "Count")] :=
  Bundle.entries_ofTexts reading_optionTexts.2.1 (by decide)

/-- The open procedure is behind the option statement, so it hides none. -/
theorem hidesNoOption_optionTexts : (Bundle.ofTexts optionTexts).HidesNoOption := by
  obtain ⟨-, -, -, -, -, -, hgrid, hrow⟩ := reading_optionTexts
  rw [Bundle.HidesNoOption, entries_optionTexts]
  exact List.forall_mem_cons.mpr ⟨hgrid, List.forall_mem_singleton.mpr hrow⟩

/-- The two modules are merged, since they state the same options. -/
theorem exists_merge_optionTexts : ∃ out, merge (Bundle.ofTexts optionTexts) none = .ok out := by
  obtain ⟨-, -, -, hgrid, ⟨hrowName, hrowQualify, -⟩, -⟩ := reading_optionTexts
  obtain ⟨hgridName, hgridQualify, hall⟩ := hgrid "\r\n" (by simp)
  obtain ⟨m, h⟩ : ∃ m, Assembly.Assembled (Bundle.ofTexts optionTexts) none m
      (.named "grid.bas" "Grid" (gridModule "\r\n" "Count"))
      [.named "row.bas" "Row" (rowModule "Count")] := by
    refine ⟨_, ?_, ?_, rfl⟩
    · rw [entries_optionTexts]
      exact .cons (prepare_eq_ok_iff.mpr ⟨_, hgridName, rfl⟩)
        (.cons (prepare_eq_ok_iff.mpr ⟨_, hrowName, rfl⟩) .nil)
    · intro p hp
      obtain rfl := List.mem_singleton.mp hp
      have hgridOptions : OptionStatement.ofSections
          (Prepared.named "grid.bas" "Grid" (gridModule "\r\n" "Count")).sections =
            ["option explicit"] := by
        simp only [Prepared.named, qualifiedSections, sectionsOf, hgridQualify,
          sections_gridModule (hall "Grid_Count" (by simp))]
        exact List.mergeSort_singleton _
      have hrowOptions : OptionStatement.ofSections
          (Prepared.named "row.bas" "Row" (rowModule "Count")).sections = ["option explicit"] := by
        simp only [Prepared.named, qualifiedSections, sectionsOf, hrowQualify, sections_rowModule]
        exact List.mergeSort_singleton _
      rw [hrowOptions, hgridOptions]
  exact ⟨m.render, merge_eq_ok_iff.mpr ⟨m, Assembly.ofBundle_eq_ok_iff.mpr ⟨_, _, h⟩, rfl⟩⟩

/-- The merged module states the option once. -/
theorem options_lex_of_merge_optionTexts :
    (∀ source ∈ optionTexts, OrderlyText source.2) ∧
      (Bundle.ofTexts optionTexts).HidesNoOption ∧
      (Bundle.ofTexts optionTexts).entries.head? =
        some ("grid.bas", gridModule "\r\n" "Count") ∧
      OptionsArePublic (gridModule "\r\n" "Count") ∧
      ∃ out, merge (Bundle.ofTexts optionTexts) none = .ok out ∧
        OptionStatement.ofSections (sections (lex out)) = ["option explicit"] := by
  have hfirst : (Bundle.ofTexts optionTexts).entries.head? =
      some ("grid.bas", gridModule "\r\n" "Count") := by
    rw [entries_optionTexts]
    rfl
  obtain ⟨-, -, -, hgrid, -⟩ := reading_optionTexts
  obtain ⟨-, -, hall⟩ := hgrid "\r\n" (by simp)
  obtain ⟨out, hmerge⟩ := exists_merge_optionTexts
  refine ⟨orderlyText_of_mem_optionTexts, hidesNoOption_optionTexts, hfirst,
    optionsArePublic_gridModule, out, hmerge, ?_⟩
  rw [options_lex_of_merge orderlyText_of_mem_optionTexts (.inr hidesNoOption_optionTexts) hfirst
    optionsArePublic_gridModule hmerge, sections_gridModule (hall _ (by simp))]
  exact List.mergeSort_singleton _

/-! ### A module that loses its options -/

/-- A module that begins with a byte order mark and an option statement. -/
def markedText : String :=
  "\uFEFFOption Explicit\nAttribute VB_Name = \"Grid\"\n"

def markedModule : List Token :=
  ⟨.blank, "\uFEFF"⟩ :: explicitLine "\n" ++ namingLine "Grid"

/-- The option line of the module, with the mark in front of it. -/
def markedOption : Section :=
  ⟨⟨.blank, "\uFEFF"⟩ :: explicitLine "\n", .optionLine, some "grid.bas", false⟩

/-- The option line behind the line that names the module, where the mark is no blank. -/
def mergedModule : List Token :=
  namingLine "Grid" ++ ⟨.unknown, "\uFEFF"⟩ :: explicitLine "\n" ++ [⟨.lineBreak, "\n"⟩]

/-- What is read of the module and of the text that is merged from it. -/
theorem reading_markedText :
    lex markedText = markedModule ∧ declaredName? markedModule = some "Grid" ∧
      Qualify.qualify "Grid" markedModule = markedModule ∧
      Candidate.all markedModule = [⟨1, 5, .optionLine⟩, ⟨5, 15, .attributeLine⟩] ∧
      markedOption.block ≠ "" ∧
      lex (String.join ([.header "Grid", .block markedOption.block].map Piece.render)) =
        mergedModule ∧
      Candidate.all mergedModule = [⟨0, 10, .attributeLine⟩] := by
  decide +kernel

/-- The module contributes its option line, with the mark in front of it, and nothing else. -/
theorem contribution_markedModule (b : Bucket) :
    (Prepared.named "grid.bas" "Grid" markedModule).contribution b =
      if b = .options then [markedOption] else [] := by
  obtain ⟨-, -, hqualify, hall, -⟩ := reading_markedText
  simp only [Prepared.contribution, Prepared.named, qualifiedSections, sectionsOf, sections,
    hqualify, spans_eq_coverFrom_absorb hall (by decide)]
  cases b <;> rfl

/-- The merged text has this block behind the header. -/
theorem layout_markedModule {bundle : Bundle} {m : Assembly}
    (h : Assembly.Assembled bundle none m (.named "grid.bas" "Grid" markedModule) []) :
    m.layout = [.header "Grid", .block markedOption.block] := by
  obtain ⟨-, -, -, -, hblock, -⟩ := reading_markedText
  have hsections : m.sections = [(.options, markedOption)] := by
    rw [h.result_eq]
    simp only [Assembly.sections, bucketSections, contribution_markedModule]
    rfl
  have hname : m.name = "Grid" := by
    rw [h.result_eq]
    rfl
  rw [Assembly.layout, hname, hsections, Assembly.layoutFrom, if_neg hblock, if_neg (by simp)]
  rfl

/-- **Options can be lost**: the merged text of a module that begins with a byte order mark and an
option statement has no option statement. -/
theorem options_lost_markedText :
    ∃ out, merge (Bundle.ofTexts [("grid.bas", markedText)]) none = .ok out ∧
      OptionStatement.ofSections (sections (lex out)) = [] ∧
      OptionStatement.ofSections (sections (lex markedText)) = ["option explicit"] := by
  obtain ⟨hlex, hname, -, hall, -, hmerged, hmergedAll⟩ := reading_markedText
  have hentries : (Bundle.ofTexts [("grid.bas", markedText)]).entries =
      [("grid.bas", markedModule)] :=
    Bundle.entries_ofTexts (by rw [← hlex]; rfl) (by decide)
  obtain ⟨m, h⟩ : ∃ m, Assembly.Assembled (Bundle.ofTexts [("grid.bas", markedText)]) none m
      (.named "grid.bas" "Grid" markedModule) [] := by
    refine ⟨_, ?_, by simp, rfl⟩
    rw [hentries]
    exact .cons (prepare_eq_ok_iff.mpr ⟨_, hname, rfl⟩) .nil
  refine ⟨m.render, merge_eq_ok_iff.mpr ⟨m, Assembly.ofBundle_eq_ok_iff.mpr ⟨_, _, h⟩, rfl⟩, ?_, ?_⟩
  · -- the mark is an unknown token here, and so there is only the line that names the module
    rw [Assembly.render, layout_markedModule h, hmerged, sections,
      spans_eq_coverFrom_absorb hmergedAll (by decide)]
    exact List.mergeSort_nil
  · rw [hlex, sections, spans_eq_coverFrom_absorb hall (by decide)]
    exact List.mergeSort_singleton _

end VbaModules
