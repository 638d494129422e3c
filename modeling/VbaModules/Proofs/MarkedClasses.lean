import VbaModules.Proofs.ClassMarks

/-!
# Marked class modules

Renaming the class modules of a bundle reaches a state where nothing is left to rename: all class
modules have the mark, so doing it again changes nothing. On the way exactly those names change that
are the name of a class module without the mark, in whatever letter case (`ClassesMarked`).

Renaming is described here as a function from bundles to bundles. The same can be done in place, one
module after the other (`Bundle.renameInPlace`). Since all rules are made beforehand, a failure
leaves the bundle as it was.
-/

namespace VbaModules

open Text Lexer

/-! ### Renaming in place -/

namespace Bundle

/-- Replaces the names of some modules in the bundle, one module after the other, and counts the
changes. -/
def renameModules (replacement? : String → Option String) :
    List (String × List Token) → StateM Bundle Nat
  | [] => return 0
  | source :: sources => do
    modify (·.insert source.1 (renameTokens replacement? source.2))
    let changed ← renameModules replacement? sources
    return countRenamed replacement? source.2 + changed

/-- Renames the modules of a bundle in place. -/
def renameInPlace (rules : RuleList) (renameClasses : Bool) :
    ExceptT RenamingError (StateM Bundle) Nat := do
  let bundle ← get
  let rules ← liftExcept (bundleRules rules renameClasses bundle)
  renameModules rules.replacementFor? bundle.entries

theorem run_renameModules_cons (replacement? : String → Option String)
    (source : String × List Token) (sources : List (String × List Token)) (bundle : Bundle) :
    (renameModules replacement? (source :: sources)).run bundle =
      (countRenamed replacement? source.2 +
          ((renameModules replacement? sources).run
            (bundle.insert source.1 (renameTokens replacement? source.2))).1,
        ((renameModules replacement? sources).run
          (bundle.insert source.1 (renameTokens replacement? source.2))).2) :=
  rfl

/-- In the course of the renaming the modules done come first, and the others are as before. -/
theorem run_renameModules (replacement? : String → Option String)
    {before sources : List (String × List Token)} {bundle : Bundle}
    (h : bundle.entries = before ++ sources) :
    ∃ renamed : Bundle,
      (renameModules replacement? sources).run bundle =
        ((sources.map fun source => countRenamed replacement? source.2).foldr (· + ·) 0, renamed) ∧
      renamed.entries =
        before ++ sources.map fun source => (source.1, renameTokens replacement? source.2) := by
  induction sources generalizing before bundle with
  | nil => exact ⟨bundle, rfl, h⟩
  | cons source sources ih =>
    have hkey : source.1 ∉ before.map Prod.fst := by
      have hdistinct := bundle.distinct
      rw [h, List.map_append, List.map_cons, List.nodup_append] at hdistinct
      exact fun hmem => hdistinct.2.2 _ hmem _ List.mem_cons_self rfl
    have hentries : (bundle.insert source.1 (renameTokens replacement? source.2)).entries =
        (before ++ [(source.1, renameTokens replacement? source.2)]) ++ sources := by
      change assign source.1 _ bundle.entries = _
      rw [h, assign_append_cons hkey, List.append_assoc, List.singleton_append]
    obtain ⟨renamed, hrun, hrenamed⟩ := ih hentries
    refine ⟨renamed, ?_, by rw [hrenamed, List.append_assoc]; rfl⟩
    rw [run_renameModules_cons, hrun, List.map_cons, List.foldr_cons]

theorem run_renameInPlace (rules : RuleList) (renameClasses : Bool) (bundle : Bundle) :
    (renameInPlace rules renameClasses).run.run bundle =
      (do
        let rules ← liftExcept (bundleRules rules renameClasses bundle)
        renameModules rules.replacementFor? bundle.entries :
          ExceptT RenamingError (StateM Bundle) Nat).run.run bundle :=
  rfl

/-- Renaming in place gives the renamed bundle. -/
theorem run_renameInPlace_of_ok {bundle : Bundle} {rules : RuleList} {renameClasses : Bool}
    {renamed : Renamed} (h : bundle.rename rules renameClasses = .ok renamed) :
    (renameInPlace rules renameClasses).run.run bundle = (.ok renamed.changed, renamed.bundle) := by
  rw [rename_eq] at h
  obtain ⟨bundled, hrules, rfl⟩ := map_eq_ok_iff.mp h
  obtain ⟨after, hrun, hafter⟩ :=
    run_renameModules bundled.replacementFor? (List.nil_append bundle.entries).symm
  have hbundle : after = (bundle.renamedBy bundled.replacementFor?).bundle :=
    Dictionary.eq_of_entries_eq hafter
  calc (renameInPlace rules renameClasses).run.run bundle
      = (.ok ((renameModules bundled.replacementFor? bundle.entries).run bundle).1,
          ((renameModules bundled.replacementFor? bundle.entries).run bundle).2) := by
        rw [run_renameInPlace, hrules]
        rfl
    _ = _ := by rw [hrun, hbundle]; rfl

/-- A failure leaves the bundle as it was. -/
theorem run_renameInPlace_of_error {bundle : Bundle} {rules : RuleList} {renameClasses : Bool}
    {e : RenamingError} (h : bundle.rename rules renameClasses = .error e) :
    (renameInPlace rules renameClasses).run.run bundle = (.error e, bundle) := by
  rw [rename_eq, map_eq_error_iff] at h
  rw [run_renameInPlace, h]
  rfl

/-! ### What marking changes -/

/-- The tokens of all modules in a row. -/
def tokens (bundle : Bundle) : List Token :=
  bundle.entries.flatMap Prod.snd

theorem tokens_renamedBy (bundle : Bundle) (replacement? : String → Option String) :
    (bundle.renamedBy replacement?).bundle.tokens =
      bundle.tokens.map (renameToken replacement?) := by
  rw [tokens, entries_renamedBy, List.flatMap_map, tokens, List.map_flatMap]
  rfl

theorem changed_renamedBy (bundle : Bundle) (replacement? : String → Option String) :
    (bundle.renamedBy replacement?).changed = countRenamed replacement? bundle.tokens := by
  change (bundle.entries.map fun source => countRenamed replacement? source.2).foldr (· + ·) 0 = _
  rw [tokens]
  induction bundle.entries with
  | nil => rfl
  | cons source sources ih =>
    rw [List.map_cons, List.foldr_cons, ih, List.flatMap_cons, countRenamed, countRenamed,
      countRenamed, List.countP_append]

end Bundle

/-- The changes are the tokens that differ from what they were. -/
theorem countRenamed_eq_countP_zip (replacement? : String → Option String) (ts : List Token) :
    countRenamed replacement? ts =
      (ts.zip (ts.map (renameToken replacement?))).countP fun pair => pair.1 != pair.2 := by
  induction ts with
  | nil => rfl
  | cons t ts ih =>
    rw [List.map_cons, List.zip_cons_cons, List.countP_cons, ← ih, countRenamed, countRenamed,
      List.countP_cons, bne_comm]

/-- How the tokens of a bundle change when names get the class mark: only name tokens that are the
same word as one of the names, and these get the mark. -/
structure Marked (names : List String) (t u : Token) : Prop where
  kind_eq : u.kind = t.kind
  ne_iff : u ≠ t ↔ t.isName = true ∧ ∃ name ∈ names, sameWord t.text name = true
  text_of_ne : u ≠ t → ∃ name ∈ names, sameWord t.text name = true ∧ u.text = classMark ++ name

/-- Every class module of the bundle has a name with the mark. -/
def Bundle.HasMarkedClasses (bundle : Bundle) : Prop :=
  ∀ source ∈ bundle.entries, Origin.isClass source.1 = true →
    ∃ name, declaredName? source.2 = some name ∧ hasClassMark name = true

/-- **What comes of marking the class modules** of a bundle. -/
structure ClassesMarked (bundle : Bundle) (renamed : Bundle.Renamed) : Prop where
  marked : renamed.bundle.HasMarkedClasses
  /-- The modules stay in order, and their tokens change by getting the mark. -/
  tokens : List.Forall₂ (fun source renamed => renamed.1 = source.1 ∧
    List.Forall₂ (Marked bundle.plainClassNames) source.2 renamed.2)
      bundle.entries renamed.bundle.entries
  /-- The count is that of the tokens that are not as before. -/
  changed : renamed.changed =
    (bundle.tokens.zip renamed.bundle.tokens).countP fun pair => pair.1 != pair.2
  /-- Marking the class modules again changes nothing. -/
  again : renamed.bundle.rename .empty true =
    .ok ⟨renamed.bundle, 0, renamed.bundle.entries.map fun source => .renamed source.1 0⟩

/-- A name with the mark before it is not the same text, in whatever letter case. -/
theorem classMark_append_ne {word name : String} (h : sameWord word name = true) :
    classMark ++ name ≠ word := by
  rintro rfl
  rw [sameWord_iff, ← String.toList_inj, toList_foldCase, toList_foldCase, String.toList_append,
    List.map_append] at h
  have hlength := congrArg List.length h
  rw [List.length_append] at hlength
  have hmark : (classMark.toList.map Char.toLower).length = 2 := rfl
  omega

theorem renameToken_markOf?_eq_self {names : List String} {t : Token}
    (h : t.isName = true → ∀ name ∈ names, sameWord t.text name = false) :
    renameToken (markOf? names) t = t := by
  rw [renameToken]
  split
  next hname => rw [markOf?_eq_none_iff.mpr (h hname), Option.getD_none]
  next => rfl

theorem exists_renameToken_markOf? {names : List String} {t : Token} (hname : t.isName = true)
    (h : ∃ name ∈ names, sameWord t.text name = true) :
    ∃ name ∈ names, sameWord t.text name = true ∧
      renameToken (markOf? names) t = { t with text := classMark ++ name } := by
  obtain ⟨name, hmem, hword, hget⟩ := exists_markOf?_eq_some h
  exact ⟨name, hmem, hword, by rw [renameToken, if_pos hname, hget, Option.getD_some]⟩

theorem marked_renameToken (names : List String) (t : Token) :
    Marked names t (renameToken (markOf? names) t) := by
  have hkind := Qualify.kind_renameToken (markOf? names) t
  by_cases h : t.isName = true ∧ ∃ name ∈ names, sameWord t.text name = true
  · obtain ⟨name, hmem, hword, heq⟩ := exists_renameToken_markOf? h.1 h.2
    have hne : renameToken (markOf? names) t ≠ t := fun hself =>
      classMark_append_ne hword (congrArg Token.text (heq.symm.trans hself))
    exact ⟨hkind, iff_of_true hne h, fun _ => ⟨name, hmem, hword, congrArg Token.text heq⟩⟩
  · have hself : renameToken (markOf? names) t = t :=
      renameToken_markOf?_eq_self fun hname name hmem =>
        Bool.eq_false_iff.mpr fun hword => h ⟨hname, name, hmem, hword⟩
    exact ⟨hkind, iff_of_false (not_not.mpr hself) h, fun hne => absurd hself hne⟩

/-- Without class modules to be marked nothing changes. -/
theorem Bundle.marked_eq_self {bundle : Bundle} (h : bundle.plainClassNames = []) :
    bundle.marked = ⟨bundle, 0, bundle.entries.map fun source => .renamed source.1 0⟩ := by
  have htoken : renameToken (markOf? []) = id := funext fun t =>
    renameToken_markOf?_eq_self fun _ _ hmem => absurd hmem List.not_mem_nil
  have hcount : ∀ ts, countRenamed (markOf? []) ts = 0 := by simp [countRenamed, htoken]
  have hbundle : (bundle.renamedBy (markOf? [])).bundle = bundle := by
    refine Dictionary.eq_of_entries_eq ?_
    simp [entries_renamedBy, renameTokens, htoken]
  have hchanged : (bundle.renamedBy (markOf? [])).changed = 0 := by
    rw [changed_renamedBy, hcount]
  have hnotices : (bundle.renamedBy (markOf? [])).notices =
      bundle.entries.map fun source => .renamed source.1 0 := by
    simp [renamedBy, hcount]
  rw [marked, h]
  calc bundle.renamedBy (markOf? [])
      = ⟨(bundle.renamedBy (markOf? [])).bundle, (bundle.renamedBy (markOf? [])).changed,
          (bundle.renamedBy (markOf? [])).notices⟩ := rfl
    _ = _ := by rw [hbundle, hchanged, hnotices]

/-- Where all class modules have the mark, nothing is left to rename. -/
theorem Bundle.HasMarkedClasses.rename_eq {bundle : Bundle} (h : bundle.HasMarkedClasses) :
    bundle.rename .empty true =
      .ok ⟨bundle, 0, bundle.entries.map fun source => .renamed source.1 0⟩ := by
  refine rename_eq_ok_iff.mpr ⟨fun source hsource e he => ?_, (marked_eq_self ?_).symm⟩
  · cases he with
    | missingName hclass hnone =>
      obtain ⟨name, hname, -⟩ := h _ hsource hclass
      rw [hnone] at hname
      cases hname
    | nameTooLong hclass hname hplain _ =>
      obtain ⟨name, hname', hmark⟩ := h _ hsource hclass
      rw [hname, Option.some.injEq] at hname'
      rw [hname', hmark] at hplain
      cases hplain
  · refine List.filterMap_eq_nil_iff.mpr fun source hsource => ?_
    refine Option.eq_none_iff_forall_ne_some.mpr fun name hplain => ?_
    obtain ⟨hclass, hname, hmark⟩ := plainClassName?_eq_some_iff.mp hplain
    obtain ⟨name', hname', hmark'⟩ := h source hsource hclass
    rw [hname, Option.some.injEq] at hname'
    rw [hname', hmark'] at hmark
    cases hmark

/-- What becomes of the name of a class module has the mark. -/
theorem hasClassMark_getD_markOf? {bundle : Bundle} {source : String × List Token} {name : String}
    (hsource : source ∈ bundle.entries) (hclass : Origin.isClass source.1 = true)
    (hname : declaredName? source.2 = some name) :
    hasClassMark ((markOf? bundle.plainClassNames name).getD name) = true := by
  cases hget : markOf? bundle.plainClassNames name with
  | some renamed =>
    obtain ⟨plain, -, -, rfl⟩ := exists_of_markOf?_eq_some hget
    exact hasClassMark_append plain
  | none =>
    by_contra hplain
    rw [Option.getD_none, Bool.not_eq_true] at hplain
    have hmem : name ∈ bundle.plainClassNames := List.mem_filterMap.mpr
      ⟨source, hsource, plainClassName?_eq_some_iff.mpr ⟨hclass, hname, hplain⟩⟩
    obtain ⟨_, -, -, hsome⟩ := exists_markOf?_eq_some ⟨name, hmem, sameWord_iff.mpr rfl⟩
    rw [hget] at hsome
    cases hsome

theorem classesMarked_marked {texts : List (String × String)}
    (hmarkable : ∀ source ∈ (Bundle.ofTexts texts).entries, ∀ e, ¬Unmarkable source e) :
    ClassesMarked (Bundle.ofTexts texts) (Bundle.ofTexts texts).marked := by
  have hmarked : (Bundle.ofTexts texts).marked.bundle.HasMarkedClasses := by
    intro renamed hrenamed hclass
    obtain ⟨source, hsource, rfl⟩ := List.mem_map.mp hrenamed
    cases hname : declaredName? source.2 with
    | none => exact absurd (.missingName hclass hname) (hmarkable source hsource _)
    | some name =>
      refine ⟨_, ?_, hasClassMark_getD_markOf? hsource hclass hname⟩
      rw [Bundle.declaredName?_marked hsource, hname, Option.map_some]
  refine ⟨hmarked, ?_, ?_, hmarked.rename_eq⟩
  · rw [Bundle.marked, Bundle.entries_renamedBy, List.forall₂_map_right_iff, List.forall₂_same]
    rintro source -
    refine ⟨rfl, ?_⟩
    rw [renameTokens, List.forall₂_map_right_iff, List.forall₂_same]
    exact fun t _ => marked_renameToken _ t
  · rw [Bundle.marked, Bundle.changed_renamedBy, Bundle.tokens_renamedBy,
      countRenamed_eq_countP_zip]

/-- **Marking the class modules is final and all or nothing.** If it succeeds, the class modules are
marked as `ClassesMarked` says, and in place the same comes about. If it fails, the bundle is left
as it was. It fails exactly if some class module is unmarkable, with the error of the first one. -/
theorem Bundle.rename_classes_final (texts : List (String × String)) :
    (∀ renamed, (Bundle.ofTexts texts).rename .empty true = .ok renamed →
      ClassesMarked (Bundle.ofTexts texts) renamed ∧
        (renameInPlace .empty true).run.run (Bundle.ofTexts texts) =
          (.ok renamed.changed, renamed.bundle)) ∧
    (∀ e, (Bundle.ofTexts texts).rename .empty true = .error e →
      (renameInPlace .empty true).run.run (Bundle.ofTexts texts) =
        (.error e, Bundle.ofTexts texts)) ∧
    ((∃ e, (Bundle.ofTexts texts).rename .empty true = .error e) ↔
      ∃ source ∈ (Bundle.ofTexts texts).entries, ∃ e, Unmarkable source e) ∧
    ∀ e, (Bundle.ofTexts texts).rename .empty true = .error e ↔
      ∃ source, IsFirst (fun source => ∃ e, Unmarkable source e)
        (Bundle.ofTexts texts).entries source ∧ Unmarkable source e := by
  refine ⟨fun renamed h => ⟨?_, run_renameInPlace_of_ok h⟩, fun e => run_renameInPlace_of_error,
    exists_rename_eq_error_iff, fun e => rename_eq_error_iff⟩
  obtain ⟨hmarkable, rfl⟩ := rename_eq_ok_iff.mp h
  exact classesMarked_marked hmarkable

end VbaModules
