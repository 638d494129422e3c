import VbaModules.Proofs.Converting
import VbaModules.Proofs.MarkedClasses

/-!
# Class marks and distinct module names

If the modules of a bundle have distinct names, marking its class modules gives each class module
without the mark, called `m`, the name `z_m` and leaves all other names alone
(`Bundle.ModulesApart.declaredName?_marked`). Marked names are as different as the names before. But
a module that keeps its name may have been called `z_m` all along, and then two modules have the
same name afterwards. This is the only way in which the distinction is lost
(`Bundle.ModulesApart.namesDiffer_markedName?_iff`).
-/

namespace VbaModules

open Text Lexer

namespace Bundle

/-- The names that the modules of a bundle give. -/
def moduleNames (bundle : Bundle) : List String :=
  bundle.entries.filterMap fun source => declaredName? source.2

/-- The modules of a bundle are **apart** if all of them give a name and no two of the names are the
same word. -/
structure ModulesApart (bundle : Bundle) : Prop where
  named : ∀ source ∈ bundle.entries, (declaredName? source.2).isSome = true
  distinct : bundle.moduleNames.Pairwise fun m n => sameWord m n = false

/-- The name of a module that marking leaves alone: one that is no class module, or a class module
with the mark. -/
def stayingName? (source : String × List Token) : Option String :=
  if plainClassName? source = none then declaredName? source.2 else none

/-- The names of the modules that marking leaves alone. -/
def stayingNames (bundle : Bundle) : List String :=
  bundle.entries.filterMap stayingName?

theorem stayingName?_eq_some_iff {source : String × List Token} {name : String} :
    stayingName? source = some name ↔
      plainClassName? source = none ∧ declaredName? source.2 = some name := by
  rw [stayingName?]
  split
  next h => simp [h]
  next h => simp [h]

/-! ### Modules with different names -/

/-- Two modules have **different names**, for some way of naming modules. -/
def NamesDiffer (name? : String × List Token → Option String) (a b : String × List Token) : Prop :=
  ∀ m, name? a = some m → ∀ n, name? b = some n → sameWord m n = false

instance (name? : String × List Token → Option String) : Std.Symm (NamesDiffer name?) where
  symm a b h n hn m hm := by rw [sameWord_comm, h m hm n hn]

/-- No two of the names are the same word if any two modules have different names. -/
theorem pairwise_filterMap_entries_iff {bundle : Bundle}
    {name? : String × List Token → Option String} :
    ((bundle.entries.filterMap name?).Pairwise fun m n => sameWord m n = false) ↔
      ∀ a ∈ bundle.entries, ∀ b ∈ bundle.entries, a ≠ b → NamesDiffer name? a b := by
  have hpairwise : ((bundle.entries.filterMap name?).Pairwise fun m n => sameWord m n = false) ↔
      bundle.entries.Pairwise (NamesDiffer name?) := List.pairwise_filterMap
  rw [hpairwise]
  constructor
  · intro h a ha b hb hne
    exact h.forall ha hb hne
  · exact (bundle.distinct.of_map _).pairwise_of_forall_ne

/-- Of modules that are apart at most one has a given name. So a module with the name of a class
module to be marked is that class module. -/
theorem ModulesApart.plainClassName?_of_sameWord {bundle : Bundle} (h : bundle.ModulesApart)
    {source : String × List Token} (hsource : source ∈ bundle.entries) {name plain : String}
    (hname : declaredName? source.2 = some name) (hplain : plain ∈ bundle.plainClassNames)
    (hword : sameWord name plain = true) : plainClassName? source = some plain := by
  obtain ⟨source', hsource', hplain'⟩ := List.mem_filterMap.mp hplain
  obtain ⟨-, hname', -⟩ := plainClassName?_eq_some_iff.mp hplain'
  by_cases heq : source = source'
  · rw [heq, hplain']
  · have hdiffer := pairwise_filterMap_entries_iff.mp h.distinct source hsource source' hsource' heq
    rw [hdiffer name hname plain hname'] at hword
    cases hword

/-! ### The names after marking -/

/-- The name of a module after the class modules are marked. -/
def markedName? (source : String × List Token) : Option String :=
  ((plainClassName? source).map (classMark ++ ·)).or (declaredName? source.2)

theorem markedName?_eq_some_iff {source : String × List Token} {name : String} :
    markedName? source = some name ↔
      (∃ plain, plainClassName? source = some plain ∧ classMark ++ plain = name) ∨
        stayingName? source = some name := by
  rw [markedName?, stayingName?]
  cases plainClassName? source <;> simp

/-- **If the modules are apart, each class module gets its own name with the mark**, and no other
module is affected. -/
theorem ModulesApart.declaredName?_marked {texts : List (String × String)}
    (h : (ofTexts texts).ModulesApart) {source : String × List Token}
    (hsource : source ∈ (ofTexts texts).entries) :
    declaredName? (renameTokens (markOf? (ofTexts texts).plainClassNames) source.2) =
      markedName? source := by
  rw [Bundle.declaredName?_marked hsource, markedName?]
  cases hplain : plainClassName? source with
  | none =>
    cases hname : declaredName? source.2 with
    | none => rfl
    | some name =>
      have hnone : markOf? (ofTexts texts).plainClassNames name = none := by
        refine markOf?_eq_none_iff.mpr fun plain hmem => Bool.eq_false_iff.mpr fun hword => ?_
        rw [h.plainClassName?_of_sameWord hsource hname hmem hword] at hplain
        cases hplain
      rw [Option.map_some, hnone]
      rfl
  | some name =>
    obtain ⟨-, hname, -⟩ := plainClassName?_eq_some_iff.mp hplain
    have hmem : name ∈ (ofTexts texts).plainClassNames :=
      List.mem_filterMap.mpr ⟨source, hsource, hplain⟩
    obtain ⟨plain, hmem', hword, hsome⟩ :=
      exists_markOf?_eq_some ⟨name, hmem, sameWord_iff.mpr rfl⟩
    -- the class module found by the name is the module itself
    rw [h.plainClassName?_of_sameWord hsource hname hmem' hword, Option.some.injEq] at hplain
    subst hplain
    rw [hname, Option.map_some, hsome]
    rfl

theorem ModulesApart.moduleNames_marked {texts : List (String × String)}
    (h : (ofTexts texts).ModulesApart) :
    (ofTexts texts).marked.bundle.moduleNames = (ofTexts texts).entries.filterMap markedName? := by
  rw [moduleNames, marked, entries_renamedBy, List.filterMap_map]
  exact List.filterMap_congr fun source hsource => h.declaredName?_marked hsource

theorem ModulesApart.named_marked {texts : List (String × String)}
    (h : (ofTexts texts).ModulesApart) :
    ∀ source ∈ (ofTexts texts).marked.bundle.entries, (declaredName? source.2).isSome = true := by
  intro renamed hrenamed
  obtain ⟨source, hsource, rfl⟩ := List.mem_map.mp hrenamed
  rw [h.declaredName?_marked hsource, markedName?, Option.isSome_or, h.named source hsource,
    Bool.or_true]

theorem sameWord_classMark_append (m n : String) :
    sameWord (classMark ++ m) (classMark ++ n) = sameWord m n :=
  Qualify.sameWord_qualifiedName "z" m n

/-- Where the modules are apart, their names after marking differ exactly if no name that stays is
taken a second time by a class module that is marked. -/
theorem ModulesApart.namesDiffer_markedName?_iff {bundle : Bundle} (h : bundle.ModulesApart) :
    (∀ a ∈ bundle.entries, ∀ b ∈ bundle.entries, a ≠ b → NamesDiffer markedName? a b) ↔
      ∀ staying ∈ bundle.stayingNames, ∀ plain ∈ bundle.plainClassNames,
        sameWord staying (classMark ++ plain) = false := by
  constructor
  · intro hnames staying hstaying plain hplain
    obtain ⟨a, ha, hstays⟩ := List.mem_filterMap.mp hstaying
    obtain ⟨b, hb, hplain⟩ := List.mem_filterMap.mp hplain
    have hne : a ≠ b := by
      rintro rfl
      rw [(stayingName?_eq_some_iff.mp hstays).1] at hplain
      cases hplain
    exact hnames a ha b hb hne staying (markedName?_eq_some_iff.mpr (.inr hstays))
      (classMark ++ plain) (markedName?_eq_some_iff.mpr (.inl ⟨plain, hplain, rfl⟩))
  · intro hclash a ha b hb hne m hm n hn
    have hdiffer := pairwise_filterMap_entries_iff.mp h.distinct a ha b hb hne
    have hstays : ∀ {source name}, source ∈ bundle.entries →
        stayingName? source = some name → name ∈ bundle.stayingNames :=
      fun hsource hname => List.mem_filterMap.mpr ⟨_, hsource, hname⟩
    have hplain : ∀ {source name}, source ∈ bundle.entries →
        plainClassName? source = some name → name ∈ bundle.plainClassNames :=
      fun hsource hname => List.mem_filterMap.mpr ⟨_, hsource, hname⟩
    -- two marked names differ as they did before, and so do two names that stay
    rcases markedName?_eq_some_iff.mp hm with ⟨p, hp, rfl⟩ | hm
    · rcases markedName?_eq_some_iff.mp hn with ⟨q, hq, rfl⟩ | hn
      · rw [sameWord_classMark_append]
        exact hdiffer p (plainClassName?_eq_some_iff.mp hp).2.1
          q (plainClassName?_eq_some_iff.mp hq).2.1
      · rw [sameWord_comm]
        exact hclash n (hstays hb hn) p (hplain ha hp)
    · rcases markedName?_eq_some_iff.mp hn with ⟨q, hq, rfl⟩ | hn
      · exact hclash m (hstays ha hm) q (hplain hb hq)
      · exact hdiffer m (stayingName?_eq_some_iff.mp hm).2 n (stayingName?_eq_some_iff.mp hn).2

/-- **Renaming the class modules keeps modules with distinct names apart exactly if no module that
keeps its name has the new name of a class module**: none that is no class module or is marked
already is called `z_m`, in whatever letter case, for a class module `m` without the mark. -/
theorem modulesApart_rename_iff {texts : List (String × String)} {renamed : Renamed}
    (hapart : (ofTexts texts).ModulesApart)
    (hrename : (ofTexts texts).rename .empty true = .ok renamed) :
    renamed.bundle.ModulesApart ↔
      ∀ staying ∈ (ofTexts texts).stayingNames, ∀ plain ∈ (ofTexts texts).plainClassNames,
        sameWord staying (classMark ++ plain) = false := by
  obtain ⟨-, rfl⟩ := rename_eq_ok_iff.mp hrename
  rw [← hapart.namesDiffer_markedName?_iff, ← pairwise_filterMap_entries_iff,
    ← hapart.moduleNames_marked]
  exact ⟨fun h => h.distinct, fun h => ⟨hapart.named_marked, h⟩⟩

/-! ### Two bundles -/

theorem declaredName?_module (t : NamedText) : declaredName? t.module.tokens = some t.name :=
  declaredName?_namingLine_append t.name _

theorem plainClassName?_module (t : NamedText) :
    plainClassName? (t.origin, t.module.tokens) =
      if Origin.isClass t.origin && !hasClassMark t.name then some t.name else none := by
  rw [plainClassName?, declaredName?_module]
  cases Origin.isClass t.origin <;> cases h : hasClassMark t.name <;> simp [h]

section NamedTexts

variable {texts : List NamedText} (hreadable : texts.all NamedText.isReadable = true)
  (horigins : (texts.map NamedText.origin).Nodup)
include hreadable horigins

theorem filterMap_entries_ofNamedTexts (name? : String × List Token → Option String) :
    (ofNamedTexts texts).entries.filterMap name? =
      texts.filterMap fun t => name? (t.origin, t.module.tokens) := by
  rw [entries_ofNamedTexts hreadable horigins, List.filterMap_map]
  rfl

theorem modulesApart_ofNamedTexts
    (hdistinct : (texts.map NamedText.name).Pairwise fun m n => sameWord m n = false) :
    (ofNamedTexts texts).ModulesApart where
  named source hsource := by
    rw [entries_ofNamedTexts hreadable horigins] at hsource
    obtain ⟨t, -, rfl⟩ := List.mem_map.mp hsource
    rw [declaredName?_module, Option.isSome_some]
  distinct := by
    have hnames : (texts.filterMap fun t => declaredName? t.module.tokens) =
        texts.map NamedText.name := by
      rw [← List.filterMap_eq_map]
      exact List.filterMap_congr fun t _ => declaredName?_module t
    rwa [moduleNames, filterMap_entries_ofNamedTexts hreadable horigins, hnames]

theorem rename_ofNamedTexts
    (hshort : ∀ t ∈ texts, (classMark ++ t.name).length ≤ maxModuleName) :
    (ofNamedTexts texts).rename .empty true = .ok (ofNamedTexts texts).marked := by
  refine rename_eq_ok_iff.mpr ⟨fun source hsource e he => ?_, rfl⟩
  rw [entries_ofNamedTexts hreadable horigins] at hsource
  obtain ⟨t, ht, rfl⟩ := List.mem_map.mp hsource
  cases he with
  | missingName _ hnone =>
    rw [declaredName?_module] at hnone
    cases hnone
  | nameTooLong _ hname _ hlong =>
    rw [declaredName?_module, Option.some.injEq] at hname
    have hle := hshort t ht
    rw [hname] at hle
    omega

end NamedTexts

/-- Class modules with and without the mark, one of them with a capital that the mark does not have,
beside a standard module. -/
def capitalTexts : List NamedText :=
  [⟨"grid.cls", "Grid", ""⟩, ⟨"cell.cls", "Z_Grid", ""⟩, ⟨"row.cls", "z_Row", ""⟩,
    ⟨"main.bas", "Main", ""⟩]

/-- The module `Z_Grid` gets the mark too, so it gives way to the new name of `Grid`. -/
theorem modulesApart_rename_capitalTexts :
    (ofNamedTexts capitalTexts).ModulesApart ∧
      ∃ renamed, (ofNamedTexts capitalTexts).rename .empty true = .ok renamed ∧
        renamed.bundle.ModulesApart := by
  have hapart := @modulesApart_ofNamedTexts capitalTexts (by decide) (by decide) (by decide)
  have hrename := @rename_ofNamedTexts capitalTexts (by decide) (by decide) (by decide)
  refine ⟨hapart, _, hrename, (modulesApart_rename_iff hapart hrename).mpr ?_⟩
  have hstaying : (ofNamedTexts capitalTexts).stayingNames = ["z_Row", "Main"] := by
    rw [stayingNames, filterMap_entries_ofNamedTexts (by decide) (by decide)]
    simp only [stayingName?, plainClassName?_module, declaredName?_module]
    decide
  have hplain : (ofNamedTexts capitalTexts).plainClassNames = ["Grid", "Z_Grid"] := by
    rw [plainClassNames, filterMap_entries_ofNamedTexts (by decide) (by decide)]
    simp only [plainClassName?_module]
    decide
  change ∀ staying ∈ (ofNamedTexts capitalTexts).stayingNames,
    ∀ plain ∈ (ofNamedTexts capitalTexts).plainClassNames, _
  rw [hstaying, hplain]
  decide

/-- A class module that has the name which another one gets. -/
def clashTexts : List NamedText :=
  [⟨"grid.cls", "Grid", ""⟩, ⟨"old.cls", "z_Grid", ""⟩]

/-- **Two modules can have the same name after the renaming**, although their names were different.
-/
theorem moduleNames_clashTexts :
    (ofNamedTexts clashTexts).ModulesApart ∧
      ∃ renamed, (ofNamedTexts clashTexts).rename .empty true = .ok renamed ∧
        renamed.bundle.moduleNames = ["z_Grid", "z_Grid"] ∧ ¬renamed.bundle.ModulesApart := by
  have hapart := @modulesApart_ofNamedTexts clashTexts (by decide) (by decide) (by decide)
  have hrename := @rename_ofNamedTexts clashTexts (by decide) (by decide) (by decide)
  have hnames : (ofNamedTexts clashTexts).marked.bundle.moduleNames = ["z_Grid", "z_Grid"] := by
    refine hapart.moduleNames_marked.trans ?_
    change (ofNamedTexts clashTexts).entries.filterMap markedName? = _
    rw [filterMap_entries_ofNamedTexts (by decide) (by decide)]
    simp only [markedName?, plainClassName?_module, declaredName?_module]
    decide
  refine ⟨hapart, _, hrename, hnames, fun hmarked => ?_⟩
  have hdistinct := hmarked.distinct
  rw [hnames] at hdistinct
  revert hdistinct
  decide

end Bundle

end VbaModules
