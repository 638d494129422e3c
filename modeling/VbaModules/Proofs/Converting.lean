import VbaModules.Conversion.NameSpace
import VbaModules.Proofs.Assembling
import VbaModules.Proofs.NamingLines
import VbaModules.Proofs.ShortNames

/-!
# What a successful conversion consists of

Converting a bundle to classes succeeds exactly when every module gives its name. The classes are
then made one by one from the modules with their names (`convertBundle_eq_ok_iff`), and these are
the modules of the bundle in its order (`Bundle.mem_modules_iff`). Modules that begin with a naming
line can always be converted (`exists_convertBundle_ofNamedTexts`).
-/

namespace VbaModules

/-- The modules of a bundle with their names, up to the first that does not give its name. -/
def Bundle.modules (bundle : Bundle) : List NamedModule :=
  leadingModules bundle.entries

/-- The names that are taken before any is generated: those of the class modules. -/
def keptNames (modules : List NamedModule) : List String :=
  ((modules.filter (·.isClass)).map (·.name)).foldl (fun taken name => ShortName.take name taken) []

theorem NamedModule.read_eq_ok_iff {origin : String} {tokens : List Token} {m : NamedModule} :
    read origin tokens = .ok m ↔
      (m.origin, m.tokens) = (origin, tokens) ∧ declaredName? m.tokens = some m.name := by
  rw [read, declaredName]
  constructor
  · intro h
    cases hname : declaredName? tokens with
    | none => simp [hname, Except.map] at h
    | some name =>
      simp only [hname, Except.map, Except.ok.injEq] at h
      subst h
      exact ⟨rfl, hname⟩
  · rintro ⟨heq, hname⟩
    obtain ⟨rfl, rfl⟩ := Prod.mk.inj heq
    rw [hname]
    rfl

/-- If every module gives its name, the modules with their names are all modules. -/
theorem leadingModules_eq {entries : List (String × List Token)} {modules : List NamedModule}
    (h : List.Forall₂ (fun e m => NamedModule.read e.1 e.2 = .ok m) entries modules) :
    leadingModules entries = modules := by
  induction h with
  | nil => rfl
  | cons hread _ ih => rw [leadingModules, hread, ih]

/-- **What a successful conversion consists of.** -/
theorem convertBundle_eq_ok_iff {bundle : Bundle} {classes : List ClassModule} :
    convertBundle bundle = .ok classes ↔
      List.Forall₂ (fun e m => NamedModule.read e.1 e.2 = .ok m) bundle.entries bundle.modules ∧
        classes = convertAll (.collect bundle.modules) (keptNames bundle.modules)
          bundle.modules := by
  rw [← mapM_eq_ok_iff_forall₂]
  constructor
  · intro h
    cases hread : bundle.entries.mapM fun e => NamedModule.read e.1 e.2 with
    | error e => simp [convertBundle, hread, bind, Except.bind] at h
    | ok modules =>
      have hmodules : bundle.modules = modules :=
        leadingModules_eq (mapM_eq_ok_iff_forall₂.mp hread)
      simp only [convertBundle, hread, bind, Except.bind, pure, Except.pure,
        Except.ok.injEq] at h
      exact ⟨by rw [hmodules], by rw [hmodules, ← h]; rfl⟩
  · rintro ⟨hread, rfl⟩
    simp only [convertBundle, hread, bind, Except.bind, pure, Except.pure]
    rfl

/-- The modules of a bundle that can be converted: the tokens under each origin, with the name they
give. -/
theorem Bundle.mem_modules_iff {bundle : Bundle} {classes : List ClassModule}
    (h : convertBundle bundle = .ok classes) {m : NamedModule} :
    m ∈ bundle.modules ↔
      (m.origin, m.tokens) ∈ bundle.entries ∧ declaredName? m.tokens = some m.name := by
  obtain ⟨hread, -⟩ := convertBundle_eq_ok_iff.mp h
  generalize bundle.modules = modules at hread
  generalize bundle.entries = entries at hread
  induction hread with
  | nil => simp
  | @cons e m' entries modules he _ ih =>
    obtain ⟨horigin, hname⟩ := NamedModule.read_eq_ok_iff.mp he
    rw [List.mem_cons, List.mem_cons, ih, or_and_right]
    refine or_congr_left ⟨?_, ?_⟩
    · rintro rfl
      exact ⟨horigin, hname⟩
    · rintro ⟨heq, hname'⟩
      obtain ⟨horigin', htokens⟩ := Prod.mk.inj (heq.trans horigin.symm)
      rw [htokens, hname, Option.some.injEq] at hname'
      cases m
      cases m'
      simp_all

theorem mem_keptNames {modules : List NamedModule} {x : String} :
    x ∈ keptNames modules ↔ ∃ m ∈ modules, m.isClass = true ∧ m.name = x := by
  have hfold : ∀ names taken : List String,
      x ∈ names.foldl (fun taken name => ShortName.take name taken) taken ↔
        x ∈ taken ∨ x ∈ names := by
    intro names
    induction names with
    | nil => simp
    | cons name names ih =>
      intro taken
      rw [List.foldl_cons, ih, ShortName.mem_take, List.mem_cons, or_comm (a := x = name),
        or_assoc]
  rw [keptNames, hfold]
  simp [and_assoc]

/-! ### Modules that begin with their names -/

/-- The text of a module that begins with its naming line, and where it comes from. -/
structure NamedText where
  origin : String
  name : String
  body : String

namespace NamedText

/-- The module that the text is read as. -/
def module (t : NamedText) : NamedModule :=
  ⟨t.origin, t.name, namingLine t.name ++ Lexer.lex t.body⟩

/-- Whether the naming line is read apart from what follows it. -/
def isReadable (t : NamedText) : Bool :=
  isQuotable t.name && t.body.toList.head? != some '\uFEFF'

end NamedText

/-- The bundle of modules that begin with their naming lines. -/
def Bundle.ofNamedTexts (texts : List NamedText) : Bundle :=
  Bundle.ofTexts (texts.map fun t => (t.origin, namingText t.name ++ t.body))

theorem Bundle.entries_ofNamedTexts {texts : List NamedText}
    (hreadable : texts.all NamedText.isReadable = true)
    (hdistinct : (texts.map NamedText.origin).Nodup) :
    (Bundle.ofNamedTexts texts).entries = texts.map fun t => (t.origin, t.module.tokens) := by
  have hlex : ∀ t ∈ texts, Lexer.lex (namingText t.name ++ t.body) = t.module.tokens := by
    intro t ht
    have hparts := List.all_eq_true.mp hreadable t ht
    rw [NamedText.isReadable, Bool.and_eq_true, bne_iff_ne] at hparts
    exact Lexer.lex_namingText_append hparts.1 hparts.2
  refine Bundle.entries_ofTexts ?_ (by rwa [List.map_map])
  rw [List.map_map]
  exact List.map_congr_left fun t ht => congrArg (Prod.mk t.origin) (hlex t ht)

theorem exists_convertBundle_ofNamedTexts {texts : List NamedText}
    (hreadable : texts.all NamedText.isReadable = true)
    (hdistinct : (texts.map NamedText.origin).Nodup) :
    (∃ classes, convertBundle (.ofNamedTexts texts) = .ok classes) ∧
      (Bundle.ofNamedTexts texts).modules = texts.map NamedText.module := by
  have hread : List.Forall₂ (fun e m => NamedModule.read e.1 e.2 = .ok m)
      (Bundle.ofNamedTexts texts).entries (texts.map NamedText.module) := by
    rw [Bundle.entries_ofNamedTexts hreadable hdistinct, List.forall₂_map_left_iff,
      List.forall₂_map_right_iff, List.forall₂_same]
    intro t _
    exact NamedModule.read_eq_ok_iff.mpr ⟨rfl, declaredName?_namingLine_append _ _⟩
  have hmodules := leadingModules_eq hread
  rw [← hmodules] at hread
  exact ⟨⟨_, convertBundle_eq_ok_iff.mpr ⟨hread, rfl⟩⟩, hmodules⟩

end VbaModules
