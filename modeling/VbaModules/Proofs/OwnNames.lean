import VbaModules.Proofs.Converting

/-!
# A module's own names

The names that a module defines and the name that it gives itself are its own. Qualifying references
does not ask whose a name is: it leaves a module's own name alone exactly if no other module is the
first to export that name (`ownNames_stay_iff`). Otherwise even the definition is qualified, which
one pair of modules shows (`qualify_helperTexts`).

For the definition to be qualified, it must not look like a member of an object. It never does,
since what stands before the name in a definition is a keyword, a quote, a comma or a blank.
-/

namespace VbaModules

open Token Text Exports

/-! ### Where a module's own names stand -/

/-- The names that are a module's own: those it defines for others and for itself, and the name that
it gives itself. -/
def NamedModule.ownNames (m : NamedModule) : List String :=
  publicNames m.tokens ++ privateNames m.tokens ++ [m.name]

theorem exists_position_of_mem_ownNames {m : NamedModule}
    (hname : declaredName? m.tokens = some m.name) {s : String} (hs : s ∈ m.ownNames) :
    ∃ i, nameAt? m.tokens i = some s ∧ isMember (previous? m.tokens i) = false := by
  simp only [isMember_eq_false_iff]
  rw [NamedModule.ownNames, List.mem_append, List.mem_append, List.mem_singleton] at hs
  rcases hs with (hpublic | hprivate) | rfl
  · obtain ⟨i, hi, hget⟩ := mem_namesAt_iff.mp hpublic
    exact ⟨i, hget, previous?_ne_of_mem_lastPositions rfl (by decide) hi⟩
  · obtain ⟨i, hi, hget⟩ := exists_position_of_mem_privateNames hprivate
    exact ⟨i, nameAt?_eq_some_iff.mpr hget,
      previous?_ne_of_mem_privatePositions rfl (by decide) (by decide) hi⟩
  · obtain ⟨line, hline, hget⟩ := List.exists_of_findSome?_eq_some hname
    exact ⟨line.stop - 1, hget,
      (Pattern.isMatch_of_mem_matchesFrom hline).previous?_ne rfl (by decide)⟩

/-! ### When a module's own names stay -/

/-- No two modules of a bundle have the same origin. -/
theorem Bundle.eq_of_origin_eq {bundle : Bundle} {classes : List ClassModule}
    (h : convertBundle bundle = .ok classes) {m m' : NamedModule} (hm : m ∈ bundle.modules)
    (hm' : m' ∈ bundle.modules) (horigin : m.origin = m'.origin) : m = m' := by
  obtain ⟨hentry, hname⟩ := (mem_modules_iff h).mp hm
  obtain ⟨hentry', hname'⟩ := (mem_modules_iff h).mp hm'
  rw [← Dictionary.get?_eq_some_iff, horigin] at hentry
  rw [← Dictionary.get?_eq_some_iff, hentry, Option.some.injEq] at hentry'
  rw [hentry', hname', Option.some.injEq] at hname
  obtain ⟨origin, name, tokens⟩ := m
  obtain ⟨origin', name', tokens'⟩ := m'
  simp only at horigin hname hentry'
  rw [horigin, hname, hentry']

/-- **A module's own names stay as they are** exactly if no other module is the first to export
them. In a bundle that can be converted, let `s` be a name that the module `m` defines or gives
itself. Every token of `m` that is `s` in some spelling is left as it is, if and only if either no
module exports `s` or the first that does is `m`. -/
theorem ownNames_stay_iff {bundle : Bundle} {classes : List ClassModule}
    (hconvert : convertBundle bundle = .ok classes) {m : NamedModule}
    (hentry : (m.origin, m.tokens) ∈ bundle.entries)
    (hname : declaredName? m.tokens = some m.name) {s : String} (hs : s ∈ m.ownNames) :
    (∀ (i : Nat) (t : Token), m.tokens[i]? = some t → t.isName = true → sameWord t.text s = true →
        ((collect bundle.modules).qualify m.origin m.tokens)[i]? = some t) ↔
      ∀ first, owner? bundle.modules s = some first → first = m := by
  have hm : m ∈ bundle.modules := (Bundle.mem_modules_iff hconvert).mpr ⟨hentry, hname⟩
  constructor
  · intro hstay first hfirst
    -- the definition of the name is a token that could be qualified
    obtain ⟨i, hi, hmember⟩ := exists_position_of_mem_ownNames hname hs
    obtain ⟨t, ht, hisName, rfl⟩ := nameAt?_eq_some_iff.mp hi
    have hself := hstay i t ht hisName (sameWord_iff.mpr rfl)
    rw [getElem?_qualify_eq_self_iff ht, target?_collect_eq_none_iff hisName hmember] at hself
    exact Bundle.eq_of_origin_eq hconvert (List.mem_of_find?_eq_some hfirst) hm
      (hself first hfirst)
  · intro howner i t ht hisName hsame
    rw [getElem?_qualify_eq_self_iff ht]
    cases hmember : isMember (previous? m.tokens i) with
    | true => rw [target?, hmember, Bool.not_true, Bool.and_false, if_neg Bool.false_ne_true]
    | false =>
      rw [target?_collect_eq_none_iff hisName hmember]
      intro first hfirst
      rw [owner?, lower_eq_of_sameWord hsame] at hfirst
      rw [howner first hfirst]

/-! ### Two modules with a helper each -/

/-- A module with a procedure for others, and one with a private procedure of the same name. -/
def helperTexts : List NamedText :=
  [⟨"strings.bas", "Strings", "Sub Helper()\nEnd Sub\n"⟩,
    ⟨"report.bas", "Report", "Private Sub Helper()\nEnd Sub\n"⟩]

/-- The tokens of a procedure without parameters and statements. -/
def emptyProcedure (name : String) : List Token :=
  [⟨.reserved, "Sub"⟩, ⟨.blank, " "⟩, ⟨.name, name⟩, ⟨.unknown, "("⟩, ⟨.unknown, ")"⟩,
    ⟨.lineBreak, "\n"⟩, ⟨.reserved, "End"⟩, ⟨.blank, " "⟩, ⟨.reserved, "Sub"⟩, ⟨.lineBreak, "\n"⟩]

/-- The module of the procedure for others. -/
def stringsModule : NamedModule :=
  ⟨"strings.bas", "Strings", namingLine "Strings" ++ emptyProcedure "Helper"⟩

/-- The module of the private procedure. -/
def reportModule : NamedModule :=
  ⟨"report.bas", "Report",
    namingLine "Report" ++ [⟨.reserved, "Private"⟩, ⟨.blank, " "⟩] ++ emptyProcedure "Helper"⟩

/-- What is read of the two modules: their tokens, that both define the name, that the first one
owns it, and how the second one's definition is qualified. -/
theorem reading_helperTexts :
    helperTexts.map NamedText.module = [stringsModule, reportModule] ∧
      "Helper" ∈ stringsModule.ownNames ∧ "Helper" ∈ privateNames reportModule.tokens ∧
      owner? [stringsModule, reportModule] "Helper" = some stringsModule ∧
      ((collect [stringsModule, reportModule]).qualify "report.bas" reportModule.tokens)[14]? =
        some ⟨.name, "Strings.Helper"⟩ := by
  decide +kernel

/-- Both modules can be converted. -/
theorem exists_convertBundle_helperTexts :
    (∃ classes, convertBundle (.ofNamedTexts helperTexts) = .ok classes) ∧
      (Bundle.ofNamedTexts helperTexts).modules = [stringsModule, reportModule] := by
  rw [← reading_helperTexts.1]
  exact exists_convertBundle_ofNamedTexts (by decide) (by decide)

/-- The module that is the first to export the name keeps it as it is. -/
theorem helper_stays_in_stringsModule :
    (∃ classes, convertBundle (.ofNamedTexts helperTexts) = .ok classes) ∧
      "Helper" ∈ stringsModule.ownNames ∧
      ∀ (i : Nat) (t : Token), stringsModule.tokens[i]? = some t → t.isName = true →
        sameWord t.text "Helper" = true →
        ((collect (Bundle.ofNamedTexts helperTexts).modules).qualify "strings.bas"
          stringsModule.tokens)[i]? = some t := by
  obtain ⟨⟨classes, hconvert⟩, hmodules⟩ := exists_convertBundle_helperTexts
  have hmem : stringsModule ∈ (Bundle.ofNamedTexts helperTexts).modules := by
    rw [hmodules]
    exact List.mem_cons_self
  obtain ⟨hentry, hname⟩ := (Bundle.mem_modules_iff hconvert).mp hmem
  obtain ⟨-, hown, -, howner, -⟩ := reading_helperTexts
  refine ⟨⟨classes, hconvert⟩, hown, (ownNames_stay_iff hconvert hentry hname hown).mpr ?_⟩
  rw [hmodules, howner]
  rintro first ⟨⟩
  rfl

/-- **A module's own name can be rewritten**: the private procedure of the second module is defined
under a qualified name after the conversion. -/
theorem qualify_helperTexts :
    ∃ classes, convertBundle (.ofNamedTexts helperTexts) = .ok classes ∧
      reportModule ∈ (Bundle.ofNamedTexts helperTexts).modules ∧
      "Helper" ∈ privateNames reportModule.tokens ∧
      reportModule.tokens[14]? = some ⟨.name, "Helper"⟩ ∧
      ((collect (Bundle.ofNamedTexts helperTexts).modules).qualify "report.bas"
        reportModule.tokens)[14]? = some ⟨.name, "Strings.Helper"⟩ := by
  obtain ⟨⟨classes, hconvert⟩, hmodules⟩ := exists_convertBundle_helperTexts
  obtain ⟨-, -, hprivate, -, hqualified⟩ := reading_helperTexts
  rw [hmodules]
  exact ⟨classes, hconvert, by simp, hprivate, rfl, hqualified⟩

end VbaModules
