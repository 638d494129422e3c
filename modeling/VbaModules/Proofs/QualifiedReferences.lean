import VbaModules.Proofs.FirstElements
import VbaModules.Proofs.FreeNames
import VbaModules.Proofs.OwnNames

/-!
# Which references are qualified

Qualifying the references of a module rewrites exactly the names that refer to another module
(`Refers`): no dot stands directly before the name, and the first standard module that exports it is
another one. Such a name becomes the name of that module, a dot and the symbol as it is first
defined there; all other tokens stay as they are (`qualify_exact`).

Class modules export nothing, so it does not matter where they stand among the modules of a bundle:
if they change their places, the same classes come out, each in the place of its module.
-/

namespace VbaModules

open Text

namespace Exports

/-! ### References to other modules -/

/-- The token `t` at a position of the module `m` **refers** to a symbol of another module: it is a
name, no dot stands directly before it, and the other module is the first standard module that
exports the name, compared by the lower-case form. The symbol is the first that this module defines
under the name. -/
structure Refers (modules : List NamedModule) (m : NamedModule) (i : Nat) (t : Token)
    (owner : NamedModule) (symbol : String) : Prop where
  isName : t.isName = true
  not_member : previous? m.tokens i ≠ some ⟨.unknown, "."⟩
  first_owner : IsFirst (fun o => o.isClass = false ∧
    ∃ s ∈ publicNames o.tokens, lower s = lower t.text) modules owner
  first_symbol : IsFirst (fun s => lower s = lower t.text) (publicNames owner.tokens) symbol
  origin_ne : owner.origin ≠ m.origin

theorem symbols_of_isClass_eq_false {m : NamedModule} (h : m.isClass = false) :
    symbols m = publicNames m.tokens := by
  rw [symbols, h, if_neg Bool.false_ne_true]

theorem any_symbols_iff {m : NamedModule} {key : String} :
    (symbols m).any (lower · == key) = true ↔
      m.isClass = false ∧ ∃ s ∈ publicNames m.tokens, lower s = key := by
  cases hclass : m.isClass with
  | true => simp [symbols, hclass]
  | false => simp [symbols, hclass]

theorem owner?_eq_some_iff {modules : List NamedModule} {name : String} {owner : NamedModule} :
    owner? modules name = some owner ↔
      IsFirst (fun o => o.isClass = false ∧ ∃ s ∈ publicNames o.tokens, lower s = lower name)
        modules owner := by
  rw [owner?, find?_eq_some_iff_isFirst]
  simp only [any_symbols_iff]

theorem offered?_eq_some_iff {key : String} {m : NamedModule} {e : Exported}
    (h : m.isClass = false) :
    offered? key m = some e ↔
      ∃ symbol, IsFirst (fun s => lower s = key) (publicNames m.tokens) symbol ∧
        e = ⟨m.name, m.origin, symbol⟩ := by
  rw [offered?, symbols_of_isClass_eq_false h, Option.map_eq_some_iff]
  simp only [find?_eq_some_iff_isFirst, beq_iff_eq, eq_comm (a := e)]

/-- **What a token refers to** is found among the exported symbols. -/
theorem target?_eq_some_iff {modules : List NamedModule} {m : NamedModule} {i : Nat} {t : Token}
    {e : Exported} :
    (collect modules).target? m.origin (previous? m.tokens i) t = some e ↔
      ∃ owner symbol, Refers modules m i t owner symbol ∧
        e = ⟨owner.name, owner.origin, symbol⟩ := by
  -- the table has the first symbol of the first module that offers the word
  have hfound : ∀ e, (collect modules).get? (lower t.text) = some e ↔
      ∃ owner, IsFirst (fun o => o.isClass = false ∧
          ∃ s ∈ publicNames o.tokens, lower s = lower t.text) modules owner ∧
        ∃ symbol, IsFirst (fun s => lower s = lower t.text) (publicNames owner.tokens) symbol ∧
          e = ⟨owner.name, owner.origin, symbol⟩ := by
    intro e
    rw [get?_collect_eq_some_iff]
    refine exists_congr fun owner => ?_
    rw [owner?_eq_some_iff]
    exact and_congr_right fun howner => offered?_eq_some_iff howner.prop.1
  constructor
  · intro h
    rw [target?] at h
    split at h
    next hcond =>
      rw [Bool.and_eq_true, Bool.not_eq_true', isMember_eq_false_iff] at hcond
      obtain ⟨hget, horigin⟩ := Option.filter_eq_some_iff.mp h
      obtain ⟨owner, howner, symbol, hsymbol, rfl⟩ := (hfound e).mp hget
      exact ⟨owner, symbol, ⟨hcond.1, hcond.2, howner, hsymbol, by simpa using horigin⟩, rfl⟩
    next => cases h
  · rintro ⟨owner, symbol, h, rfl⟩
    have hcond : (t.isName && !isMember (previous? m.tokens i)) = true := by
      rw [Bool.and_eq_true, Bool.not_eq_true', isMember_eq_false_iff]
      exact ⟨h.isName, h.not_member⟩
    rw [target?, if_pos hcond]
    refine Option.filter_eq_some_iff.mpr ⟨?_, by simpa using h.origin_ne⟩
    exact (hfound _).mpr ⟨owner, h.first_owner, symbol, h.first_symbol, rfl⟩

/-! ### Token by token -/

theorem length_qualify (exports : Exports) (origin : String) (tokens : List Token) :
    (exports.qualify origin tokens).length = tokens.length := by
  rw [qualify, List.length_map, withPrevious, List.length_zip, List.length_cons, List.length_map,
    Nat.min_eq_right (Nat.le_succ _)]

/-- A token that refers to an exported symbol becomes its qualified name. -/
theorem getElem?_qualify_of_target? {exports : Exports} {origin : String} {tokens : List Token}
    {i : Nat} {t : Token} {e : Exported} (ht : tokens[i]? = some t)
    (h : exports.target? origin (previous? tokens i) t = some e) :
    (exports.qualify origin tokens)[i]? = some { t with text := e.module ++ "." ++ e.name } := by
  rw [qualify, List.getElem?_map, getElem?_withPrevious ht, Option.map_some]
  simp only [h]

/-- What qualifying makes of the token `t` at a position of the module `m`: the token `u` of the
same kind. It is another one exactly if `t` **refers** to a symbol of another module, and then it is
the qualified name of this symbol. -/
structure QualifiesTo (modules : List NamedModule) (m : NamedModule) (i : Nat) (t u : Token) :
    Prop where
  kind_eq : u.kind = t.kind
  ne_iff : u ≠ t ↔ ∃ owner symbol, Refers modules m i t owner symbol
  text_eq : ∀ owner symbol, Refers modules m i t owner symbol →
    u.text = owner.name ++ "." ++ symbol

theorem exists_qualifiesTo {modules : List NamedModule} {m : NamedModule} {i : Nat} {t : Token}
    (ht : m.tokens[i]? = some t) :
    ∃ u, ((collect modules).qualify m.origin m.tokens)[i]? = some u ∧
      QualifiesTo modules m i t u := by
  cases htarget : (collect modules).target? m.origin (previous? m.tokens i) t with
  | none =>
    -- no target is found, so the token refers to nothing
    have hnot : ∀ owner symbol, ¬Refers modules m i t owner symbol := by
      intro owner symbol h
      rw [target?_eq_some_iff.mpr ⟨owner, symbol, h, rfl⟩] at htarget
      cases htarget
    refine ⟨t, (getElem?_qualify_eq_self_iff ht).mpr htarget, rfl, ?_, ?_⟩
    · refine iff_of_false (fun hne => hne rfl) ?_
      rintro ⟨owner, symbol, h⟩
      exact hnot owner symbol h
    · exact fun owner symbol h => absurd h (hnot owner symbol)
  | some e =>
    have hget := getElem?_qualify_of_target? ht htarget
    obtain ⟨owner, symbol, h, rfl⟩ := target?_eq_some_iff.mp htarget
    refine ⟨_, hget, rfl, iff_of_true (fun heq => ?_) ⟨owner, symbol, h⟩,
      fun owner' symbol' h' => ?_⟩
    · -- the qualified name is longer, so the token would have been left as it is
      rw [heq, getElem?_qualify_eq_self_iff ht, htarget] at hget
      cases hget
    · obtain rfl := h.first_owner.unique h'.first_owner
      rw [h.first_symbol.unique h'.first_symbol]

/-! ### Where class modules stand -/

/-- Class modules add nothing to the exported symbols. -/
theorem collect_filter (modules : List NamedModule) :
    collect (modules.filter fun m => !m.isClass) = collect modules := by
  rw [collect, collect, List.foldl_filter]
  congr 1
  funext exports m
  cases hclass : m.isClass with
  | true => simp [symbols, hclass]
  | false => simp

end Exports

namespace ShortName

/-- It matters only which names are taken, not in what order. -/
theorem shorten_congr {taken taken' : List String} (h : ∀ x, x ∈ taken ↔ x ∈ taken')
    (name : String) : shorten name taken = shorten name taken' := by
  cases hfits : fits name with
  | true => rw [shorten_of_fits hfits, shorten_of_fits hfits]
  | false =>
    have hfinds : ∀ {n short}, Finds name taken n short → Finds name taken' n short := by
      intro n short hsearch
      induction hsearch with
      | free hfree => exact .free fun hmem => hfree ((h _).mpr hmem)
      | next htaken _ ih => exact .next ((h _).mp htaken) ih
    exact (hfinds (finds_shorten hfits taken)).unique (finds_shorten hfits taken')

end ShortName

theorem convertAll_congr (exports : Exports) {taken taken' : List String}
    (h : ∀ x, x ∈ taken ↔ x ∈ taken') (modules : List NamedModule) :
    convertAll exports taken modules = convertAll exports taken' modules := by
  induction modules generalizing taken taken' with
  | nil => rfl
  | cons m rest ih =>
    have htake : ∀ name x, x ∈ ShortName.take name taken ↔ x ∈ ShortName.take name taken' := by
      intro name x
      rw [ShortName.mem_take, ShortName.mem_take, h]
    simp only [convertAll, ShortName.shorten_congr h, ih h, ih (htake _)]

/-- The classes of the class modules can be told apart from those made of standard modules. -/
theorem convertAll_perm (exports : Exports) (taken : List String) (modules : List NamedModule) :
    (convertAll exports taken modules).Perm
      ((modules.filter (·.isClass)).map (keepClass exports) ++
        convertAll exports taken (modules.filter fun m => !m.isClass)) := by
  induction modules generalizing taken with
  | nil => exact .refl _
  | cons m rest ih =>
    rw [convertAll]
    cases hclass : m.isClass with
    | true => simpa [hclass] using ih taken
    | false =>
      simp only [hclass, Bool.false_eq_true, if_false, List.filter_cons, Bool.not_false, if_true,
        convertAll]
      exact ((ih _).cons _).trans List.perm_middle.symm

/-- The class of a module is made of its qualified tokens. -/
theorem forall₂_convertAll (exports : Exports) (taken : List String) (modules : List NamedModule) :
    List.Forall₂ (fun m c => c = if m.isClass then keepClass exports m
        else convertModule exports c.className m) modules (convertAll exports taken modules) := by
  induction modules generalizing taken with
  | nil => exact .nil
  | cons m rest ih =>
    rw [convertAll]
    cases hclass : m.isClass with
    | true => exact .cons (by rw [hclass]; rfl) (ih taken)
    | false => exact .cons (by rw [hclass]; rfl) (ih _)

/-- If class modules change their places in a bundle, the exported symbols stay, and the same
classes come out in another order. -/
theorem convertBundle_of_perm {bundle other : Bundle} {classes : List ClassModule}
    (hconvert : convertBundle bundle = .ok classes) (hperm : other.entries.Perm bundle.entries)
    (hstandard : (other.entries.filter fun s => !Origin.isClass s.1) =
      bundle.entries.filter fun s => !Origin.isClass s.1) :
    Exports.collect other.modules = Exports.collect bundle.modules ∧
      ∃ classes', convertBundle other = .ok classes' ∧ classes'.Perm classes := by
  obtain ⟨hread, rfl⟩ := convertBundle_eq_ok_iff.mp hconvert
  obtain ⟨modules, hread', hmodules⟩ := List.perm_comp_forall₂ hperm hread
  obtain rfl : other.modules = modules := leadingModules_eq hread'
  -- a module is a class module by its origin, so the standard modules are those of the same sources
  have hfilter : ∀ {sources : List (String × List Token)} {ms : List NamedModule},
      List.Forall₂ (fun s m => NamedModule.read s.1 s.2 = .ok m) sources ms →
        leadingModules (sources.filter fun s => !Origin.isClass s.1) =
          ms.filter fun m => !m.isClass := by
    intro sources ms h
    refine leadingModules_eq (List.rel_filter (fun s m hm => ?_) h)
    obtain ⟨hsource, -⟩ := NamedModule.read_eq_ok_iff.mp hm
    have horigin : m.origin = s.1 := congrArg Prod.fst hsource
    change (!Origin.isClass s.1) = true ↔ (!Origin.isClass m.origin) = true
    rw [horigin]
  have hsame : (other.modules.filter fun m => !m.isClass) =
      bundle.modules.filter fun m => !m.isClass := by
    rw [← hfilter hread', hstandard, hfilter hread]
  have hcollect : Exports.collect other.modules = Exports.collect bundle.modules := by
    rw [← Exports.collect_filter, hsame, Exports.collect_filter]
  have hkept : ∀ x, x ∈ keptNames other.modules ↔ x ∈ keptNames bundle.modules := by
    intro x
    simp only [mem_keptNames, hmodules.mem_iff]
  refine ⟨hcollect, _, convertBundle_eq_ok_iff.mpr ⟨hread', rfl⟩, ?_⟩
  rw [hcollect]
  refine (convertAll_perm _ _ other.modules).trans (.trans ?_ (convertAll_perm _ _ _).symm)
  rw [hsame, convertAll_congr _ hkept]
  exact ((hmodules.filter _).map _).append_right _

namespace Exports

/-- **Qualifying references is exact.** In a bundle that can be converted, whose modules are read in
its order and become classes by qualifying their tokens, every module keeps the number of its tokens
and each token keeps its kind. A token is rewritten exactly if it refers to a symbol of another
module, and then to the name of this module, a dot and the symbol as it is first defined there. If
class modules change their places in the bundle, the modules are qualified in the same way, and the
same classes come out in another order. -/
theorem qualify_exact {bundle : Bundle} {classes : List ClassModule}
    (hconvert : convertBundle bundle = .ok classes) :
    List.Forall₂ (fun s m => NamedModule.read s.1 s.2 = .ok m) bundle.entries bundle.modules ∧
      List.Forall₂ (fun m c => c = if m.isClass then keepClass (collect bundle.modules) m
        else convertModule (collect bundle.modules) c.className m) bundle.modules classes ∧
      (∀ m ∈ bundle.modules,
        ((collect bundle.modules).qualify m.origin m.tokens).length = m.tokens.length ∧
          ∀ i t, m.tokens[i]? = some t →
            ∃ u, ((collect bundle.modules).qualify m.origin m.tokens)[i]? = some u ∧
              QualifiesTo bundle.modules m i t u) ∧
      ∀ other : Bundle, other.entries.Perm bundle.entries →
        ((other.entries.filter fun s => !Origin.isClass s.1) =
          bundle.entries.filter fun s => !Origin.isClass s.1) →
        (∀ m ∈ bundle.modules, (collect other.modules).qualify m.origin m.tokens =
          (collect bundle.modules).qualify m.origin m.tokens) ∧
        ∃ classes', convertBundle other = .ok classes' ∧ classes'.Perm classes := by
  obtain ⟨hread, hclasses⟩ := convertBundle_eq_ok_iff.mp hconvert
  refine ⟨hread, hclasses ▸ forall₂_convertAll _ _ _, fun m _ => ⟨length_qualify _ _ _, ?_⟩, ?_⟩
  · exact fun i t ht => exists_qualifiesTo ht
  · intro other hperm hstandard
    obtain ⟨hcollect, hsame⟩ := convertBundle_of_perm hconvert hperm hstandard
    exact ⟨fun m _ => by rw [hcollect], hsame⟩

/-! ### A class module that changes its place -/

/-- A class module without any code. -/
def cellText : NamedText :=
  ⟨"cell.cls", "Cell", ""⟩

/-- The modules of the two helpers with the class module after them. -/
theorem modules_helperTexts_append :
    (∃ classes, convertBundle (.ofNamedTexts (helperTexts ++ [cellText])) = .ok classes) ∧
      (Bundle.ofNamedTexts (helperTexts ++ [cellText])).modules =
        [stringsModule, reportModule, cellText.module] := by
  obtain ⟨hexists, hmodules⟩ := @exists_convertBundle_ofNamedTexts (helperTexts ++ [cellText])
    (by decide) (by decide)
  refine ⟨hexists, hmodules.trans ?_⟩
  rw [List.map_append, reading_helperTexts.1]
  rfl

/-- The private procedure of the second module is renamed as if the class module were not there, and
the class module may as well stand first. -/
theorem qualify_exact_helperTexts :
    ∃ classes, convertBundle (.ofNamedTexts (helperTexts ++ [cellText])) = .ok classes ∧
      QualifiesTo [stringsModule, reportModule, cellText.module] reportModule 14
        ⟨.name, "Helper"⟩ ⟨.name, "Strings.Helper"⟩ ∧
      ∃ classes', convertBundle (.ofNamedTexts (cellText :: helperTexts)) = .ok classes' ∧
        classes'.Perm classes := by
  obtain ⟨⟨classes, hconvert⟩, hmodules⟩ := modules_helperTexts_append
  obtain ⟨-, -, hexact, hreorder⟩ := qualify_exact hconvert
  rw [hmodules] at hexact
  refine ⟨classes, hconvert, ?_, ?_⟩
  · obtain ⟨u, hu, hqualifies⟩ := (hexact reportModule (by simp)).2 14 _ rfl
    have hcollect : collect [stringsModule, reportModule, cellText.module] =
        collect [stringsModule, reportModule] := by
      rw [← collect_filter, ← collect_filter [stringsModule, reportModule]]
      rfl
    obtain ⟨-, -, -, -, hread⟩ := reading_helperTexts
    rw [hcollect] at hu
    obtain rfl := Option.some.inj (hread.symm.trans hu)
    exact hqualifies
  · refine (hreorder (.ofNamedTexts (cellText :: helperTexts)) ?_ ?_).2
    · rw [Bundle.entries_ofNamedTexts (by decide) (by decide),
        Bundle.entries_ofNamedTexts (by decide) (by decide)]
      exact (List.perm_append_singleton cellText helperTexts).symm.map _
    · rw [Bundle.entries_ofNamedTexts (by decide) (by decide),
        Bundle.entries_ofNamedTexts (by decide) (by decide), List.filter_map, List.filter_map]
      rfl

end Exports

end VbaModules
