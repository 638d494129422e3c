import VbaModules.Conversion.Export
import VbaModules.Proofs.LetterCase
import VbaModules.Proofs.Lookup

/-!
# What a reference is qualified by

Looking up a name among the exported symbols finds what the first module offers that offers it
(`Exports.get?_collect`), compared by the lower-case form. Qualifying the references of a module
goes token by token: a token is left as it is exactly if it refers to no other module
(`Exports.getElem?_qualify_eq_self_iff`), since a qualified name is longer than the name.
-/

namespace VbaModules

open Text

namespace Exports

/-! ### Looking up an exported name -/

/-- What a module offers under a key: the first of its symbols with this lower-case form. -/
def offered? (key : String) (m : NamedModule) : Option Exported :=
  ((symbols m).find? (lower · == key)).map fun name => ⟨m.name, m.origin, name⟩

theorem get?_offer (m : NamedModule) (exports : Exports) (name key : String) :
    (offer m exports name).get? key =
      (exports.get? key).or
        (if lower name == key then some ⟨m.name, m.origin, name⟩ else none) := by
  rw [offer, Dictionary.contains]
  cases hold : exports.get? (lower name) with
  | some e =>
    rw [Option.isSome_some, if_pos rfl]
    by_cases hkey : lower name = key
    · rw [← hkey, hold, Option.some_or]
    · rw [if_neg (by simpa using hkey), Option.or_none]
  | none =>
    rw [Option.isSome_none, if_neg Bool.false_ne_true, Dictionary.get?_insert]
    by_cases hkey : lower name = key
    · rw [if_pos hkey.symm, ← hkey, hold, Option.none_or, if_pos (beq_self_eq_true _)]
    · rw [if_neg (Ne.symm hkey), if_neg (by simpa using hkey), Option.or_none]

theorem get?_foldl_offer (m : NamedModule) (exports : Exports) (names : List String)
    (key : String) :
    (names.foldl (offer m) exports).get? key =
      (exports.get? key).or ((names.find? (lower · == key)).map fun name =>
        ⟨m.name, m.origin, name⟩) := by
  induction names generalizing exports with
  | nil => simp
  | cons name names ih =>
    rw [List.foldl_cons, ih, get?_offer, Option.or_assoc, List.find?_cons]
    cases lower name == key <;> simp

/-- **The first module that offers a name keeps it.** -/
theorem get?_collect (modules : List NamedModule) (key : String) :
    (collect modules).get? key = modules.findSome? (offered? key) := by
  have hfold : ∀ exports : Exports,
      (modules.foldl (fun exports m => (symbols m).foldl (offer m) exports) exports).get? key =
        (exports.get? key).or (modules.findSome? (offered? key)) := by
    induction modules with
    | nil => simp
    | cons m modules ih =>
      intro exports
      rw [List.foldl_cons, ih, get?_foldl_offer, Option.or_assoc, List.findSome?_cons, offered?]
      cases (symbols m).find? (lower · == key) <;> simp
  exact (hfold .empty).trans (Option.none_or)

/-- The module that a name belongs to: the first that exports it. -/
def owner? (modules : List NamedModule) (name : String) : Option NamedModule :=
  modules.find? fun m => (symbols m).any (lower · == lower name)

theorem isSome_offered? (key : String) (m : NamedModule) :
    (offered? key m).isSome = (symbols m).any (lower · == key) := by
  rw [offered?, Option.isSome_map, List.isSome_find?]

theorem exists_offered?_of_owner? {modules : List NamedModule} {name : String} {m : NamedModule}
    (h : owner? modules name = some m) : ∃ e, offered? (lower name) m = some e := by
  have hexports := List.find?_some h
  rw [← Option.isSome_iff_exists, isSome_offered?]
  exact hexports

/-- A name is found among the exported symbols with its owner. -/
theorem get?_collect_eq_some_iff {modules : List NamedModule} {name : String} {e : Exported} :
    (collect modules).get? (lower name) = some e ↔
      ∃ m, owner? modules name = some m ∧ offered? (lower name) m = some e := by
  rw [get?_collect, owner?]
  simp only [← isSome_offered?]
  induction modules with
  | nil => simp
  | cons m modules ih =>
    rw [List.findSome?_cons, List.find?_cons]
    cases hm : offered? (lower name) m with
    | some e' => simp [hm]
    | none => simpa using ih

theorem lower_name_of_offered? {key : String} {m : NamedModule} {e : Exported}
    (h : offered? key m = some e) : e.origin = m.origin ∧ lower e.name = key := by
  obtain ⟨name, hname, rfl⟩ := Option.map_eq_some_iff.mp h
  exact ⟨rfl, by simpa using List.find?_some hname⟩

/-! ### Qualifying token by token -/

/-- The token before a position. -/
def previous? (tokens : List Token) : Nat → Option Token
  | 0 => none
  | i + 1 => tokens[i]?

theorem getElem?_withPrevious {tokens : List Token} {i : Nat} {t : Token}
    (h : tokens[i]? = some t) : (withPrevious tokens)[i]? = some (previous? tokens i, t) := by
  have hprevious : (none :: tokens.map some)[i]? = some (previous? tokens i) := by
    cases i with
    | zero => rfl
    | succ i =>
      have hlt : i < tokens.length :=
        Nat.lt_of_succ_lt (List.getElem?_eq_some_iff.mp h).1
      rw [List.getElem?_cons_succ, List.getElem?_map, previous?, List.getElem?_eq_getElem hlt,
        Option.map_some]
  rw [withPrevious, List.getElem?_zip_eq_some]
  exact ⟨hprevious, h⟩

/-- **A token is left as it is** exactly if it refers to no other module: the qualified name is
longer than every spelling of the name. -/
theorem getElem?_qualify_eq_self_iff {modules : List NamedModule} {origin : String}
    {tokens : List Token} {i : Nat} {t : Token} (h : tokens[i]? = some t) :
    ((collect modules).qualify origin tokens)[i]? = some t ↔
      (collect modules).target? origin (previous? tokens i) t = none := by
  rw [qualify, List.getElem?_map, getElem?_withPrevious h, Option.map_some, Option.some.injEq]
  constructor
  · intro heq
    by_contra hsome
    obtain ⟨e, he⟩ := Option.ne_none_iff_exists'.mp hsome
    simp only [he] at heq
    have htext : e.module ++ "." ++ e.name = t.text := congrArg Token.text heq
    have hfound : (collect modules).get? (lower t.text) = some e := by
      rw [target?] at he
      split at he
      · exact (Option.filter_eq_some_iff.mp he).1
      · cases he
    obtain ⟨m, -, hoffered⟩ := get?_collect_eq_some_iff.mp hfound
    have hlonger := length_lower_lt_append (s := e.module ++ ".") (by simp) e.name
    rw [(lower_name_of_offered? hoffered).2, htext] at hlonger
    exact Nat.lt_irrefl _ hlonger
  · intro hnone
    simp only [hnone]

theorem isMember_eq_false_iff {previous : Option Token} :
    isMember previous = false ↔ previous ≠ some ⟨.unknown, "."⟩ := by
  cases previous with
  | none => simp [isMember]
  | some t =>
    obtain ⟨kind, text⟩ := t
    simp [isMember]

/-- A name that is no member refers to its owner, unless that is the module itself. -/
theorem target?_collect_eq_none_iff {modules : List NamedModule} {origin : String}
    {previous : Option Token} {t : Token} (hname : t.isName = true)
    (hmember : isMember previous = false) :
    (collect modules).target? origin previous t = none ↔
      ∀ m, owner? modules t.text = some m → m.origin = origin := by
  rw [target?, hname, hmember, Bool.not_false, Bool.and_self, if_pos rfl, Option.filter_eq_none_iff]
  constructor
  · intro h m hm
    obtain ⟨e, he⟩ := exists_offered?_of_owner? hm
    have hsame := h e (get?_collect_eq_some_iff.mpr ⟨m, hm, he⟩)
    rw [← (lower_name_of_offered? he).1]
    simpa using hsame
  · intro h e he
    obtain ⟨m, hm, hoffered⟩ := get?_collect_eq_some_iff.mp he
    rw [(lower_name_of_offered? hoffered).1, h m hm]
    simp

end Exports

end VbaModules
