import VbaModules.Bundle
import VbaModules.Merge.Bucket
import VbaModules.Merge.OptionStatement
import VbaModules.Qualify
import VbaModules.Section.Proxy

/-!
# Assembling a merged module

Every source is prepared on its own: its private names are qualified, it is cut into sections, and
its conditional blocks are given the kind they stand for. If the sources agree on their options,
the sections go to the buckets, source by source. Code of unknown kind goes with the section after
it.
-/

namespace VbaModules

/-! ### Errors -/

/-- Why modules cannot be merged. -/
inductive AssemblyError where
  /-- A source does not give its name. -/
  | missingName (e : MissingModuleName)
  /-- A source has other option statements than the first one. -/
  | optionConflict (firstOrigin : String) (first : List String) (origin : String)
      (options : List String)
  /-- There is nothing to merge. -/
  | noSources
deriving DecidableEq, Repr

/-- The option statements of a source, one on a line. -/
def optionListing (origin : String) (options : List String) : String :=
  "  " ++ origin ++ ":\n" ++ "\n".intercalate (options.map ("    " ++ ·))

/-- The wording of the error. -/
def AssemblyError.message : AssemblyError → String
  | missingName e => e.message
  | optionConflict firstOrigin first origin options =>
    "Options must be equal across aggregated bas files, got conflict:\n" ++
      optionListing firstOrigin first ++ "\n" ++ optionListing origin options
  | noSources => "no source modules to merge"

/-! ### Preparing a source -/

/-- A source that is ready for merging. -/
structure Prepared where
  origin : String
  /-- The name of the module. -/
  name : String
  /-- How many private names were qualified. -/
  qualified : Nat
  sections : List Section
deriving DecidableEq, Repr

/-- The sections of a module before its conditional blocks are resolved. -/
def qualifiedSections (origin name : String) (tokens : List Token) : List Section :=
  Partition.sectionsOf origin (Qualify.qualify name tokens)

/-- Prepares a source for merging. -/
def prepare (origin : String) (tokens : List Token) : Except MissingModuleName Prepared :=
  (declaredName origin tokens).map fun name =>
    { origin, name
      qualified := Qualify.countQualified name tokens
      sections := (qualifiedSections origin name tokens).map Proxy.resolve }

/-- What there is to say about preparing a source with the given name. -/
def prepareNotices (origin : String) (tokens : List Token) (p : Prepared) : List Notice :=
  Partition.notices (Qualify.qualify p.name tokens) ++
    (qualifiedSections origin p.name tokens).flatMap Proxy.resolveNotices ++
    [.prepared origin p.name p.qualified p.sections.length]

/-! ### Filling the buckets -/

/-- Puts the tokens `carry`, then those of each section of unknown kind, in front of the section
after it. At the end there is no such section, and one of unknown kind stays. -/
def attachUnknown (carry : List Token) : List Section → List Section
  | [] => []
  | [s] => [{ s with tokens := carry ++ s.tokens }]
  | s :: rest =>
    if s.kind = .unknown then attachUnknown (carry ++ s.tokens) rest
    else { s with tokens := carry ++ s.tokens } :: attachUnknown [] rest

/-- The sections that a source puts in a bucket. -/
def Prepared.contribution (p : Prepared) (bucket : Bucket) : List Section :=
  (attachUnknown [] p.sections).filter (Bucket.ofKind? ·.kind == some bucket)

/-- The sections in a bucket: those of all sources in order, but only the options of the first. -/
def bucketSections (first : Prepared) (rest : List Prepared) (bucket : Bucket) : List Section :=
  first.contribution bucket ++
    if bucket = .options then [] else rest.flatMap (·.contribution bucket)

/-! ### The merged module -/

/-- Sections in buckets, ready to be written. -/
structure Assembly where
  /-- The name of the merged module. -/
  name : String
  /-- The names of the sources by origin. -/
  moduleNames : Dictionary String
  buckets : List (Bucket × List Section)

namespace Assembly

/-- The name of the source with the given origin, or the origin itself if it is not known. -/
def sourceName (m : Assembly) (origin : String) : String :=
  (m.moduleNames.get? origin).getD origin

/-- All sections with their buckets, in the order in which they are written. -/
def sections (m : Assembly) : List (Bucket × Section) :=
  m.buckets.flatMap fun (bucket, sections) => sections.map (bucket, ·)

/-! ### Assembling -/

/-- The first source whose option statements are not the given ones. -/
def conflicting? (options : List String) (rest : List Prepared) : Option Prepared :=
  rest.find? fun p => OptionStatement.ofSections p.sections != options

/-- The module merged from prepared sources, under the given name or that of the first source. -/
def ofPrepared (name? : Option String) : List Prepared → Except AssemblyError Assembly
  | [] => .error .noSources
  | first :: rest =>
    let options := OptionStatement.ofSections first.sections
    match conflicting? options rest with
    | some p =>
      let others := OptionStatement.ofSections p.sections
      .error (.optionConflict first.origin options p.origin others)
    | none => .ok {
        name := name?.getD first.name
        moduleNames := .ofList ((first :: rest).map fun p => (p.origin, p.name))
        buckets := Bucket.all.map fun bucket => (bucket, bucketSections first rest bucket) }

/-- The module merged from a bundle, under the given name or that of its first module. -/
def ofBundle (bundle : Bundle) (name? : Option String) : Except AssemblyError Assembly := do
  let sources ← (bundle.entries.mapM fun (origin, tokens) => prepare origin tokens).mapError
    .missingName
  ofPrepared name? sources

/-- What there is to say about the sources, up to the first that does not give its name. -/
def notices : List (String × List Token) → List Notice
  | [] => []
  | (origin, tokens) :: rest =>
    match prepare origin tokens with
    | .error _ => []
    | .ok p => prepareNotices origin tokens p ++ notices rest

end Assembly

end VbaModules
