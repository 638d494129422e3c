import VbaModules.Section.Basic

/-!
# Buckets

A merged module groups the sections of its sources in five buckets, which are written one after
the other.
-/

namespace VbaModules

/-- A group of sections in a merged module. -/
inductive Bucket where
  /-- Option statements, those of the first source only. -/
  | options
  /-- Declarations of external procedures. -/
  | declarations
  /-- Variables and constants of the module. -/
  | globals
  /-- Enumerations, types and stray code. -/
  | others
  /-- Procedures. -/
  | procedures
deriving DecidableEq, Repr

/-- The buckets in the order in which they are written. -/
def Bucket.all : List Bucket :=
  [.options, .declarations, .globals, .others, .procedures]

/-- The bucket for sections of a kind. Attribute lines are for no bucket: the merged module gets a
header of its own. -/
def Bucket.ofKind? : Section.Kind → Option Bucket
  | .attributeLine => none
  | .optionLine => some options
  | .declaration => some declarations
  | .global => some globals
  | .procedure => some procedures
  | .enumeration | .userType | .conditional | .unknown => some others

end VbaModules
