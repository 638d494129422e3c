/-!
# Notices

What the library has to say while it works, beside its results. A notice is a value like any other:
the operations that give notices have a companion that lists them in order.
-/

namespace VbaModules

/-- How much a notice matters. -/
inductive NoticeLevel where
  /-- Something in the modules is probably not as intended. -/
  | warning
  /-- A detail of what was done. -/
  | detail
deriving DecidableEq, Repr

/-- A remark on the modules or on what was done with them. -/
inductive Notice where
  /-- The conditional block opened at a token position is not closed. -/
  | unclosedConditional (position : Nat)
  /-- A module was prepared for merging. -/
  | prepared (origin module : String) (references sections : Nat)
  /-- Names of a module were renamed. -/
  | renamed (origin : String) (changed : Nat)
  /-- Two modules export the same name; the earlier one keeps it. -/
  | exportedTwice (name kept module : String)
  /-- References in a class module were qualified. -/
  | qualified (origin module : String) (references : Nat)
  /-- A standard module was converted to a class. -/
  | converted (origin module className : String) (references : Nat)
deriving DecidableEq, Repr

namespace Notice

/-- Warnings are about the modules, details about the work. -/
def level : Notice → NoticeLevel
  | unclosedConditional _ | exportedTwice .. => .warning
  | _ => .detail

/-- The wording of a notice. -/
def message : Notice → String
  | unclosedConditional position =>
    s!"unterminated #If starting at token {position} left unclassified"
  | prepared origin module references sections =>
    s!"{origin}: module {module}, {references} private references renamed, {sections} sections"
  | renamed origin changed => s!"{origin}: {changed} names renamed"
  | exportedTwice name kept module =>
    s!"{name} is public in both {kept} and {module}; keeping {kept}"
  | qualified origin module references =>
    s!"{origin}: class {module}, {references} references qualified"
  | converted origin module className references =>
    s!"{origin}: {module} -> {className}, {references} references qualified"

end Notice

end VbaModules
