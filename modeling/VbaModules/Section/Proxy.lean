import VbaModules.Section.Partition

/-!
# What a conditional block stands for

A conditional block wraps declarations that belong with others of their kind, so it stands for the
first construct within it. A block around two alternative `Declare` lines stands for a
declaration; a block within the block stands for what it wraps in turn.
-/

namespace VbaModules.Proxy

/-- The tokens after the line of the opening directive. -/
def afterFirstLine (tokens : List Token) : List Token :=
  tokens.drop (Token.lineEnd tokens 0)

/-- The first section after the line of the opening directive that is of some known kind. -/
def firstConstruct? (tokens : List Token) : Option Section :=
  (Partition.sections (afterFirstLine tokens)).find? (·.kind != .unknown)

theorem length_afterFirstLine_lt (t : Token) (ts : List Token) :
    (afterFirstLine (t :: ts)).length < (t :: ts).length := by
  have hpos : 0 < Token.lineEnd (t :: ts) 0 := by
    unfold Token.lineEnd
    split <;> simp
  simp only [afterFirstLine, List.length_drop, List.length_cons]
  omega

theorem length_firstConstruct?_lt {t : Token} {ts : List Token} {s : Section}
    (h : firstConstruct? (t :: ts) = some s) : s.tokens.length < (t :: ts).length :=
  Nat.lt_of_le_of_lt (Partition.length_tokens_le (List.mem_of_find?_eq_some h))
    (length_afterFirstLine_lt t ts)

/-- The kind a conditional block stands for, if there is any construct in it. -/
def kind? : List Token → Option Section.Kind
  | [] => none
  | t :: ts =>
    match _h : firstConstruct? (t :: ts) with
    | none => none
    | some s => some (if s.kind = .conditional then (kind? s.tokens).getD .conditional else s.kind)
termination_by tokens => tokens.length
decreasing_by exact length_firstConstruct?_lt _h

/-- What there is to say about the partitions that `kind?` looks at. -/
def notices : List Token → List Notice
  | [] => []
  | t :: ts =>
    Partition.notices (afterFirstLine (t :: ts)) ++
      match _h : firstConstruct? (t :: ts) with
      | none => []
      | some s => if s.kind = .conditional then notices s.tokens else []
termination_by tokens => tokens.length
decreasing_by exact length_firstConstruct?_lt _h

/-- A section with its kind replaced by the one it stands for. -/
def resolve (s : Section) : Section :=
  if s.kind = .conditional then { s with kind := (kind? s.tokens).getD .conditional } else s

/-- What there is to say about resolving a section. -/
def resolveNotices (s : Section) : List Notice :=
  if s.kind = .conditional then notices s.tokens else []

end VbaModules.Proxy
