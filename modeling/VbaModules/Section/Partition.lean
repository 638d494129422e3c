import VbaModules.Notice
import VbaModules.Section.Candidate

/-!
# The partition of a module into sections

Candidates that share a token become one section of the kind of the earliest among them, and what
no candidate claims becomes sections of unknown kind. The sections cover the tokens exactly once
and in order.
-/

namespace VbaModules.Partition

/-- The order of spans by where they start, then by where they stop. -/
def precedes (a b : Span) : Bool :=
  a.start < b.start || (a.start == b.start && a.stop ≤ b.stop)

/-- Extends `current` by the spans that reach into it, and goes on from the first one that does
not. -/
def absorb (current : Span) : List Span → List Span
  | [] => [current]
  | s :: rest =>
    if s.start < current.stop then absorb { current with stop := max current.stop s.stop } rest
    else current :: absorb s rest

/-- The spans in order, with every one that overlaps an earlier one made part of it. Among spans
at the same place the one given first decides the kind. -/
def unite (spans : List Span) : List Span :=
  match spans.mergeSort precedes with
  | [] => []
  | s :: rest => absorb s rest

/-- The stretch from `start` to `stop` as a span of unknown kind, unless it is empty. -/
def gap (start stop : Nat) : List Span :=
  if start < stop then [⟨start, stop, .unknown⟩] else []

/-- The spans with the gaps before, between and after them filled, from `position` to `length`. -/
def coverFrom (position length : Nat) : List Span → List Span
  | [] => gap position length
  | s :: rest => gap position s.start ++ s :: coverFrom s.stop length rest

/-- The spans of the sections of a module. -/
def spans (tokens : List Token) : List Span :=
  coverFrom 0 tokens.length (unite (Candidate.all tokens))

/-- The sections of a module. -/
def sections (tokens : List Token) : List Section :=
  (spans tokens).map fun s => .ofTokens (Token.slice tokens s.start s.stop) s.kind

/-- The sections of the module with the given origin. -/
def sectionsOf (origin : String) (tokens : List Token) : List Section :=
  (sections tokens).map fun s => { s with origin := some origin }

/-- What there is to say about the partition of a module. -/
def notices (tokens : List Token) : List Notice :=
  (Candidate.unclosedConditional? tokens).toList.map .unclosedConditional

theorem length_tokens_le {tokens : List Token} {s : Section} (h : s ∈ sections tokens) :
    s.tokens.length ≤ tokens.length := by
  obtain ⟨span, _, rfl⟩ := List.mem_map.mp h
  simp only [Section.ofTokens, Token.slice, List.length_drop, List.length_take]
  omega

end VbaModules.Partition
