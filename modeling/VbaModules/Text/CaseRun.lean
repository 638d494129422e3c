/-!
# Runs of a case mapping

Most letters go to the other case by a shift that they share with their neighbours, so a case
mapping is written as a short list of runs.
-/

namespace VbaModules.Text

/-- A run of characters whose case mapping is one shift: every `step`-th character from `first`
to `last` goes to the character at the same distance from `target`. -/
structure CaseRun where
  first : Nat
  last : Nat
  step : Nat
  target : Nat

/-- The image of a character under a run, if the run holds it. -/
def CaseRun.map? (run : CaseRun) (c : Char) : Option Char :=
  let n := c.toNat
  if run.first ≤ n && n ≤ run.last && (n - run.first) % run.step == 0 then
    some (Char.ofNat (run.target + (n - run.first)))
  else
    none

end VbaModules.Text
