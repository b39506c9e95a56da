/-!
The answers of the site exclusion test: which of two sites can be dropped, and whether the test
was decided outright or by a tie that a perturbation has to break.
-/

namespace ExactSphere

/-- Which of two sites is never the closest one within range of an edge. -/
inductive Exclusion where
  | first
  | second
  | neither
  deriving DecidableEq, Inhabited

/-- The name of an exclusion in fault reports. -/
def Exclusion.label : Exclusion → String
  | .first => "First"
  | .second => "Second"
  | .neither => "Neither"

/-- How the intervals that two sites cover on the circle of an edge lie to each other. -/
inductive Containment where
  /-- The exclusion holds whatever the perturbation. -/
  | settled (excluded : Exclusion)
  /-- The intervals share an endpoint; the site is excluded if its interval shrinks. -/
  | touching (candidate : Exclusion)
  deriving DecidableEq, Inhabited

/-- The name of a containment result in fault reports. -/
def Containment.label : Containment → String
  | .settled excluded => "Decided(" ++ excluded.label ++ ")"
  | .touching candidate => "Tie(" ++ candidate.label ++ ")"

end ExactSphere
