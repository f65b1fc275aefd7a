/-!
# Points reached by a step relation

Everything that is reached from some starting points by repeating a step that leads to finitely many
points.  A point is expanded once, however often it is reached.
-/

set_option autoImplicit false

namespace FramePlacement

variable {α : Type} [DecidableEq α]

/-- The points in `seen` and those reached from `work`; `limit` bounds how many entries of the work
list are looked at. -/
def reach (step : α → List α) : Nat → List α → List α → List α
  | 0, _, seen => seen
  | _ + 1, [], seen => seen
  | limit + 1, point :: work, seen =>
      if point ∈ seen then reach step limit work seen
      else reach step limit (step point ++ work) (point :: seen)

end FramePlacement
