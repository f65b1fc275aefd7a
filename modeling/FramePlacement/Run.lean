import FramePlacement.Placement.Insert
/-!
# Runs over scopes and modules

A run handles the closures of a scope before the scope itself.  The configuration says which scopes
it covers and what a failure does; a scope that fails keeps its old body in either case.
-/

set_option autoImplicit false

namespace FramePlacement

inductive ErrorPolicy where
  | abort
  /-- The scope stays as it was and is marked eager, so every captured local lives in its frame. -/
  | fallback
deriving DecidableEq

structure Config where
  onError : ErrorPolicy
  includeClosures : Bool
  /-- Top level scopes, which are independent, may be handled at the same time. -/
  parallel : Bool
  verify : Bool
deriving DecidableEq

namespace Config

/-- Failures fall back, closures are covered, every result is verified. -/
def standard : Config :=
  { onError := .fallback, includeClosures := true, parallel := true, verify := true }

/-- Every failure surfaces. -/
def strict : Config :=
  { onError := .abort, includeClosures := true, parallel := false, verify := true }

instance : Inhabited Config := ⟨standard⟩

end Config

/-! ## One scope -/

namespace Body

/-- Scripts, scopes without blocks and eager scopes are left alone. -/
def isExempt (s : Body) : Bool := s.kind == .script || !s.hasFlow || s.eager

/-- Places the frame instructions of one scope.  A failure leaves it as it was, or marks it
eager. -/
def run (s : Body) (config : Config) (captures : Captures) :
    Body × Except PlacementError Stats :=
  if s.isExempt then (s, .ok {})
  else
    match s.place config.verify captures with
    | .ok (placed, stats) => (placed, .ok stats)
    | .error error =>
        match config.onError with
        | .abort => (s, .error error)
        | .fallback => ({ s with eager := true }, .ok { fallbacks := 1 })

end Body

namespace Scope

def runAlone (s : Scope) (config : Config) : Scope × Except PlacementError Stats :=
  let (body, result) := s.body.run config s.captures
  (s.withBody body, result)

def runAfter (config : Config) (done : Stats) (s : Scope) :
    Scope × Except PlacementError Stats :=
  match s.runAlone config with
  | (s, .ok stats) => (s, .ok (done + stats))
  | (s, .error error) => (s, .error error)

mutual
/-- Handles the scope after all closures nested in it.  The first failure ends the run; what was
placed before it stays placed. -/
def runTree (config : Config) : Scope → Scope × Except PlacementError Stats
  | node body closures =>
      match runForest config closures with
      | (closures, .ok done) => runAfter config done (node body closures)
      | (closures, .error error) => (node body closures, .error error)

def runForest (config : Config) : List Scope → List Scope × Except PlacementError Stats
  | [] => ([], .ok {})
  | closure :: rest =>
      match runTree config closure with
      | (closure, .error error) => (closure :: rest, .error error)
      | (closure, .ok done) =>
          match runForest config rest with
          | (rest, .ok more) => (closure :: rest, .ok (done + more))
          | (rest, .error error) => (closure :: rest, .error error)
end

def run (s : Scope) (config : Config) : Scope × Except PlacementError Stats :=
  if config.includeClosures then s.runTree config else s.runAfter config {}

end Scope

/-! ## Modules -/

def sumResults : List (Except PlacementError Stats) → Except PlacementError Stats
  | [] => .ok {}
  | .error error :: _ => .error error
  | .ok stats :: rest =>
      match sumResults rest with
      | .ok more => .ok (stats + more)
      | .error error => .error error

/-- Handles every top level scope on its own.  All of them are handled even if one fails; the first
error in order is the result. -/
def runModule (config : Config) (scopes : List Scope) :
    List Scope × Except PlacementError Stats :=
  let runs := scopes.map fun s => s.run config
  (runs.map Prod.fst, sumResults (runs.map Prod.snd))

end FramePlacement
