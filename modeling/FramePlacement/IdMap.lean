/-!
# Total maps from identifiers

A map gives every identifier a value: a recorded one, or the fallback of the map where none has been
recorded.  `get_set` is the only law its users need.
-/

set_option autoImplicit false

namespace FramePlacement

/-- A value for every identifier, of which finitely many are recorded. -/
structure IdMap (α : Type) where
  fallback : α
  entries : List (Nat × α) := []
deriving DecidableEq

namespace IdMap

variable {α : Type}

def const (a : α) : IdMap α := { fallback := a }

def get (m : IdMap α) (i : Nat) : α := (m.entries.lookup i).getD m.fallback

def set (m : IdMap α) (i : Nat) (a : α) : IdMap α :=
  { m with entries := (i, a) :: m.entries.filter fun entry => entry.1 != i }

def size (m : IdMap α) : Nat := m.entries.length

/-- The map that records the given pairs, the first of two with one identifier. -/
def ofPairs (fallback : α) (entries : List (Nat × α)) : IdMap α := { fallback, entries }

@[simp] theorem get_const (a : α) (i : Nat) : (const a).get i = a := rfl

theorem lookup_filter_ne {i j : Nat} (other : j ≠ i) : ∀ entries : List (Nat × α),
    (entries.filter fun entry => entry.1 != i).lookup j = entries.lookup j := by
  intro entries
  induction entries with
  | nil => rfl
  | cons entry rest ih =>
      obtain ⟨k, a⟩ := entry
      by_cases same : k = i
      · subst same
        have miss : (j == k) = false := by simpa using other
        simp [List.lookup_cons, miss, ih]
      · have keep : (k != i) = true := by simpa using same
        simp only [List.filter_cons, keep, if_true, List.lookup_cons]
        rw [ih]

@[simp] theorem get_set (m : IdMap α) (i j : Nat) (a : α) :
    (m.set i a).get j = if j = i then a else m.get j := by
  by_cases same : j = i
  · subst same
    simp [get, set]
  · have miss : (j == i) = false := by simpa using same
    simp only [get, set, List.lookup_cons, miss, same, if_false]
    rw [lookup_filter_ne same]

end IdMap

end FramePlacement
