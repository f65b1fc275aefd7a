import FramePlacement.Variable
import Mathlib.Data.List.AList
/-!
# Variables with a hash index

The variables of a scope stand in an array, each at its identifier, and a hash index beside it leads
from a variable back to its identifier.  Nothing in the type of the two keeps a variable from
standing in the array twice, or the index from disagreeing with the array: both are invariants of
interning.

A temporary is numbered by how many temporaries there are and then interned like any other variable.
It is a new one only because the temporaries are numbered without gaps, which is part of the
invariant for that reason (`Sound`).

The hash function stays open: the theory holds with any.
-/

set_option autoImplicit false

namespace FramePlacement

def Variable.temporaryIndex? : Variable → Option Nat
  | named _ _ => none
  | temporary index => some index

/-- An array of variables and the index into it. -/
structure IndexedVars [Hashable Variable] where
  entries : Array Variable := #[]
  index : Std.HashMap Variable VarId := ∅

namespace IndexedVars

variable [Hashable Variable] {k : IndexedVars} {x y : Variable} {v w : VarId}

def var? (k : IndexedVars) (v : VarId) : Option Variable := k.entries[v]?

def lookup? (k : IndexedVars) (x : Variable) : Option VarId := k.index[x]?

def add (k : IndexedVars) (x : Variable) : IndexedVars :=
  { entries := k.entries.push x, index := k.index.insert x k.entries.size }

def intern (k : IndexedVars) (x : Variable) : VarId × IndexedVars :=
  match k.lookup? x with
  | some v => (v, k)
  | none => (k.entries.size, k.add x)

def makeTemporary (k : IndexedVars) : VarId × IndexedVars :=
  k.intern (.temporary (k.entries.countP Variable.isTemporary))

/-- The numbers of the temporaries, in the order of their identifiers. -/
def temporaries (k : IndexedVars) : List Nat :=
  k.entries.toList.filterMap Variable.temporaryIndex?

/-! ## Adding a variable -/

theorem var?_add (k : IndexedVars) (x : Variable) (v : VarId) :
    (k.add x).var? v = if v = k.entries.size then some x else k.var? v :=
  Array.getElem?_push

theorem var?_size (k : IndexedVars) : k.var? k.entries.size = none :=
  Array.getElem?_eq_none (Nat.le_refl _)

theorem lookup?_add (k : IndexedVars) (x y : Variable) :
    (k.add x).lookup? y = if x = y then some k.entries.size else k.lookup? y := by
  unfold lookup? add
  rw [Std.HashMap.getElem?_insert]
  simp only [beq_iff_eq]

theorem temporaries_add (k : IndexedVars) (x : Variable) :
    (k.add x).temporaries = k.temporaries ++ x.temporaryIndex?.toList := by
  unfold temporaries add
  rw [Array.toList_push, List.filterMap_append]
  cases x <;> rfl

theorem var?_add_of_some (read : k.var? v = some y) : (k.add x).var? v = some y := by
  have old : v ≠ k.entries.size := by
    rintro rfl
    rw [var?_size] at read
    cases read
  rw [var?_add, if_neg old, read]

theorem var?_intern_of_some (read : k.var? v = some y) : (k.intern x).2.var? v = some y := by
  unfold intern
  split
  · exact read
  · exact var?_add_of_some read

theorem mem_temporaries_iff {index : Nat} :
    index ∈ k.temporaries ↔ ∃ v, k.var? v = some (.temporary index) := by
  unfold temporaries var?
  rw [List.mem_filterMap]
  constructor
  · rintro ⟨x, member, numbered⟩
    cases x with
    | named name depth => cases numbered
    | temporary other =>
        cases numbered
        obtain ⟨v, read⟩ := List.getElem?_of_mem member
        exact ⟨v, by rw [← Array.getElem?_toList, read]⟩
  · rintro ⟨v, read⟩
    rw [← Array.getElem?_toList] at read
    exact ⟨_, List.mem_of_getElem? read, rfl⟩

theorem countP_isTemporary (k : IndexedVars) :
    k.entries.countP Variable.isTemporary = k.temporaries.length := by
  unfold temporaries
  rw [List.length_filterMap_eq_countP, ← Array.countP_toList]
  congr 1
  funext x
  cases x <;> rfl

/-! ## The invariant -/

/-- The index is the inverse of the array, and the temporaries are numbered by how many came
before. -/
structure Sound (k : IndexedVars) : Prop where
  lookup?_iff : ∀ x v, k.lookup? x = some v ↔ k.var? v = some x
  dense : k.temporaries = List.range k.temporaries.length

namespace Sound

theorem empty : Sound {} where
  lookup?_iff x v := by simp [lookup?, var?]
  dense := rfl

theorem var?_inj (sound : k.Sound) (left : k.var? v = some x) (right : k.var? w = some x) :
    v = w := by
  rw [← sound.lookup?_iff] at left right
  exact Option.some.inj (left.symm.trans right)

/-- A variable that is not in the index may be added, a temporary only if it is the next one. -/
theorem add (sound : k.Sound) (missing : k.lookup? x = none)
    (next : ∀ index, x = .temporary index → index = k.temporaries.length) : (k.add x).Sound where
  lookup?_iff y v := by
    rw [lookup?_add, var?_add]
    by_cases same : x = y
    · subst same
      have unread : k.var? v ≠ some x := by
        intro read
        rw [(sound.lookup?_iff x v).mpr read] at missing
        cases missing
      rw [if_pos rfl, Option.some.injEq]
      split
      · next last => exact ⟨fun _ => rfl, fun _ => last.symm⟩
      · next old => exact ⟨fun equal => absurd equal.symm old, fun read => absurd read unread⟩
    · rw [if_neg same, sound.lookup?_iff]
      split
      · next last => simp [last, var?_size, same]
      · rfl
  dense := by
    rw [temporaries_add, List.length_append]
    cases x with
    | named name depth => simpa [Variable.temporaryIndex?] using sound.dense
    | temporary index =>
        rw [Variable.temporaryIndex?, Option.toList_some, List.length_singleton, List.range_succ,
          ← sound.dense, next index rfl]

theorem intern (sound : k.Sound)
    (next : ∀ index, x = .temporary index → index = k.temporaries.length) :
    (k.intern x).2.Sound := by
  unfold IndexedVars.intern
  split
  · exact sound
  · next missing => exact sound.add missing next

/-- The temporary with the next number is not in the index: those that are have lower numbers. -/
theorem lookup?_next (sound : k.Sound) : k.lookup? (.temporary k.temporaries.length) = none := by
  rw [Option.eq_none_iff_forall_ne_some]
  intro v found
  have member := mem_temporaries_iff.mpr ⟨v, (sound.lookup?_iff _ v).mp found⟩
  rw [sound.dense, List.length_range] at member
  exact Nat.lt_irrefl _ (List.mem_range.mp member)

theorem makeTemporary_eq (sound : k.Sound) :
    k.makeTemporary = (k.entries.size, k.add (.temporary k.temporaries.length)) := by
  unfold makeTemporary IndexedVars.intern
  rw [countP_isTemporary, sound.lookup?_next]

end Sound

end IndexedVars

end FramePlacement
