import FramePlacement.IdSet.Ascending
/-!
# Finite sets of identifiers

A set of identifiers is kept as the ascending list of its members.  Equal sets are therefore equal
values, the members are always listed in one order, and a set takes as much room as it has members,
however large they are.  The main statements say which identifiers each operation keeps and that a
set is determined by its members (`ext`).
-/

set_option autoImplicit false

namespace FramePlacement

structure IdSet where
  /-- The members in ascending order. -/
  toList : List Nat
  ascending : Ascending toList := by simp
deriving DecidableEq

namespace IdSet

def contains (s : IdSet) (e : Nat) : Bool := s.toList.contains e

instance : EmptyCollection IdSet := ⟨{ toList := [] }⟩

instance : Inhabited IdSet := ⟨∅⟩

instance : Membership Nat IdSet := ⟨fun s e => s.contains e = true⟩

instance (e : Nat) (s : IdSet) : Decidable (e ∈ s) :=
  inferInstanceAs (Decidable (s.contains e = true))

def insert (s : IdSet) (e : Nat) : IdSet :=
  { toList := Ascending.enter e s.toList
    ascending := Ascending.ascending_enter s.ascending }

def union (s t : IdSet) : IdSet :=
  { toList := Ascending.merge s.toList t.toList
    ascending := Ascending.ascending_merge s.ascending t.ascending }

def inter (s t : IdSet) : IdSet :=
  { toList := Ascending.select true s.toList t.toList
    ascending := Ascending.ascending_select s.ascending t.ascending }

def sdiff (s t : IdSet) : IdSet :=
  { toList := Ascending.select false s.toList t.toList
    ascending := Ascending.ascending_select s.ascending t.ascending }

instance : Union IdSet := ⟨union⟩

instance : Inter IdSet := ⟨inter⟩

instance : SDiff IdSet := ⟨sdiff⟩

def erase (s : IdSet) (e : Nat) : IdSet :=
  { toList := s.toList.filter (· != e)
    ascending := s.ascending.sublist List.filter_sublist }

def insertAll (s : IdSet) (elems : List Nat) : IdSet := elems.foldr (fun e s => s.insert e) s

def eraseAll (s : IdSet) (elems : List Nat) : IdSet := elems.foldr (fun e s => s.erase e) s

def ofList (elems : List Nat) : IdSet := insertAll ∅ elems

def size (s : IdSet) : Nat := s.toList.length

def isEmpty (s : IdSet) : Bool := s.toList.isEmpty

def isSubset (s t : IdSet) : Bool := (s \ t).isEmpty

def isDisjoint (s t : IdSet) : Bool := (s ∩ t).isEmpty

def render (label : Nat → String) (s : IdSet) : String :=
  "\x7b" ++ ", ".intercalate (s.toList.map label) ++ "\x7d"

/-! ## Members of each operation -/

theorem contains_iff {s : IdSet} {e : Nat} : s.contains e = true ↔ e ∈ s := Iff.rfl

theorem contains_eq_false_iff {s : IdSet} {e : Nat} : s.contains e = false ↔ ¬ e ∈ s := by
  rw [← Bool.not_eq_true, contains_iff]

@[simp] theorem mem_toList {s : IdSet} {e : Nat} : e ∈ s.toList ↔ e ∈ s :=
  List.contains_iff_mem.symm

theorem toList_ascending (s : IdSet) : s.toList.Pairwise (· < ·) := s.ascending

@[ext] theorem ext {s t : IdSet} (same : ∀ e, e ∈ s ↔ e ∈ t) : s = t := by
  have lists : s.toList = t.toList :=
    Ascending.eq_of_mem_iff s.ascending t.ascending fun e =>
      mem_toList.trans ((same e).trans mem_toList.symm)
  cases s
  cases t
  subst lists
  rfl

@[simp] theorem not_mem_empty (e : Nat) : ¬ e ∈ (∅ : IdSet) :=
  fun member => List.not_mem_nil (mem_toList.mpr member)

@[simp] theorem mem_insert {s : IdSet} {e x : Nat} : x ∈ s.insert e ↔ x = e ∨ x ∈ s := by
  rw [← mem_toList, ← mem_toList]
  exact Ascending.mem_enter

@[simp] theorem mem_union {s t : IdSet} {e : Nat} : e ∈ s ∪ t ↔ e ∈ s ∨ e ∈ t := by
  rw [← mem_toList, ← mem_toList, ← mem_toList]
  exact Ascending.mem_merge t.ascending

@[simp] theorem mem_inter {s t : IdSet} {e : Nat} : e ∈ s ∩ t ↔ e ∈ s ∧ e ∈ t := by
  rw [← mem_toList, ← mem_toList, ← mem_toList, ← decide_eq_true_iff (p := e ∈ t.toList)]
  exact Ascending.mem_select s.ascending t.ascending

@[simp] theorem mem_sdiff {s t : IdSet} {e : Nat} : e ∈ s \ t ↔ e ∈ s ∧ ¬ e ∈ t := by
  rw [← mem_toList, ← mem_toList, ← mem_toList, ← decide_eq_false_iff_not]
  exact Ascending.mem_select s.ascending t.ascending

@[simp] theorem mem_erase {s : IdSet} {e x : Nat} : x ∈ s.erase e ↔ x ≠ e ∧ x ∈ s := by
  rw [← mem_toList, ← mem_toList]
  simp [erase, and_comm]

@[simp] theorem mem_insertAll {elems : List Nat} {s : IdSet} {x : Nat} :
    x ∈ s.insertAll elems ↔ x ∈ elems ∨ x ∈ s := by
  induction elems with
  | nil => simp [insertAll]
  | cons e rest ih =>
      change x ∈ (s.insertAll rest).insert e ↔ _
      rw [mem_insert, ih, List.mem_cons, or_assoc]

@[simp] theorem mem_eraseAll {elems : List Nat} {s : IdSet} {x : Nat} :
    x ∈ s.eraseAll elems ↔ ¬ x ∈ elems ∧ x ∈ s := by
  induction elems with
  | nil => simp [eraseAll]
  | cons e rest ih =>
      change x ∈ (s.eraseAll rest).erase e ↔ _
      rw [mem_erase, ih, List.mem_cons, not_or, and_assoc]

@[simp] theorem mem_ofList {elems : List Nat} {x : Nat} : x ∈ ofList elems ↔ x ∈ elems := by
  simp [ofList]

theorem isEmpty_iff {s : IdSet} : s.isEmpty = true ↔ ∀ e, ¬ e ∈ s := by
  rw [isEmpty, List.isEmpty_iff, List.eq_nil_iff_forall_not_mem]
  exact forall_congr' fun e => not_congr mem_toList

theorem isSubset_iff {s t : IdSet} : s.isSubset t = true ↔ ∀ e, e ∈ s → e ∈ t := by
  rw [isSubset, isEmpty_iff]
  refine forall_congr' fun e => ?_
  rw [mem_sdiff, not_and, Decidable.not_not]

end IdSet

end FramePlacement
