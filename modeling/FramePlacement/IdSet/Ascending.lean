/-!
# Ascending lists of identifiers

A list of identifiers that ascends strictly holds each of them once.  Two such lists are merged and
compared in one pass over both, because all that a list holds below its first element is nothing.
The main statements say which identifiers each operation keeps, that the results ascend again, and
that an ascending list is determined by its elements (`eq_of_mem_iff`).
-/

set_option autoImplicit false

namespace FramePlacement

abbrev Ascending (l : List Nat) : Prop := l.Pairwise (· < ·)

namespace Ascending

def enter (e : Nat) : List Nat → List Nat
  | [] => [e]
  | x :: rest =>
      if e < x then e :: x :: rest else if x < e then x :: enter e rest else x :: rest

def merge : List Nat → List Nat → List Nat
  | [], ys => ys
  | x :: xs, ys => ys.takeWhile (· < x) ++ x :: merge xs (ys.dropWhile (· ≤ x))

/-- The elements of the first list that the second one holds, or with `wanted` false those that it
does not hold. -/
def select (wanted : Bool) : List Nat → List Nat → List Nat
  | [], _ => []
  | x :: xs, ys =>
      let later := ys.dropWhile (· < x)
      if (later.head? == some x) == wanted then x :: select wanted xs later
      else select wanted xs later

/-! ## Entering one element -/

theorem mem_enter {e x : Nat} {l : List Nat} : x ∈ enter e l ↔ x = e ∨ x ∈ l := by
  induction l with
  | nil => simp [enter]
  | cons y rest ih =>
      unfold enter
      split
      · simp
      · split
        · rw [List.mem_cons, ih, List.mem_cons]
          exact or_left_comm
        · next notBelow notAbove =>
            have same : e = y := by omega
            subst same
            simp

theorem ascending_enter {e : Nat} {l : List Nat} (asc : Ascending l) : Ascending (enter e l) := by
  induction l with
  | nil => simp [enter, Ascending]
  | cons y rest ih =>
      have parts := List.pairwise_cons.mp asc
      unfold enter
      split
      · next below =>
          refine List.pairwise_cons.mpr ⟨?_, asc⟩
          intro z member
          rcases List.mem_cons.mp member with rfl | member
          · exact below
          · exact Nat.lt_trans below (parts.1 z member)
      · split
        · next above =>
            refine List.pairwise_cons.mpr ⟨?_, ih parts.2⟩
            intro z member
            rcases mem_enter.mp member with rfl | member
            · exact above
            · exact parts.1 z member
        · exact asc

/-! ## Cutting an ascending list at a bound -/

theorem takeWhile_eq_filter {p : Nat → Bool} (down : ∀ a b, a < b → p b = true → p a = true)
    {l : List Nat} (asc : Ascending l) : l.takeWhile p = l.filter p := by
  induction l with
  | nil => rfl
  | cons x rest ih =>
      have parts := List.pairwise_cons.mp asc
      by_cases holds : p x = true
      · rw [List.takeWhile_cons_of_pos holds, List.filter_cons_of_pos holds, ih parts.2]
      · rw [List.takeWhile_cons_of_neg holds, List.filter_cons_of_neg holds]
        refine (List.filter_eq_nil_iff.mpr ?_).symm
        intro z member holdsLater
        exact holds (down x z (parts.1 z member) holdsLater)

theorem dropWhile_eq_filter {p : Nat → Bool} (down : ∀ a b, a < b → p b = true → p a = true)
    {l : List Nat} (asc : Ascending l) : l.dropWhile p = l.filter fun x => !p x := by
  induction l with
  | nil => rfl
  | cons x rest ih =>
      have parts := List.pairwise_cons.mp asc
      by_cases holds : p x = true
      · rw [List.dropWhile_cons_of_pos holds, List.filter_cons_of_neg (by simp [holds]),
          ih parts.2]
      · rw [List.dropWhile_cons_of_neg holds]
        refine (List.filter_eq_self.mpr ?_).symm
        intro z member
        rcases List.mem_cons.mp member with rfl | member
        · simp [holds]
        · have later : ¬ p z = true := fun h => holds (down x z (parts.1 z member) h)
          simp [later]

theorem takeWhile_lt {x : Nat} {l : List Nat} (asc : Ascending l) :
    l.takeWhile (· < x) = l.filter (· < x) :=
  takeWhile_eq_filter (fun a b less h => by simp at h ⊢; omega) asc

theorem dropWhile_lt {x : Nat} {l : List Nat} (asc : Ascending l) :
    l.dropWhile (· < x) = l.filter fun y => !decide (y < x) :=
  dropWhile_eq_filter (fun a b less h => by simp at h ⊢; omega) asc

theorem dropWhile_le {x : Nat} {l : List Nat} (asc : Ascending l) :
    l.dropWhile (· ≤ x) = l.filter fun y => !decide (y ≤ x) :=
  dropWhile_eq_filter (fun a b less h => by simp at h ⊢; omega) asc

theorem mem_dropWhile_lt {x z : Nat} {l : List Nat} (asc : Ascending l) :
    z ∈ l.dropWhile (· < x) ↔ z ∈ l ∧ x ≤ z := by
  rw [dropWhile_lt asc, List.mem_filter]
  simp

theorem ascending_dropWhile {p : Nat → Bool} {l : List Nat} (asc : Ascending l) :
    Ascending (l.dropWhile p) :=
  asc.sublist (List.dropWhile_sublist p)

/-- An ascending list without elements below `x` holds `x` exactly at its front. -/
theorem head?_dropWhile_lt {x : Nat} {l : List Nat} (asc : Ascending l) :
    (l.dropWhile (· < x)).head? = some x ↔ x ∈ l := by
  have rest := ascending_dropWhile (p := (· < x)) asc
  have bounds : ∀ z, z ∈ l.dropWhile (· < x) → x ≤ z :=
    fun z member => ((mem_dropWhile_lt asc).mp member).2
  have held : x ∈ l.dropWhile (· < x) ↔ x ∈ l :=
    (mem_dropWhile_lt asc).trans (and_iff_left (Nat.le_refl x))
  rw [← held]
  cases cut : l.dropWhile (· < x) with
  | nil => simp
  | cons y later =>
      rw [cut] at rest bounds
      have parts := List.pairwise_cons.mp rest
      rw [List.head?_cons, Option.some.injEq, List.mem_cons]
      constructor
      · intro same
        exact Or.inl same.symm
      · intro member
        rcases member with same | member
        · exact same.symm
        · have above := parts.1 x member
          have below := bounds y List.mem_cons_self
          omega

/-! ## Two lists -/

theorem mem_merge {z : Nat} {xs ys : List Nat} (asc : Ascending ys) :
    z ∈ merge xs ys ↔ z ∈ xs ∨ z ∈ ys := by
  induction xs generalizing ys with
  | nil => simp [merge]
  | cons x xs ih =>
      unfold merge
      rw [List.mem_append, List.mem_cons, ih (ascending_dropWhile asc), takeWhile_lt asc,
        dropWhile_le asc, List.mem_filter, List.mem_filter, List.mem_cons]
      by_cases member : z ∈ ys
      · simp [member]
        omega
      · simp [member]

theorem ascending_merge {xs ys : List Nat} (left : Ascending xs) (right : Ascending ys) :
    Ascending (merge xs ys) := by
  induction xs generalizing ys with
  | nil => exact right
  | cons x xs ih =>
      have parts := List.pairwise_cons.mp left
      have rest := ih parts.2 (ascending_dropWhile (p := (· ≤ x)) right)
      have above : ∀ z, z ∈ merge xs (ys.dropWhile (· ≤ x)) → x < z := by
        intro z member
        rw [mem_merge (ascending_dropWhile right), dropWhile_le right, List.mem_filter] at member
        rcases member with member | member
        · exact parts.1 z member
        · simpa using member.2
      have below : ∀ z, z ∈ ys.takeWhile (· < x) → z < x := by
        intro z member
        rw [takeWhile_lt right, List.mem_filter] at member
        simpa using member.2
      unfold merge
      refine List.pairwise_append.mpr ⟨right.sublist (List.takeWhile_sublist _),
        List.pairwise_cons.mpr ⟨above, rest⟩, ?_⟩
      intro z low w high
      rcases List.mem_cons.mp high with rfl | high
      · exact below z low
      · exact Nat.lt_trans (below z low) (above w high)

theorem select_eq_filter {wanted : Bool} {xs ys : List Nat} (left : Ascending xs)
    (right : Ascending ys) :
    select wanted xs ys = xs.filter fun x => decide (x ∈ ys) == wanted := by
  induction xs generalizing ys with
  | nil => rfl
  | cons x xs ih =>
      have parts := List.pairwise_cons.mp left
      have rest : select wanted xs (ys.dropWhile (· < x)) =
          xs.filter fun z => decide (z ∈ ys) == wanted := by
        rw [ih parts.2 (ascending_dropWhile right)]
        refine List.filter_congr fun z member => ?_
        have above := Nat.le_of_lt (parts.1 z member)
        have same : z ∈ ys.dropWhile (· < x) ↔ z ∈ ys :=
          (mem_dropWhile_lt right).trans (and_iff_left above)
        rw [decide_eq_decide.mpr same]
      have front : ((ys.dropWhile (· < x)).head? == some x) = decide (x ∈ ys) := by
        rw [Bool.eq_iff_iff, beq_iff_eq, decide_eq_true_eq]
        exact head?_dropWhile_lt right
      simp only [select]
      rw [front, rest, List.filter_cons]

theorem mem_select {wanted : Bool} {z : Nat} {xs ys : List Nat} (left : Ascending xs)
    (right : Ascending ys) :
    z ∈ select wanted xs ys ↔ z ∈ xs ∧ decide (z ∈ ys) = wanted := by
  rw [select_eq_filter left right, List.mem_filter, beq_iff_eq]

theorem ascending_select {wanted : Bool} {xs ys : List Nat} (left : Ascending xs)
    (right : Ascending ys) : Ascending (select wanted xs ys) := by
  rw [select_eq_filter left right]
  exact left.sublist List.filter_sublist

theorem eq_of_mem_iff {xs ys : List Nat} (left : Ascending xs) (right : Ascending ys)
    (same : ∀ z, z ∈ xs ↔ z ∈ ys) : xs = ys := by
  induction xs generalizing ys with
  | nil =>
      cases ys with
      | nil => rfl
      | cons y ys => exact absurd ((same y).mpr List.mem_cons_self) List.not_mem_nil
  | cons x xs ih =>
      cases ys with
      | nil => exact absurd ((same x).mp List.mem_cons_self) List.not_mem_nil
      | cons y ys =>
          have leftParts := List.pairwise_cons.mp left
          have rightParts := List.pairwise_cons.mp right
          have fronts : x = y := by
            rcases List.mem_cons.mp ((same x).mp List.mem_cons_self) with h | inRight
            · exact h
            · rcases List.mem_cons.mp ((same y).mpr List.mem_cons_self) with h | inLeft
              · exact h.symm
              · have one := rightParts.1 x inRight
                have two := leftParts.1 y inLeft
                omega
          subst fronts
          refine congrArg (x :: ·) (ih leftParts.2 rightParts.2 fun z => ?_)
          constructor
          · intro member
            have above := leftParts.1 z member
            rcases List.mem_cons.mp ((same z).mp (List.mem_cons_of_mem _ member)) with h | h
            · omega
            · exact h
          · intro member
            have above := rightParts.1 z member
            rcases List.mem_cons.mp ((same z).mpr (List.mem_cons_of_mem _ member)) with h | h
            · omega
            · exact h

end Ascending

end FramePlacement
