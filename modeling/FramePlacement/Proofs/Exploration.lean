import FramePlacement.Reach
import Mathlib.Data.List.Nodup
import Mathlib.Logic.Relation
/-!
# What an exploration reaches

`reach` collects exactly the points that repeated steps lead to from the points it starts with, when
its limit leaves room for them (`mem_reach_iff`).  The limit is enough as soon as some list holds
all points that can come up, and no step leads to more than `width` points: every entry of the work
list is a starting point or was put there by one of these points.
-/

set_option autoImplicit false

namespace FramePlacement

open Relation

theorem countP_lt_countP {α : Type} {p q : α → Bool} {l : List α}
    (weaker : ∀ x ∈ l, p x = true → q x = true) {x : α} (member : x ∈ l) (refused : p x = false)
    (passed : q x = true) : l.countP p < l.countP q := by
  induction l with
  | nil => cases member
  | cons y rest ih =>
      have tail : rest.countP p ≤ rest.countP q :=
        List.countP_mono_left fun z inside => weaker z (List.mem_cons_of_mem y inside)
      rcases List.mem_cons.mp member with rfl | later
      · rw [List.countP_cons_of_neg (by simp [refused]), List.countP_cons_of_pos passed]
        exact Nat.lt_succ_of_le tail
      · have smaller := ih (fun z inside => weaker z (List.mem_cons_of_mem y inside)) later
        rw [List.countP_cons, List.countP_cons]
        have head := weaker y List.mem_cons_self
        by_cases here : p y = true
        · rw [if_pos here, if_pos (head here)]
          exact Nat.succ_lt_succ smaller
        · rw [if_neg here]
          omega

variable {α : Type}

/-- What an exploration guarantees that started with some work and had seen some points. -/
structure Explored (step : α → List α) (work seen found : List α) : Prop where
  keeps : ∀ x ∈ seen, x ∈ found
  starts : ∀ x ∈ work, x ∈ found
  reached : ∀ x ∈ found, x ∈ seen ∨ ∃ start ∈ work, ReflTransGen (fun a b => b ∈ step a) start x
  closed : ∀ x ∈ found, x ∈ seen ∨ ∀ y ∈ step x, y ∈ found

theorem Explored.idle (step : α → List α) (seen : List α) : Explored step [] seen seen where
  keeps _ member := member
  starts _ member := absurd member List.not_mem_nil
  reached _ member := Or.inl member
  closed _ member := Or.inl member

variable [DecidableEq α]

def unseen (points seen : List α) : Nat := points.countP fun x => !seen.contains x

@[simp] theorem unseen_nil (points : List α) : unseen points [] = points.length := by
  simp [unseen]

theorem unseen_le (points seen : List α) : unseen points seen ≤ points.length :=
  List.countP_le_length

theorem unseen_cons_lt {points seen : List α} {point : α} (here : point ∈ points)
    (fresh : ¬ point ∈ seen) : unseen points (point :: seen) < unseen points seen := by
  refine countP_lt_countP (x := point) ?_ here ?_ ?_
  · intro x _ missing
    have both : ¬ x = point ∧ ¬ x ∈ seen := by simpa using missing
    simpa using both.2
  · simp
  · simpa using fresh

/-- Expanding a new point uses up the room that was kept for it. -/
theorem room_of_expanded {step : α → List α} {points work seen : List α} {width limit : Nat}
    {point : α} (narrow : ∀ x, (step x).length ≤ width) (here : point ∈ points)
    (fresh : ¬ point ∈ seen)
    (room : (point :: work).length + unseen points seen * width ≤ limit + 1) :
    (step point ++ work).length + unseen points (point :: seen) * width ≤ limit := by
  have payment : width + unseen points (point :: seen) * width ≤ unseen points seen * width := by
    have product := Nat.mul_le_mul_right width (Nat.succ_le_of_lt (unseen_cons_lt here fresh))
    rw [Nat.succ_mul] at product
    omega
  have short := narrow point
  rw [List.length_cons] at room
  rw [List.length_append]
  omega

theorem room_of_skipped {points work seen : List α} {width limit : Nat} {point : α}
    (room : (point :: work).length + unseen points seen * width ≤ limit + 1) :
    work.length + unseen points seen * width ≤ limit := by
  rw [List.length_cons] at room
  omega

theorem reach_explored {step : α → List α} {points : List α} {width : Nat}
    (inside : ∀ x ∈ points, ∀ y ∈ step x, y ∈ points)
    (narrow : ∀ x, (step x).length ≤ width) (limit : Nat) (work seen : List α)
    (known : ∀ x ∈ work, x ∈ points)
    (room : work.length + unseen points seen * width ≤ limit) :
    Explored step work seen (reach step limit work seen) := by
  -- the room that is left bounds the steps still to come, so the limit is not met before the end
  induction limit generalizing work seen with
  | zero =>
      have empty : work = [] := List.eq_nil_of_length_eq_zero (by omega)
      subst empty
      exact Explored.idle step seen
  | succ limit ih =>
      cases work with
      | nil => exact Explored.idle step seen
      | cons point work =>
          have others : ∀ x ∈ work, x ∈ points :=
            fun x member => known x (List.mem_cons_of_mem point member)
          simp only [reach]
          split
          · next again =>
              have rest := ih work seen others (room_of_skipped room)
              refine ⟨rest.keeps, ?_, ?_, rest.closed⟩
              · intro x member
                rcases List.mem_cons.mp member with rfl | later
                · exact rest.keeps x again
                · exact rest.starts x later
              · intro x member
                rcases rest.reached x member with old | ⟨start, among, path⟩
                · exact Or.inl old
                · exact Or.inr ⟨start, List.mem_cons_of_mem point among, path⟩
          · next fresh =>
              have here : point ∈ points := known point List.mem_cons_self
              have rest := ih (step point ++ work) (point :: seen)
                (fun x member => (List.mem_append.mp member).elim (inside point here x) (others x))
                (room_of_expanded narrow here fresh room)
              refine ⟨fun x old => rest.keeps x (List.mem_cons_of_mem point old), ?_, ?_, ?_⟩
              · intro x member
                rcases List.mem_cons.mp member with rfl | later
                · exact rest.keeps x List.mem_cons_self
                · exact rest.starts x (List.mem_append_right _ later)
              · intro x member
                rcases rest.reached x member with old | ⟨start, among, path⟩
                · rcases List.mem_cons.mp old with rfl | old
                  · exact Or.inr ⟨x, List.mem_cons_self, ReflTransGen.refl⟩
                  · exact Or.inl old
                · rcases List.mem_append.mp among with stepped | waiting
                  · exact Or.inr ⟨point, List.mem_cons_self, ReflTransGen.head stepped path⟩
                  · exact Or.inr ⟨start, List.mem_cons_of_mem point waiting, path⟩
              · intro x member
                rcases rest.closed x member with old | all
                · rcases List.mem_cons.mp old with rfl | old
                  · exact Or.inr fun y stepped => rest.starts y (List.mem_append_left _ stepped)
                  · exact Or.inl old
                · exact Or.inr all

/-- With room enough the limit does not cut an exploration short: a larger one changes nothing. -/
theorem reach_add {step : α → List α} {points : List α} {width : Nat}
    (inside : ∀ x ∈ points, ∀ y ∈ step x, y ∈ points)
    (narrow : ∀ x, (step x).length ≤ width) (limit more : Nat) (work seen : List α)
    (known : ∀ x ∈ work, x ∈ points)
    (room : work.length + unseen points seen * width ≤ limit) :
    reach step (limit + more) work seen = reach step limit work seen := by
  induction limit generalizing work seen with
  | zero =>
      have empty : work = [] := List.eq_nil_of_length_eq_zero (by omega)
      subst empty
      cases more with
      | zero => rfl
      | succ more => simp only [reach]
  | succ limit ih =>
      rw [Nat.succ_add]
      cases work with
      | nil => rfl
      | cons point work =>
          have here : point ∈ points := known point List.mem_cons_self
          have others : ∀ x ∈ work, x ∈ points :=
            fun x member => known x (List.mem_cons_of_mem point member)
          simp only [reach]
          split
          · exact ih work seen others (room_of_skipped room)
          · next fresh =>
              exact ih (step point ++ work) (point :: seen)
                (fun x member => (List.mem_append.mp member).elim (inside point here x) (others x))
                (room_of_expanded narrow here fresh room)

/-- With room enough, an exploration finds exactly the points that steps lead to. -/
theorem mem_reach_iff {step : α → List α} {points : List α} {width limit : Nat} {work : List α}
    (inside : ∀ x ∈ points, ∀ y ∈ step x, y ∈ points)
    (narrow : ∀ x, (step x).length ≤ width) (known : ∀ x ∈ work, x ∈ points)
    (room : work.length + points.length * width ≤ limit) {x : α} :
    x ∈ reach step limit work [] ↔
      ∃ start ∈ work, ReflTransGen (fun a b => b ∈ step a) start x := by
  have explored := reach_explored inside narrow limit work [] known (by rwa [unseen_nil])
  constructor
  · intro member
    exact (explored.reached x member).resolve_left List.not_mem_nil
  · rintro ⟨start, among, path⟩
    induction path with
    | refl => exact explored.starts start among
    | tail _ stepped ih => exact (explored.closed _ ih).resolve_left List.not_mem_nil _ stepped

end FramePlacement
