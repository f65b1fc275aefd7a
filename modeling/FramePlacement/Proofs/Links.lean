import FramePlacement.Layout.Lemmas
import FramePlacement.Layout.Linked
import Mathlib.Data.List.Perm.Subperm
/-!
# Lists on links

Two functions link identifiers to each other.  A list stands on them when each of its elements is
linked to its neighbours there and its ends to nothing (`Doubly`); following the links from its
start then yields the list and ends (`Doubly.follows`).  Linking a new element to two neighbours
puts it between them (`Doubly.insert`).
-/

set_option autoImplicit false

namespace FramePlacement

/-! ## Lists on links -/

section Links

variable {prev next : Nat → Option Nat} {start : Option Nat} {x : Nat} {l front back : List Nat}

inductive Follows (next : Nat → Option Nat) : Option Nat → List Nat → Prop
  | done : Follows next none []
  | step {x : Nat} {rest : List Nat} (later : Follows next (next x) rest) :
      Follows next (some x) (x :: rest)

theorem chain_eq_of_follows (links : Follows next start l) :
    ∀ {limit : Nat}, l.length ≤ limit → chain next limit start = l := by
  induction links with
  | done =>
      intro limit _
      cases limit <;> rfl
  | @step x rest _ ih =>
      intro limit enough
      cases limit with
      | zero => exact absurd enough (Nat.not_succ_le_zero _)
      | succ limit => rw [chain, ih (Nat.le_of_succ_le_succ enough)]

/-- Each element of a list is linked to its neighbours, and the ends of the list to nothing. -/
def Doubly (prev next : Nat → Option Nat) (l : List Nat) : Prop :=
  ∀ front x back, l = front ++ x :: back → prev x = front.getLast? ∧ next x = back.head?

theorem doubly_nil : Doubly prev next [] := fun front x back split => by
  cases front <;> cases split

theorem Doubly.follows_suffix : ∀ {l front : List Nat}, Doubly prev next (front ++ l) →
    Follows next l.head? l
  | [], _, _ => Follows.done
  | x :: rest, front, links => by
      refine Follows.step ?_
      rw [(links front x rest rfl).2]
      have shifted : Doubly prev next ((front ++ [x]) ++ rest) := by
        rw [List.append_assoc]
        exact links
      exact shifted.follows_suffix

theorem Doubly.follows (links : Doubly prev next l) : Follows next l.head? l :=
  Doubly.follows_suffix (show Doubly prev next ([] ++ l) from links)

theorem Doubly.reverse (links : Doubly prev next l) : Doubly next prev l.reverse := by
  intro front x back split
  have turned : l = back.reverse ++ x :: front.reverse := by
    rw [← List.reverse_reverse l, split]
    simp
  obtain ⟨behind, ahead⟩ := links _ x _ turned
  rw [behind, ahead, List.head?_reverse, List.getLast?_reverse]
  exact ⟨rfl, rfl⟩

theorem Doubly.congr {prev' next' : Nat → Option Nat} (links : Doubly prev next l)
    (same : ∀ y ∈ l, prev' y = prev y ∧ next' y = next y) : Doubly prev' next' l := by
  intro front x back split
  have member : x ∈ l := by
    rw [split]
    exact List.mem_append_right front List.mem_cons_self
  rw [(same x member).1, (same x member).2]
  exact links front x back split

section Insert

variable {prev' next' : Nat → Option Nat}

theorem Doubly.links_behind_new (links : Doubly prev next (front ++ back))
    (fresh : ¬ x ∈ back) (distinct : (front ++ back).Nodup)
    (ahead : ∀ y, y ≠ x → next' y = if front.getLast? = some y then some x else next y)
    (behind : ∀ y, y ≠ x → prev' y = if back.head? = some y then some x else prev y)
    {mid rest : List Nat} {y : Nat} (split : back = mid ++ y :: rest) :
    prev' y = (front ++ x :: mid).getLast? ∧ next' y = rest.head? := by
  rw [List.nodup_append] at distinct
  have inside : y ∈ back := by
    rw [split]
    exact List.mem_append_right mid List.mem_cons_self
  have other : y ≠ x := fun same => fresh (same ▸ inside)
  have notEnd : front.getLast? ≠ some y := fun last =>
    distinct.2.2 y (List.mem_of_getLast? last) y inside rfl
  have before := links (front ++ mid) y rest (by rw [split, List.append_assoc])
  rw [ahead y other, if_neg notEnd, behind y other]
  refine ⟨?_, before.2⟩
  cases mid with
  | nil =>
      rw [split]
      simp
  | cons z mid =>
      have notFirst : back.head? ≠ some y := by
        rw [split]
        intro same
        have repeated : y ∈ mid ++ y :: rest := List.mem_append_right mid List.mem_cons_self
        rw [split, List.cons_append, List.nodup_cons] at distinct
        exact distinct.2.1.1 (Option.some.inj same ▸ repeated)
      rw [if_neg notFirst, before.1]
      simp

/-- Linking a new element to two neighbours, and these to it, puts it between them. -/
theorem Doubly.insert (links : Doubly prev next (front ++ back))
    (fresh : ¬ x ∈ front ++ back) (distinct : (front ++ back).Nodup)
    (here : prev' x = front.getLast? ∧ next' x = back.head?)
    (ahead : ∀ y, y ≠ x → next' y = if front.getLast? = some y then some x else next y)
    (behind : ∀ y, y ≠ x → prev' y = if back.head? = some y then some x else prev y) :
    Doubly prev' next' (front ++ x :: back) := by
  rw [List.mem_append, not_or] at fresh
  intro front' y back' split
  rcases List.append_eq_append_iff.mp split with ⟨mid, left, right⟩ | ⟨mid, left, right⟩
  · cases mid with
    | nil =>
        rw [List.nil_append, List.cons.injEq] at right
        rw [List.append_nil] at left
        obtain ⟨rfl, rfl⟩ := right
        exact left ▸ here
    | cons first mid =>
        rw [List.cons_append, List.cons.injEq] at right
        obtain ⟨rfl, right⟩ := right
        rw [left]
        exact links.links_behind_new fresh.2 distinct ahead behind right
  · cases mid with
    | nil =>
        rw [List.nil_append, List.cons.injEq] at right
        rw [List.append_nil] at left
        obtain ⟨rfl, rfl⟩ := right
        exact left ▸ here
    | cons first mid =>
        -- read from its end, the list has `y` behind the new element
        rw [List.cons_append, List.cons.injEq] at right
        obtain ⟨rfl, right⟩ := right
        have turned : front.reverse = mid.reverse ++ y :: front'.reverse := by
          rw [left]
          simp
        have reversed := links.reverse
        rw [List.reverse_append] at reversed
        have found : next' y = (back.reverse ++ x :: mid.reverse).getLast? ∧
            prev' y = front'.reverse.head? :=
          reversed.links_behind_new (fun member => fresh.1 (List.mem_reverse.mp member))
            (by rw [← List.reverse_append]; exact (List.reverse_perm _).nodup_iff.mpr distinct)
            (by rw [List.getLast?_reverse]; exact behind)
            (by rw [List.head?_reverse]; exact ahead) turned
        rw [found.1, found.2, right, List.head?_reverse]
        refine ⟨rfl, ?_⟩
        rw [← List.head?_reverse]
        simp

end Insert

end Links

/-! ## Neighbours in a row -/

theorem Row.successor?_of_split {x : Nat} {front back : List Nat} (first : ¬ x ∈ front) :
    Row.successor? x (front ++ x :: back) = back.head? := by
  induction front with
  | nil => rw [List.nil_append, Row.successor?, if_pos rfl]
  | cons y front ih =>
      rw [List.mem_cons, not_or] at first
      rw [List.cons_append, Row.successor?, if_neg (Ne.symm first.1), ih first.2]

theorem Row.successor?_of_not_mem {x : Nat} : ∀ {l : List Nat}, ¬ x ∈ l →
    Row.successor? x l = none
  | [], _ => rfl
  | y :: rest, absent => by
      rw [List.mem_cons, not_or] at absent
      rw [Row.successor?, if_neg (Ne.symm absent.1), Row.successor?_of_not_mem absent.2]

theorem Row.predecessor?_of_not_mem_tail {x y : Nat} : ∀ {l : List Nat}, ¬ x ∈ l →
    Row.predecessor? x (y :: l) = none
  | [], _ => rfl
  | z :: rest, absent => by
      rw [List.mem_cons, not_or] at absent
      rw [Row.predecessor?, if_neg (Ne.symm absent.1), Row.predecessor?_of_not_mem_tail absent.2]

theorem Row.predecessor?_of_split {x : Nat} {front back : List Nat}
    (distinct : (front ++ x :: back).Nodup) :
    Row.predecessor? x (front ++ x :: back) = front.getLast? := by
  induction front with
  | nil =>
      rw [List.nil_append, List.nodup_cons] at distinct
      exact Row.predecessor?_of_not_mem_tail distinct.1
  | cons y front ih =>
      rw [List.cons_append, List.nodup_cons] at distinct
      cases front with
      | nil => rw [List.cons_append, List.nil_append, Row.predecessor?, if_pos rfl]; rfl
      | cons z front =>
          have other : z ≠ x := fun same => by
            rw [List.cons_append, List.nodup_cons] at distinct
            exact distinct.2.1 (same ▸ List.mem_append_right front List.mem_cons_self)
          have later := ih distinct.2
          rw [List.cons_append] at later
          rw [List.cons_append, List.cons_append, Row.predecessor?, if_neg other, later,
            List.getLast?_cons_cons]

theorem Row.insertBefore_of_split {x anchor : Nat} {front back : List Nat}
    (first : ¬ anchor ∈ front) :
    Row.insertBefore x anchor (front ++ anchor :: back) = front ++ x :: anchor :: back := by
  induction front with
  | nil => rw [List.nil_append, Row.insertBefore, if_pos rfl]; rfl
  | cons y front ih =>
      rw [List.mem_cons, not_or] at first
      rw [List.cons_append, Row.insertBefore, if_neg (Ne.symm first.1), ih first.2]
      rfl

theorem Row.insertAfter_of_split {x anchor : Nat} {front back : List Nat}
    (first : ¬ anchor ∈ front) :
    Row.insertAfter x anchor (front ++ anchor :: back) = front ++ anchor :: x :: back := by
  induction front with
  | nil => rw [List.nil_append, Row.insertAfter, if_pos rfl]; rfl
  | cons y front ih =>
      rw [List.mem_cons, not_or] at first
      rw [List.cons_append, Row.insertAfter, if_neg (Ne.symm first.1), ih first.2]
      rfl

theorem Layout.not_mem_front_of_split {l : Layout} {b : BlockId} {i : InsnId}
    {front back : List InsnId} (split : l.insns b = front ++ i :: back) : ¬ i ∈ front := by
  have distinct := (l.insns_sublist_allInsns b).nodup l.allInsns_nodup
  rw [split, List.nodup_append] at distinct
  exact fun inside => distinct.2.2 i inside i List.mem_cons_self rfl

/-! ## What a table records -/

namespace IdMap

variable {α : Type}

def Records (m : IdMap α) (i : Nat) : Prop := i ∈ m.entries.map Prod.fst

theorem records_set {m : IdMap α} {i j : Nat} {a : α} (held : j = i ∨ m.Records j) :
    (m.set i a).Records j := by
  unfold Records set
  rw [List.map_cons]
  by_cases same : j = i
  · exact same ▸ List.mem_cons_self
  · obtain ⟨entry, member, rfl⟩ := List.mem_map.mp (held.resolve_left same)
    exact List.mem_cons_of_mem _ (List.mem_map_of_mem
      (List.mem_filter.mpr ⟨member, bne_iff_ne.mpr same⟩))

theorem length_le_size {m : IdMap α} {l : List Nat} (distinct : l.Nodup)
    (held : ∀ i ∈ l, m.Records i) : l.length ≤ m.size := by
  have part := (distinct.subperm held).length_le
  rwa [List.length_map] at part

end IdMap

end FramePlacement
