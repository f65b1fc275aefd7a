import FramePlacement.Proofs.Backward
import Mathlib.Data.Finset.Card
/-!
# Meets of facts

The solver folds the meet of two facts along lists: of predecessors, of successors, of raising
instructions.  Each of these folds is the greatest fact below the listed ones (`IsMeet`), whatever
the order of the list.

The laws that a finite set of facts has to satisfy for this are `MeetLaws`.  They need no bound on
how far a fact descends, since a finite set has one of its own (`MeetLaws.semilattice`).
-/

set_option autoImplicit false

namespace FramePlacement

namespace Problem

variable {F : Type}

/-- The greatest of the facts that are below all values. -/
def IsMeet (p : Problem F) (Fact values : F → Prop) (m : F) : Prop :=
  Fact m ∧ (∀ x, values x → p.Below m x) ∧
    ∀ a, Fact a → (∀ x, values x → p.Below a x) → p.Below a m

def Throws (p : Problem F) (code : Code) (fact x : F) : Prop :=
  ∃ above one rest, code = above ++ one :: rest ∧ one.2.canRaise = true ∧
    x = p.transferRaise one.1 one.2 (p.after above fact)

section Folds

variable {p : Problem F} {s : Body} {Fact values : F → Prop} {rank : F → Nat} {a b m x : F}
  {facts : BlockId → F} {blocks : IdSet} {code : Code}

theorem Semilattice.below_meet_iff (order : p.Semilattice Fact rank) (factX : Fact x)
    (factA : Fact a) (factB : Fact b) :
    p.Below x (p.meet a b) ↔ p.Below x a ∧ p.Below x b := by
  have fact := order.meet_fact factA factB
  constructor
  · intro below
    exact ⟨order.below_trans factX fact factA below (order.meet_below_left factA factB),
      order.below_trans factX fact factB below (order.meet_below_right factA factB)⟩
  · intro both
    exact order.below_meet factX factA factB both.1 both.2

theorem Semilattice.isMeet_of_below_iff (order : p.Semilattice Fact rank) (fact : Fact m)
    (bounds : ∀ a, Fact a → (p.Below a m ↔ ∀ x, values x → p.Below a x)) :
    p.IsMeet Fact values m :=
  ⟨fact, (bounds m fact).mp (order.below_refl fact), fun a factA => (bounds a factA).mpr⟩

theorem below_foldl_meet_iff (order : p.Semilattice Fact rank) {l : List F}
    (within : ∀ y ∈ l, Fact y) (factA : Fact a) (factX : Fact x) :
    p.Below x (l.foldl p.meet a) ↔ p.Below x a ∧ ∀ y ∈ l, p.Below x y := by
  induction l generalizing a with
  | nil => simp
  | cons y rest ih =>
      have factY := within y List.mem_cons_self
      have later : ∀ z ∈ rest, Fact z := fun z member => within z (List.mem_cons_of_mem y member)
      rw [List.foldl_cons, ih later (order.meet_fact factA factY),
        order.below_meet_iff factX factA factY, List.forall_mem_cons, and_assoc]

theorem below_meetAll_iff (order : p.Semilattice Fact rank) (all : ∀ c, Fact (facts c))
    (factA : Fact a) (factX : Fact x) :
    p.Below x (p.meetAll facts blocks a) ↔ p.Below x a ∧ ∀ c ∈ blocks, p.Below x (facts c) := by
  have folded : p.meetAll facts blocks a = (blocks.toList.map facts).foldl p.meet a := by
    rw [meetAll, List.foldl_map]
  have within : ∀ y ∈ blocks.toList.map facts, Fact y := by
    intro y member
    obtain ⟨c, _, rfl⟩ := List.mem_map.mp member
    exact all c
  rw [folded, below_foldl_meet_iff order within factA factX, List.forall_mem_map]
  simp only [IdSet.mem_toList]

theorem throws_cons_iff {one : InsnId × Insn} {rest : Code} :
    p.Throws (one :: rest) a x ↔
      one.2.canRaise = true ∧ x = p.transferRaise one.1 one.2 a ∨
        p.Throws rest (p.transfer one.1 one.2 a) x := by
  constructor
  · rintro ⟨above, other, below, code, raises, thrown⟩
    cases above with
    | nil =>
        obtain ⟨rfl, rfl⟩ := List.cons.inj code
        exact Or.inl ⟨raises, thrown⟩
    | cons first above =>
        obtain ⟨rfl, rfl⟩ := List.cons.inj code
        exact Or.inr ⟨above, other, below, rfl, raises, thrown⟩
  · rintro (⟨raises, thrown⟩ | ⟨above, other, below, rfl, raises, thrown⟩)
    · exact ⟨[], one, rest, rfl, raises, thrown⟩
    · exact ⟨one :: above, other, below, rfl, raises, thrown⟩

theorem below_raised_iff (order : p.Semilattice Fact rank) (mono : p.MonotoneOn s Fact)
    (inside : ∀ one ∈ code, one ∈ s.allCode) {acc : F} (fact : Fact a) (factAcc : Fact acc)
    (factX : Fact x) :
    p.Below x (p.raised code a acc) ↔ p.Below x acc ∧ ∀ y, p.Throws code a y → p.Below x y := by
  induction code generalizing a acc with
  | nil =>
      have none : ∀ y, ¬ p.Throws [] a y := by
        rintro y ⟨above, one, rest, code, _⟩
        cases above with
        | nil => cases code
        | cons _ _ => cases code
      rw [raised]
      exact ⟨fun below => ⟨below, fun y thrown => absurd thrown (none y)⟩, And.left⟩
  | cons one rest ih =>
      have here := inside one List.mem_cons_self
      have later : ∀ other ∈ rest, other ∈ s.allCode :=
        fun other member => inside other (List.mem_cons_of_mem one member)
      have next := mono.transfer_fact here fact
      have thrown := mono.raise_fact here fact
      simp only [raised, throws_cons_iff, or_imp, forall_and, and_imp]
      split
      · next raises =>
          rw [ih later next (order.meet_fact factAcc thrown),
            order.below_meet_iff factX factAcc thrown, and_assoc]
          simp only [raises, forall_eq, forall_const]
      · next calm =>
          rw [ih later next factAcc]
          simp only [calm, Bool.false_eq_true, false_implies, implies_true, true_and]

end Folds

/-! ## Finite sets of facts -/

/-- The facts form a finite semilattice under the meet, with the initial fact on top. -/
structure MeetLaws (p : Problem F) (facts : Finset F) : Prop where
  initial_mem : p.initial ∈ facts
  boundary_mem : p.boundary ∈ facts
  meet_mem : ∀ a ∈ facts, ∀ b ∈ facts, p.meet a b ∈ facts
  meet_self : ∀ a ∈ facts, p.meet a a = a
  meet_comm : ∀ a ∈ facts, ∀ b ∈ facts, p.meet a b = p.meet b a
  meet_assoc : ∀ a ∈ facts, ∀ b ∈ facts, ∀ c ∈ facts,
    p.meet (p.meet a b) c = p.meet a (p.meet b c)
  meet_initial : ∀ a ∈ facts, p.meet a p.initial = a

def HeightCovers (p : Problem F) (facts : Finset F) : Prop :=
  ∃ rank : F → Nat, (∀ a ∈ facts, ∀ b ∈ facts, p.Below a b → a ≠ b → rank a < rank b) ∧
    ∀ a ∈ facts, rank a ≤ p.height

def withHeight (p : Problem F) (height : Nat) : Problem F := { p with height }

section Finite

variable {p : Problem F} {facts : Finset F}

theorem Semilattice.meetLaws {Fact : F → Prop} {rank : F → Nat} (order : p.Semilattice Fact rank)
    (same : ∀ a, a ∈ facts ↔ Fact a) : p.MeetLaws facts := by
  obtain rfl : Fact = (· ∈ facts) := funext fun a => propext (same a).symm
  exact
    { initial_mem := order.initial_fact
      boundary_mem := order.boundary_fact
      meet_mem := fun _ memA _ memB => order.meet_fact memA memB
      meet_self := fun _ memA => order.meet_self memA
      meet_comm := fun _ memA _ memB => order.meet_comm memA memB
      meet_assoc := fun _ memA _ memB _ memC => order.meet_assoc memA memB memC
      meet_initial := fun _ memA => order.meet_initial memA }

theorem Semilattice.heightCovers {Fact : F → Prop} {rank : F → Nat}
    (order : p.Semilattice Fact rank) (same : ∀ a, a ∈ facts ↔ Fact a) : p.HeightCovers facts :=
  ⟨rank, fun a memA b memB => order.rank_lt ((same a).mp memA) ((same b).mp memB),
    fun a memA => order.rank_le ((same a).mp memA)⟩

namespace MeetLaws

theorem semilattice_of_rank (laws : p.MeetLaws facts) {rank : F → Nat} {height : Nat}
    (strict : ∀ a ∈ facts, ∀ b ∈ facts, p.Below a b → a ≠ b → rank a < rank b)
    (bound : ∀ a ∈ facts, rank a ≤ height) :
    (p.withHeight height).Semilattice (· ∈ facts) rank where
  initial_fact := laws.initial_mem
  boundary_fact := laws.boundary_mem
  meet_fact memA memB := laws.meet_mem _ memA _ memB
  meet_self memA := laws.meet_self _ memA
  meet_comm memA memB := laws.meet_comm _ memA _ memB
  meet_assoc memA memB memC := laws.meet_assoc _ memA _ memB _ memC
  meet_initial memA := laws.meet_initial _ memA
  rank_lt memA memB := strict _ memA _ memB
  rank_le memA := bound _ memA

theorem exists_rank (laws : p.MeetLaws facts) : ∃ rank : F → Nat,
    (∀ a ∈ facts, ∀ b ∈ facts, p.Below a b → a ≠ b → rank a < rank b) ∧
      ∀ a ∈ facts, rank a ≤ facts.card := by
  classical
  refine ⟨fun a => (facts.filter fun c => p.Below c a ∧ c ≠ a).card, ?_, ?_⟩
  · intro a memA b memB below differ
    apply Finset.card_lt_card
    rw [Finset.ssubset_iff_of_subset]
    · refine ⟨a, Finset.mem_filter.mpr ⟨memA, below, differ⟩, ?_⟩
      intro member
      exact (Finset.mem_filter.mp member).2.2 rfl
    · intro c member
      obtain ⟨memC, lower, _⟩ := Finset.mem_filter.mp member
      have through : p.Below c b := by
        calc p.meet c b = p.meet (p.meet c a) b := by rw [lower]
          _ = p.meet c (p.meet a b) := laws.meet_assoc c memC a memA b memB
          _ = c := by rw [below, lower]
      refine Finset.mem_filter.mpr ⟨memC, through, ?_⟩
      -- otherwise `a` and `b` would be below each other
      intro same
      subst same
      apply differ
      calc a = p.meet a c := below.symm
        _ = p.meet c a := laws.meet_comm a memA c memC
        _ = c := lower
  · intro a _
    exact Finset.card_filter_le _ _

theorem semilattice (laws : p.MeetLaws facts) :
    ∃ rank, (p.withHeight facts.card).Semilattice (· ∈ facts) rank := by
  obtain ⟨rank, strict, bound⟩ := laws.exists_rank
  exact ⟨rank, laws.semilattice_of_rank strict bound⟩

end MeetLaws

end Finite

end Problem

end FramePlacement
