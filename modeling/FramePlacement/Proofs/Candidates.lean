import FramePlacement.Dataflow.Problem
import FramePlacement.Proofs.Path
import Mathlib.Data.Finset.Dedup
import Mathlib.Data.List.Sublists
/-!
# Sets of candidates as facts

Both analyses of a scope compute with sets of its candidates, one under intersection and one under
union.  Either way such sets form a semilattice of the height that the solver is told, and a problem
that follows every candidate by itself (`Problem.Tracks`) has transfers that commute with the meet
(`Problem.DistributiveOn.of_tracks`).
-/

set_option autoImplicit false

namespace FramePlacement

namespace IdSet

variable {s t bound : IdSet}

theorem inter_eq_left_iff : s ∩ t = s ↔ ∀ e, e ∈ s → e ∈ t := by
  constructor
  · intro same e member
    rw [← same] at member
    exact (mem_inter.mp member).2
  · intro inside
    ext e
    rw [mem_inter]
    exact ⟨fun both => both.1, fun member => ⟨member, inside e member⟩⟩

theorem union_eq_left_iff : s ∪ t = s ↔ ∀ e, e ∈ t → e ∈ s := by
  constructor
  · intro same e member
    rw [← same]
    exact mem_union.mpr (Or.inr member)
  · intro inside
    ext e
    rw [mem_union]
    exact ⟨fun either => either.elim id (inside e), Or.inl⟩

theorem size_lt_size (inside : ∀ e, e ∈ s → e ∈ t) (differ : s ≠ t) : s.size < t.size := by
  have within : ∀ e ∈ s.toList, e ∈ t.toList :=
    fun e member => mem_toList.mpr (inside e (mem_toList.mp member))
  have sub : s.toList.Subperm t.toList := s.toList_nodup.subperm within
  refine Nat.lt_of_le_of_ne sub.length_le fun same => differ ?_
  have permuted := sub.perm_of_length_le (Nat.le_of_eq same.symm)
  ext e
  rw [← mem_toList, ← mem_toList]
  exact permuted.mem_iff

def Among (bound s : IdSet) : Prop := ∀ e, e ∈ s → e ∈ bound

theorem Among.inter (amongS : Among bound s) : Among bound (s ∩ t) :=
  fun e member => amongS e (mem_inter.mp member).1

theorem Among.union (amongS : Among bound s) (amongT : Among bound t) : Among bound (s ∪ t) :=
  fun e member => (mem_union.mp member).elim (amongS e) (amongT e)

theorem Among.size_le (amongS : Among bound s) : s.size ≤ bound.size :=
  size_le_length fun e member => mem_toList.mpr (amongS e member)

def subsets (bound : IdSet) : Finset IdSet := (bound.toList.sublists.map ofList).toFinset

theorem mem_subsets_iff : s ∈ bound.subsets ↔ Among bound s := by
  rw [subsets, List.mem_toFinset, List.mem_map]
  constructor
  · rintro ⟨l, among, rfl⟩ e member
    exact mem_toList.mp ((List.mem_sublists.mp among).subset (mem_ofList.mp member))
  · intro among
    refine ⟨bound.toList.filter fun e => decide (e ∈ s), ?_, ?_⟩
    · exact List.mem_sublists.mpr List.filter_sublist
    · ext e
      rw [mem_ofList, List.mem_filter, mem_toList, decide_eq_true_eq]
      exact and_iff_right_of_imp (among e)

theorem among_eq_mem_subsets (bound : IdSet) : Among bound = (· ∈ bound.subsets) :=
  funext fun _ => propext mem_subsets_iff.symm

end IdSet

namespace Problem

variable {p : Problem IdSet} {s : Body} {bound : IdSet}

theorem semilattice_inter (meet : p.meet = (· ∩ ·)) (initial : p.initial = bound)
    (boundary : IdSet.Among bound p.boundary) (height : p.height = bound.size) :
    p.Semilattice (IdSet.Among bound) IdSet.size where
  initial_fact := by
    rw [initial]
    exact fun _ member => member
  boundary_fact := boundary
  meet_fact amongA _ := by
    rw [meet]
    exact amongA.inter
  meet_self _ := by
    rw [meet]
    exact IdSet.inter_eq_left_iff.mpr fun _ member => member
  meet_comm _ _ := by
    rw [meet]
    ext e
    simp only [IdSet.mem_inter]
    exact And.comm
  meet_assoc _ _ _ := by
    rw [meet]
    ext e
    simp only [IdSet.mem_inter]
    exact and_assoc
  meet_initial amongA := by
    rw [meet, initial]
    exact IdSet.inter_eq_left_iff.mpr amongA
  rank_lt _ _ below differ := by
    unfold Below at below
    rw [meet] at below
    exact IdSet.size_lt_size (IdSet.inter_eq_left_iff.mp below) differ
  rank_le amongA := by
    rw [height]
    exact amongA.size_le

theorem semilattice_union (meet : p.meet = (· ∪ ·)) (initial : p.initial = ∅)
    (boundary : IdSet.Among bound p.boundary) (height : p.height = bound.size) :
    p.Semilattice (IdSet.Among bound) fun fact => bound.size - fact.size where
  initial_fact := by
    rw [initial]
    exact fun e member => absurd member (IdSet.not_mem_empty e)
  boundary_fact := boundary
  meet_fact amongA amongB := by
    rw [meet]
    exact amongA.union amongB
  meet_self _ := by
    rw [meet]
    exact IdSet.union_eq_left_iff.mpr fun _ member => member
  meet_comm _ _ := by
    rw [meet]
    ext e
    simp only [IdSet.mem_union]
    exact Or.comm
  meet_assoc _ _ _ := by
    rw [meet]
    ext e
    simp only [IdSet.mem_union]
    exact or_assoc
  meet_initial _ := by
    rw [meet, initial]
    exact IdSet.union_eq_left_iff.mpr fun e member => absurd member (IdSet.not_mem_empty e)
  rank_lt amongA _ below differ := by
    unfold Below at below
    rw [meet] at below
    have larger := IdSet.size_lt_size (IdSet.union_eq_left_iff.mp below) differ.symm
    have room := amongA.size_le
    omega
  rank_le _ := by
    rw [height]
    exact Nat.sub_le _ _

variable {bad : VarId → IdSet → Prop} {gen keep : VarId → Passing}

theorem Distributes.of_effect
    (meet_iff : ∀ v ∈ bound, ∀ a b, bad v (p.meet a b) ↔ bad v a ∨ bad v b)
    (apart : ∀ {a b}, IdSet.Among bound a → IdSet.Among bound b →
      (∀ v ∈ bound, bad v a ↔ bad v b) → a = b)
    (meet_among : ∀ {a b}, IdSet.Among bound a → IdSet.Among bound b →
      IdSet.Among bound (p.meet a b))
    {f : IdSet → IdSet} (among : ∀ a, IdSet.Among bound a → IdSet.Among bound (f a))
    {produced kept : VarId → Prop}
    (effect : ∀ v ∈ bound, ∀ a, bad v (f a) ↔ produced v ∨ bad v a ∧ kept v) :
    p.Distributes (IdSet.Among bound) f where
  fact := among
  meet a b amongA amongB := by
    apply apart (among _ (meet_among amongA amongB)) (meet_among (among a amongA) (among b amongB))
    intro v candidate
    rw [meet_iff v candidate, effect v candidate, effect v candidate, effect v candidate,
      meet_iff v candidate]
    tauto

/-- A problem that follows every candidate by itself is distributive. -/
theorem DistributiveOn.of_tracks (tracks : ∀ v ∈ bound, p.Tracks s (bad v) (gen v) (keep v))
    (apart : ∀ {a b}, IdSet.Among bound a → IdSet.Among bound b →
      (∀ v ∈ bound, bad v a ↔ bad v b) → a = b)
    (meet_among : ∀ {a b}, IdSet.Among bound a → IdSet.Among bound b →
      IdSet.Among bound (p.meet a b))
    (transfer_among : ∀ (one : InsnId × Insn) a, IdSet.Among bound a →
      IdSet.Among bound (p.transfer one.1 one.2 a))
    (raise_among : ∀ (one : InsnId × Insn) a, IdSet.Among bound a →
      IdSet.Among bound (p.transferRaise one.1 one.2 a)) :
    p.DistributiveOn s (IdSet.Among bound) where
  transfer one inside := Distributes.of_effect (fun v candidate => (tracks v candidate).meet) apart
    meet_among (transfer_among one) fun v candidate => (tracks v candidate).transfer one inside
  raise one inside := Distributes.of_effect (fun v candidate => (tracks v candidate).meet) apart
    meet_among (raise_among one) fun v candidate => (tracks v candidate).transferRaise one inside

end Problem

end FramePlacement
