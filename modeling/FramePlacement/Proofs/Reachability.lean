import FramePlacement.Dataflow.Setup
import FramePlacement.Proofs.Exploration
import Mathlib.Data.List.Nodup
import Mathlib.Data.List.Perm.Subperm
import Mathlib.Logic.Relation
/-!
# What the depth first search finds

The search lists exactly the blocks that edges of either kind lead to from the entry, each of them
once (`mem_reversePostOrder_iff`, `reversePostOrder_nodup`).  Its depth limit never stops it: a
block that may still be found is the entry or the target of an edge, and each nested search has
found one of them more.

An analysis is set up when the graph starts where the layout does and every block of the layout is
found.
-/

set_option autoImplicit false

namespace FramePlacement

open Relation

namespace FlowGraph

abbrev Linked (g : FlowGraph) (b c : BlockId) : Prop := c ∈ g.allSuccs b

def Reachable (g : FlowGraph) (b : BlockId) : Prop :=
  ∃ entry, g.entry? = some entry ∧ ReflTransGen g.Linked entry b

theorem Reachable.step {g : FlowGraph} {b c : BlockId} (reached : g.Reachable b)
    (linked : g.Linked b c) : g.Reachable c := by
  obtain ⟨entry, start, path⟩ := reached
  exact ⟨entry, start, path.tail linked⟩

def findable (g : FlowGraph) (entry : BlockId) : List BlockId :=
  entry :: (g.edges.map Prod.snd ++ g.excEdges.map Prod.snd)

theorem length_findable (g : FlowGraph) (entry : BlockId) :
    (g.findable entry).length = g.depthBound := by
  simp [findable, depthBound, edgeCount]

theorem mem_allSuccs_iff {g : FlowGraph} {b c : BlockId} :
    c ∈ g.allSuccs b ↔ (b, c) ∈ g.edges ∨ (b, c) ∈ g.excEdges := by
  rw [allSuccs, IdSet.mem_union, succs, excSuccs, mem_targetsIn, mem_targetsIn]

theorem mem_findable_of_linked {g : FlowGraph} {entry b c : BlockId} (linked : g.Linked b c) :
    c ∈ g.findable entry := by
  have sides := mem_allSuccs_iff.mp linked
  rw [findable, List.mem_cons, List.mem_append]
  rcases sides with normal | raised
  · exact Or.inr (Or.inl (List.mem_map.mpr ⟨(b, c), normal, rfl⟩))
  · exact Or.inr (Or.inr (List.mem_map.mpr ⟨(b, c), raised, rfl⟩))

/-! ## One search and a row of searches -/

def unfound (blocks : List BlockId) (found : IdSet) : Nat :=
  blocks.countP fun b => !found.contains b

theorem unfound_le {blocks : List BlockId} {found later : IdSet}
    (grows : ∀ b, b ∈ found → b ∈ later) : unfound blocks later ≤ unfound blocks found := by
  refine List.countP_mono_left fun b _ missing => ?_
  have absent : ¬ b ∈ later := by simpa [← IdSet.contains_iff] using missing
  simpa [← IdSet.contains_iff] using fun member => absent (grows b member)

theorem unfound_insert_lt {blocks : List BlockId} {found : IdSet} {b : BlockId}
    (inside : b ∈ blocks) (fresh : ¬ b ∈ found) :
    unfound blocks (found.insert b) < unfound blocks found := by
  refine countP_lt_countP (x := b) ?_ inside ?_ ?_
  · intro c _ missing
    have absent : ¬ c ∈ found.insert b := by simpa [← IdSet.contains_iff] using missing
    simpa [← IdSet.contains_iff] using fun member => absent (IdSet.mem_insert.mpr (Or.inr member))
  · simp [IdSet.contains_iff]
  · simpa [← IdSet.contains_iff] using fresh

/-- What a row of searches from `roots` adds to a search: the blocks `fresh`, the latest first. -/
structure Adds (g : FlowGraph) (roots : List BlockId) (s t : Search) (fresh : List BlockId) :
    Prop where
  finished : t.finished = fresh ++ s.finished
  found : ∀ c, c ∈ t.found ↔ c ∈ fresh ∨ c ∈ s.found
  unseen : ∀ c ∈ fresh, ¬ c ∈ s.found
  distinct : fresh.Nodup
  reached : ∀ c ∈ fresh, ∃ root ∈ roots, ReflTransGen g.Linked root c
  roots_found : ∀ root ∈ roots, root ∈ t.found
  closed : ∀ c ∈ fresh, ∀ d, g.Linked c d → d ∈ t.found

namespace Adds

variable {g : FlowGraph} {s t u : Search} {roots more fresh later : List BlockId}

theorem keeps (adds : Adds g roots s t fresh) {c : BlockId} (member : c ∈ s.found) :
    c ∈ t.found := (adds.found c).mpr (Or.inr member)

theorem nothing (seen : ∀ root ∈ roots, root ∈ s.found) : Adds g roots s s [] where
  finished := rfl
  found c := by simp
  unseen c member := by cases member
  distinct := List.nodup_nil
  reached c member := by cases member
  roots_found := seen
  closed c member := by cases member

theorem trans (first : Adds g roots s t fresh) (second : Adds g more t u later) :
    Adds g (roots ++ more) s u (later ++ fresh) where
  finished := by rw [second.finished, first.finished, List.append_assoc]
  found c := by
    rw [second.found, first.found, List.mem_append, or_assoc]
  unseen c member seen := by
    rcases List.mem_append.mp member with new | old
    · exact second.unseen c new (first.keeps seen)
    · exact first.unseen c old seen
  distinct := by
    refine List.nodup_append.mpr ⟨second.distinct, first.distinct, ?_⟩
    intro c new d old same
    exact second.unseen c new ((first.found c).mpr (Or.inl (same ▸ old)))
  reached c member := by
    rcases List.mem_append.mp member with new | old
    · obtain ⟨root, among, path⟩ := second.reached c new
      exact ⟨root, List.mem_append_right _ among, path⟩
    · obtain ⟨root, among, path⟩ := first.reached c old
      exact ⟨root, List.mem_append_left _ among, path⟩
  roots_found root among := by
    rcases List.mem_append.mp among with early | late
    · exact second.keeps (first.roots_found root early)
    · exact second.roots_found root late
  closed c member d linked := by
    rcases List.mem_append.mp member with new | old
    · exact second.closed c new d linked
    · exact second.keeps (first.closed c old d linked)

/-- A search that descends into a block finishes it after all that was newly found behind it. -/
theorem descend {b : BlockId} (fresh_b : ¬ b ∈ s.found)
    (below : Adds g roots { s with found := s.found.insert b } t fresh)
    (all : ∀ c, c ∈ roots ↔ g.Linked b c) :
    Adds g [b] s { t with finished := b :: t.finished } (b :: fresh) where
  finished := by rw [below.finished]; rfl
  found c := by
    rw [below.found, IdSet.mem_insert, List.mem_cons]
    tauto
  unseen c member seen := by
    rcases List.mem_cons.mp member with rfl | new
    · exact fresh_b seen
    · exact below.unseen c new (IdSet.mem_insert.mpr (Or.inr seen))
  distinct := by
    refine List.nodup_cons.mpr ⟨?_, below.distinct⟩
    intro new
    exact below.unseen b new (IdSet.mem_insert.mpr (Or.inl rfl))
  reached c member := by
    refine ⟨b, List.mem_singleton.mpr rfl, ?_⟩
    rcases List.mem_cons.mp member with rfl | new
    · exact ReflTransGen.refl
    · obtain ⟨root, among, path⟩ := below.reached c new
      exact ReflTransGen.head ((all root).mp among) path
  roots_found root among := by
    rw [List.mem_singleton] at among
    subst among
    exact below.keeps (IdSet.mem_insert.mpr (Or.inl rfl))
  closed c member d linked := by
    rcases List.mem_cons.mp member with rfl | new
    · exact below.roots_found d ((all d).mpr linked)
    · exact below.closed c new d linked

end Adds

theorem foldl_visit_adds {g : FlowGraph} {entry : BlockId} {depth : Nat}
    (one : ∀ (search : Search) (b : BlockId), b ∈ g.findable entry →
      unfound (g.findable entry) search.found ≤ depth →
      ∃ fresh, Adds g [b] search (g.visit depth search b) fresh)
    (roots : List BlockId) (search : Search) (inside : ∀ b ∈ roots, b ∈ g.findable entry)
    (room : unfound (g.findable entry) search.found ≤ depth) :
    ∃ fresh, Adds g roots search (roots.foldl (g.visit depth) search) fresh := by
  induction roots generalizing search with
  | nil => exact ⟨[], Adds.nothing fun root among => by cases among⟩
  | cons b rest ih =>
      obtain ⟨fresh, first⟩ := one search b (inside b List.mem_cons_self) room
      have less : unfound (g.findable entry) (g.visit depth search b).found ≤ depth :=
        Nat.le_trans (unfound_le fun c member => first.keeps member) room
      obtain ⟨later, second⟩ := ih (g.visit depth search b)
        (fun c among => inside c (List.mem_cons_of_mem b among)) less
      exact ⟨later ++ fresh, first.trans second⟩

theorem visit_adds (g : FlowGraph) (entry : BlockId) (depth : Nat) (search : Search)
    (b : BlockId) (inside : b ∈ g.findable entry)
    (room : unfound (g.findable entry) search.found ≤ depth) :
    ∃ fresh, Adds g [b] search (g.visit depth search b) fresh := by
  induction depth generalizing search b with
  | zero =>
      have seen : b ∈ search.found := by
        apply Classical.byContradiction
        intro missing
        have smaller := unfound_insert_lt inside missing
        omega
      refine ⟨[], Adds.nothing fun root among => ?_⟩
      rw [List.mem_singleton] at among
      exact among ▸ seen
  | succ depth ih =>
      rw [visit]
      split
      · next seen =>
          refine ⟨[], Adds.nothing fun root among => ?_⟩
          rw [List.mem_singleton] at among
          exact among ▸ seen
      · next missing =>
          have smaller := unfound_insert_lt inside missing
          have targets : ∀ c, c ∈ (g.allSuccs b).toList.reverse ↔ g.Linked b c := by
            intro c
            rw [List.mem_reverse, IdSet.mem_toList]
          obtain ⟨fresh, below⟩ := foldl_visit_adds ih (g.allSuccs b).toList.reverse
            { search with found := search.found.insert b }
            (fun c among => mem_findable_of_linked ((targets c).mp among))
            (by change unfound _ (search.found.insert b) ≤ depth; omega)
          exact ⟨b :: fresh, Adds.descend missing below targets⟩

/-! ## The whole search -/

theorem reversePostOrder_adds {g : FlowGraph} {entry : BlockId} (start : g.entry? = some entry) :
    Adds g [entry] {} (g.visit g.depthBound {} entry) g.reversePostOrder := by
  have room : unfound (g.findable entry) ({} : Search).found ≤ g.depthBound :=
    Nat.le_trans List.countP_le_length (Nat.le_of_eq (length_findable g entry))
  obtain ⟨fresh, adds⟩ := visit_adds g entry g.depthBound {} entry List.mem_cons_self room
  have listed : g.reversePostOrder = fresh := by
    rw [reversePostOrder, start]
    exact adds.finished.trans (List.append_nil fresh)
  exact listed ▸ adds

theorem mem_reversePostOrder_iff {g : FlowGraph} {b : BlockId} :
    b ∈ g.reversePostOrder ↔ g.Reachable b := by
  cases start : g.entry? with
  | none =>
      rw [reversePostOrder, start]
      constructor
      · intro member
        cases member
      · rintro ⟨entry, found, -⟩
        rw [start] at found
        cases found
  | some entry =>
      have adds := reversePostOrder_adds start
      have listed : ∀ c, c ∈ (g.visit g.depthBound {} entry).found ↔ c ∈ g.reversePostOrder := by
        intro c
        rw [adds.found]
        exact or_iff_left (IdSet.not_mem_empty c)
      constructor
      · intro member
        obtain ⟨root, among, path⟩ := adds.reached b member
        rw [List.mem_singleton] at among
        exact ⟨entry, start, among ▸ path⟩
      · rintro ⟨other, found, path⟩
        rw [start] at found
        cases found
        induction path with
        | refl => exact (listed entry).mp (adds.roots_found entry (List.mem_singleton.mpr rfl))
        | tail _ linked ih => exact (listed _).mp (adds.closed _ ih _ linked)

theorem reversePostOrder_nodup (g : FlowGraph) : g.reversePostOrder.Nodup := by
  cases start : g.entry? with
  | none => simp [reversePostOrder, start]
  | some entry => exact (reversePostOrder_adds start).distinct

theorem length_reversePostOrder_le (g : FlowGraph) :
    g.reversePostOrder.length ≤ g.edgeCount + 1 := by
  cases start : g.entry? with
  | none => simp [reversePostOrder, start]
  | some entry =>
      have inside : g.reversePostOrder ⊆ g.findable entry := by
        intro b member
        obtain ⟨other, found, path⟩ := mem_reversePostOrder_iff.mp member
        rw [start] at found
        cases found
        rcases ReflTransGen.cases_tail path with same | ⟨c, -, linked⟩
        · exact same ▸ List.mem_cons_self
        · exact mem_findable_of_linked linked
      have bound := (g.reversePostOrder_nodup.subperm inside).length_le
      rwa [length_findable] at bound

theorem find?_unreachable_iff {g : FlowGraph} {blocks : List BlockId} {b : BlockId} :
    (blocks.find? fun c => !g.reversePostOrder.contains c) = some b ↔
      ∃ front back, blocks = front ++ b :: back ∧ ¬ g.Reachable b ∧ ∀ c ∈ front, g.Reachable c := by
  have absent : ∀ c, (!g.reversePostOrder.contains c) = true ↔ ¬ g.Reachable c := fun c => by
    rw [Bool.not_eq_true', ← Bool.not_eq_true, List.contains_iff_mem, mem_reversePostOrder_iff]
  have present : ∀ c, (!(!g.reversePostOrder.contains c)) = true ↔ g.Reachable c := fun c => by
    rw [Bool.not_not, List.contains_iff_mem, mem_reversePostOrder_iff]
  rw [List.find?_eq_some_iff_append, absent]
  simp only [present]
  constructor
  · rintro ⟨missing, front, back, split, earlier⟩
    exact ⟨front, back, split, missing, earlier⟩
  · rintro ⟨front, back, split, missing, earlier⟩
    exact ⟨missing, front, back, split, earlier⟩

end FlowGraph

namespace Body

theorem checkSetup_eq_ok_iff {s : Body} {g : FlowGraph} {entry : BlockId} :
    s.checkSetup g = .ok entry ↔
      s.layout.entry? = some entry ∧ g.entry? = some entry ∧
        ∀ b ∈ s.layout.blocks, g.Reachable b := by
  unfold checkSetup
  cases here : s.layout.entry? with
  | none => simp
  | some first =>
      cases there : g.entry? with
      | none => simp
      | some graphEntry =>
          simp only [Option.some.injEq]
          by_cases same : graphEntry = first
          · subst same
            rw [if_pos rfl]
            cases search : s.layout.blocks.find? fun b => !g.reversePostOrder.contains b with
            | some b =>
                have member := List.mem_of_find?_eq_some search
                have missing : ¬ b ∈ g.reversePostOrder := by
                  simpa using List.find?_some search
                simp only [reduceCtorEq, false_iff, not_and]
                intro _ _ all
                exact missing (FlowGraph.mem_reversePostOrder_iff.mpr (all b member))
            | none =>
                rw [List.find?_eq_none] at search
                have all : ∀ b ∈ s.layout.blocks, g.Reachable b := by
                  intro b member
                  have listed : b ∈ g.reversePostOrder := by simpa using search b member
                  exact FlowGraph.mem_reversePostOrder_iff.mp listed
                simp only [Except.ok.injEq]
                exact ⟨fun eq => ⟨eq, eq, all⟩, fun facts => facts.1⟩
          · rw [if_neg same]
            simp only [reduceCtorEq, false_iff, not_and]
            intro eq other
            exact absurd (other.trans eq.symm) same

/-- The setup check reports the first block of the layout that no path from the entry reaches. -/
theorem checkSetup_unreachable_iff {s : Body} {g : FlowGraph} {entry b : BlockId}
    (start : g.entry? = some entry) :
    s.checkSetup g = .error (.unreachableBlock b) ↔ s.layout.entry? = some entry ∧
      ∃ front back, s.layout.blocks = front ++ b :: back ∧ ¬ g.Reachable b ∧
        ∀ c ∈ front, g.Reachable c := by
  unfold checkSetup
  rw [start, ← FlowGraph.find?_unreachable_iff]
  cases s.layout.entry? with
  | none => simp
  | some first =>
      by_cases same : entry = first
      · subst same
        dsimp only
        rw [if_pos rfl]
        cases s.layout.blocks.find? fun c => !g.reversePostOrder.contains c <;> simp
      · simp [same, Ne.symm same]

end Body

end FramePlacement
