import FramePlacement.Placer
import FramePlacement.Proofs.StorePlacement
import Mathlib.Data.Prod.Lex
/-!
# One search for all writes

The search for writes starts anew at every observation of a scope, but it keeps what it has visited
and marked from one start to the next.  Points are visited once for each variable, so a walk is an
exploration of pairs (`StoreFinder.visited_walk`), and a later walk stops where an earlier one has
passed.  The invariant `StoreFinder.Searched` says that the visited pairs are those that some start
so far leads to, and that the marks are the writes sighted from them; hence the marks do not depend
on the order of the starts, and are those of a search that forgets everything in between
(`StoreFinder.Searched.marked_eq`).
-/

set_option autoImplicit false

namespace FramePlacement

namespace StoreFinder

open Relation

theorem precedes_iff {a b : Mark} : precedes a b = true ↔ toLex a < toLex b := by
  unfold precedes
  rw [Prod.Lex.toLex_lt_toLex, Bool.or_eq_true, Bool.and_eq_true, decide_eq_true_eq,
    decide_eq_true_eq, beq_iff_eq]

def Ascends (marks : List Mark) : Prop := marks.Pairwise fun a b => precedes a b = true

theorem mem_enter {mark other : Mark} {marks : List Mark} :
    other ∈ enter mark marks ↔ other = mark ∨ other ∈ marks := by
  induction marks with
  | nil => rw [enter, List.mem_singleton, or_iff_left List.not_mem_nil]
  | cons head rest ih =>
      rw [enter]
      split
      · next same =>
          rw [same, List.mem_cons, ← or_assoc, or_self]
      · split
        · exact List.mem_cons
        · rw [List.mem_cons, ih, List.mem_cons]
          exact or_left_comm

theorem ascends_enter {mark : Mark} {marks : List Mark} (ascends : Ascends marks) :
    Ascends (enter mark marks) := by
  induction marks with
  | nil => exact List.pairwise_singleton _ mark
  | cons head rest ih =>
      obtain ⟨first, others⟩ := List.pairwise_cons.mp ascends
      rw [enter]
      split
      · exact ascends
      · next differ =>
          split
          · next before =>
              refine List.pairwise_cons.mpr ⟨fun other member => ?_, ascends⟩
              rcases List.mem_cons.mp member with rfl | later
              · exact before
              · exact precedes_iff.mpr
                  (lt_trans (precedes_iff.mp before) (precedes_iff.mp (first other later)))
          · next behind =>
              refine List.pairwise_cons.mpr ⟨fun other member => ?_, ih others⟩
              rcases mem_enter.mp member with rfl | later
              · rw [precedes_iff, not_lt] at behind
                exact precedes_iff.mpr
                  (lt_of_le_of_ne behind fun same => differ (toLex.injective same).symm)
              · exact first other later

theorem eq_of_ascends {marks others : List Mark} (left : Ascends marks) (right : Ascends others)
    (same : ∀ mark, mark ∈ marks ↔ mark ∈ others) : marks = others := by
  have distinct : ∀ {list : List Mark}, Ascends list → list.Nodup := fun ascends =>
    ascends.imp fun {a b} before equal => by
      rw [equal, precedes_iff] at before
      exact lt_irrefl _ before
  refine ((List.perm_ext_iff_of_nodup (distinct left) (distinct right)).mpr same).eq_of_pairwise
    (fun a b _ _ less more => ?_) left right
  rw [precedes_iff] at less more
  exact absurd more (lt_asymm less)

variable (e : Effects) (s : Body) (sol : Solution IdSet)

/-- Where a search that shares its memory among variables goes on, in the order in which it does. -/
def upward (q : VarId × ScanPoint) : List (VarId × ScanPoint) :=
  ((e.scan s s.flowGraph sol q.1 q.2).map fun point => (q.1, point)).reverse

def Sights (q : VarId × ScanPoint) (mark : Mark) : Prop :=
  e.sight q.1 (s.codeAbove q.2) = .write mark.1 ∧ mark.2 = q.1

variable {e s sol}

theorem mem_upward {q next : VarId × ScanPoint} : next ∈ upward e s sol q ↔
    next.1 = q.1 ∧ next.2 ∈ e.scan s s.flowGraph sol q.1 q.2 := by
  obtain ⟨v, point⟩ := next
  unfold upward
  rw [List.mem_reverse, List.mem_map]
  constructor
  · rintro ⟨_, stepped, same⟩
    cases same
    exact ⟨rfl, stepped⟩
  · rintro ⟨same, stepped⟩
    exact ⟨point, stepped, Prod.ext same.symm rfl⟩

theorem walk_of_upward {q last : VarId × ScanPoint}
    (walk : ReflTransGen (fun a b => b ∈ upward e s sol a) q last) :
    last.1 = q.1 ∧ ReflTransGen (fun a b => b ∈ e.scan s s.flowGraph sol q.1 a) q.2 last.2 := by
  induction walk with
  | refl => exact ⟨rfl, ReflTransGen.refl⟩
  | tail _ stepped ih =>
      obtain ⟨same, next⟩ := mem_upward.mp stepped
      rw [ih.1] at same next
      exact ⟨same, ih.2.tail next⟩

theorem upward_of_walk {v : VarId} {point last : ScanPoint}
    (walk : ReflTransGen (fun a b => b ∈ e.scan s s.flowGraph sol v a) point last) :
    ReflTransGen (fun a b => b ∈ upward e s sol a) (v, point) (v, last) := by
  induction walk with
  | refl => exact ReflTransGen.refl
  | tail _ stepped ih => exact ih.tail (mem_upward.mpr ⟨rfl, stepped⟩)

theorem length_upward_le (q : VarId × ScanPoint) :
    (upward e s sol q).length ≤ s.flowGraph.edgeCount + s.allCode.length := by
  unfold upward
  rw [List.length_reverse, List.length_map]
  exact Effects.length_scan_le q.2

/-! ### One walk -/

theorem visited_walk (v : VarId) (limit : Nat) (f : StoreFinder) :
    (walk e s s.flowGraph sol v limit f).visited =
      reach (upward e s sol) limit (f.worklist.map fun point => (v, point)) f.visited := by
  induction limit generalizing f with
  | zero => rfl
  | succ limit ih =>
      rw [walk]
      cases waiting : f.worklist with
      | nil => rfl
      | cons point rest =>
          rw [List.map_cons, reach]
          dsimp only
          rw [ih]
          by_cases again : (v, point) ∈ f.visited
          · rw [if_pos again, if_pos again]
          · rw [if_neg again, if_neg again]
            unfold look upward
            rw [List.map_append, List.map_reverse]

def haunts (s : Body) (q : VarId × ScanPoint) : List (VarId × ScanPoint) :=
  ([q.2] ++ Effects.waypoints s).map fun point => (q.1, point)

theorem haunts_closed (q : VarId × ScanPoint) :
    ∀ x ∈ haunts s q, ∀ y ∈ upward e s sol x, y ∈ haunts s q := by
  intro x among y stepped
  obtain ⟨point, _, rfl⟩ := List.mem_map.mp among
  obtain ⟨same, next⟩ := mem_upward.mp stepped
  exact List.mem_map.mpr ⟨y.2, List.mem_append_right _ (Effects.mem_waypoints_of_scan next),
    Prod.ext same.symm rfl⟩

/-- The limit of a walk from one point leaves room for every point at which it may be. -/
theorem room_of_haunts (v : VarId) (start : ScanPoint) (visited : List (VarId × ScanPoint)) :
    1 + unseen (haunts s (v, start)) visited * (s.flowGraph.edgeCount + s.allCode.length) ≤
      Effects.searchLimit s [start] := by
  have enough : 1 + (haunts s (v, start)).length *
      (s.flowGraph.edgeCount + s.allCode.length) ≤ Effects.searchLimit s [start] := by
    unfold haunts
    rw [List.length_map]
    exact Effects.room_of_searchLimit [start]
  have fewer := Nat.mul_le_mul_right (s.flowGraph.edgeCount + s.allCode.length)
    (unseen_le (haunts s (v, start)) visited)
  exact Nat.le_trans (Nat.add_le_add_left fewer 1) enough

theorem worklist_walk {v : VarId} {points : List (VarId × ScanPoint)} {width : Nat}
    (inside : ∀ x ∈ points, ∀ y ∈ upward e s sol x, y ∈ points)
    (narrow : ∀ x, (upward e s sol x).length ≤ width) (limit : Nat) (f : StoreFinder)
    (known : ∀ point ∈ f.worklist, (v, point) ∈ points)
    (room : f.worklist.length + unseen points f.visited * width ≤ limit) :
    (walk e s s.flowGraph sol v limit f).worklist = [] := by
  induction limit generalizing f with
  | zero => exact List.eq_nil_of_length_eq_zero (Nat.le_zero.mp (Nat.le_of_add_right_le room))
  | succ limit ih =>
      rw [walk]
      cases waiting : f.worklist with
      | nil => exact waiting
      | cons point rest =>
          rw [waiting] at known room
          have pairs : ((v, point) :: rest.map fun next => (v, next)).length +
              unseen points f.visited * width ≤ limit + 1 := by
            rwa [List.length_cons, List.length_map]
          have others : ∀ next ∈ rest, (v, next) ∈ points := fun next member =>
            known next (List.mem_cons_of_mem point member)
          dsimp only
          by_cases again : (v, point) ∈ f.visited
          · rw [if_pos again]
            have left := room_of_skipped pairs
            rw [List.length_map] at left
            exact ih _ others left
          · rw [if_neg again]
            have here : (v, point) ∈ points := known point List.mem_cons_self
            refine ih _ (fun next member => ?_) ?_
            · rcases List.mem_append.mp member with stepped | waits
              · exact inside _ here _ (mem_upward.mpr ⟨rfl, List.mem_reverse.mp stepped⟩)
              · exact others next waits
            · have left := room_of_expanded narrow here again pairs
              unfold upward at left
              rw [List.length_append, List.length_reverse, List.length_map, List.length_map] at left
              unfold look
              rw [List.length_append, List.length_reverse]
              exact left

structure Marks (e : Effects) (s : Body) (f : StoreFinder) : Prop where
  sighted : ∀ mark, mark ∈ f.marked ↔ ∃ q ∈ f.visited, Sights e s q mark
  ascends : Ascends f.marked

theorem Marks.look {f : StoreFinder} (marks : Marks e s f) (v : VarId) (point : ScanPoint) :
    Marks e s (look e s s.flowGraph sol v point f) := by
  have here : ∀ mark, Sights e s (v, point) mark ↔
      e.sight v (s.codeAbove point) = .write mark.1 ∧ mark.2 = v := fun _ => Iff.rfl
  have visited : ∀ mark, (∃ q ∈ (v, point) :: f.visited, Sights e s q mark) ↔
      Sights e s (v, point) mark ∨ mark ∈ f.marked := by
    intro mark
    rw [marks.sighted]
    exact List.exists_mem_cons_iff _ _ _
  unfold StoreFinder.look
  cases sight : e.sight v (s.codeAbove point) with
  | write i =>
      refine ⟨fun mark => ?_, ascends_enter marks.ascends⟩
      rw [visited, here, sight, mem_enter]
      refine or_congr_left ?_
      constructor
      · rintro rfl
        exact ⟨rfl, rfl⟩
      · rintro ⟨same, var⟩
        exact Prod.ext (Sighting.write.inj same).symm var
  | top | sync =>
      refine ⟨fun mark => ?_, marks.ascends⟩
      rw [visited, here, sight, or_iff_right]
      rintro ⟨met, _⟩
      cases met

theorem Marks.walk (v : VarId) (limit : Nat) {f : StoreFinder} (marks : Marks e s f) :
    Marks e s (walk e s s.flowGraph sol v limit f) := by
  induction limit generalizing f with
  | zero => exact marks
  | succ limit ih =>
      rw [StoreFinder.walk]
      cases f.worklist with
      | nil => exact marks
      | cons point rest =>
          have popped : Marks e s { f with worklist := rest } := ⟨marks.sighted, marks.ascends⟩
          dsimp only
          split
          · exact ih popped
          · exact ih (popped.look v point)

/-! ### All walks -/

structure Searched (e : Effects) (s : Body) (sol : Solution IdSet)
    (demands : List (VarId × ScanPoint)) (f : StoreFinder) : Prop where
  idle : f.worklist = []
  visited : ∀ q, q ∈ f.visited ↔
    ∃ start ∈ demands, ReflTransGen (fun a b => b ∈ upward e s sol a) start q
  marks : Marks e s f

theorem Searched.visited_of_step {demands : List (VarId × ScanPoint)} {f : StoreFinder}
    (searched : Searched e s sol demands f) {q r : VarId × ScanPoint} (old : q ∈ f.visited)
    (stepped : r ∈ upward e s sol q) : r ∈ f.visited := by
  obtain ⟨origin, demanded, path⟩ := (searched.visited q).mp old
  exact (searched.visited r).mpr ⟨origin, demanded, path.tail stepped⟩

theorem Searched.search {demands : List (VarId × ScanPoint)} {f : StoreFinder}
    (searched : Searched e s sol demands f) (demand : VarId × ScanPoint) :
    Searched e s sol (demands ++ [demand]) (search e s s.flowGraph sol f demand) := by
  obtain ⟨v, start⟩ := demand
  have narrow : ∀ x, (upward e s sol x).length ≤ s.flowGraph.edgeCount + s.allCode.length :=
    length_upward_le
  have closed : ∀ x ∈ haunts s (v, start), ∀ y ∈ upward e s sol x, y ∈ haunts s (v, start) :=
    haunts_closed (v, start)
  have begun : (v, start) ∈ haunts s (v, start) := List.mem_map_of_mem List.mem_cons_self
  have room := room_of_haunts (s := s) v start f.visited
  have pushed : ({ f with worklist := start :: f.worklist } : StoreFinder).worklist = [start] :=
    congrArg (start :: ·) searched.idle
  have explored := reach_explored closed narrow _ [(v, start)] f.visited
    (fun x member => (List.mem_singleton.mp member).symm ▸ begun) room
  unfold StoreFinder.search
  dsimp only
  refine ⟨?_, fun q => ?_, Marks.walk v _ ⟨searched.marks.sighted, searched.marks.ascends⟩⟩
  · refine worklist_walk closed narrow _ _ (fun point member => ?_) ?_
    · rw [pushed] at member
      rw [List.mem_singleton.mp member]
      exact begun
    · rw [pushed]
      exact room
  · rw [visited_walk, pushed, List.map_singleton]
    constructor
    · intro found
      rcases explored.reached q found with old | ⟨first, among, walk⟩
      · obtain ⟨first, among, walk⟩ := (searched.visited q).mp old
        exact ⟨first, List.mem_append_left _ among, walk⟩
      · exact ⟨first, List.mem_append_right _ among, walk⟩
    · rintro ⟨first, among, walk⟩
      rcases List.mem_append.mp among with before | last
      · exact explored.keeps q ((searched.visited q).mpr ⟨first, before, walk⟩)
      · induction walk with
        | refl => exact explored.starts first last
        | tail _ stepped ih =>
            -- what was visited before is closed under steps as well
            rcases explored.closed _ ih with old | all
            · exact explored.keeps _ (searched.visited_of_step old stepped)
            · exact all _ stepped

theorem Searched.all {demands : List (VarId × ScanPoint)} {f : StoreFinder}
    (searched : Searched e s sol demands f) (more : List (VarId × ScanPoint)) :
    Searched e s sol (demands ++ more) (more.foldl (StoreFinder.search e s s.flowGraph sol) f) := by
  induction more generalizing demands f with
  | nil => rwa [List.append_nil]
  | cons demand rest ih =>
      rw [List.append_cons, List.foldl_cons]
      exact ih (searched.search demand)

theorem searched_nil {f : StoreFinder} (idle : f.worklist = []) (visited : f.visited = [])
    (marked : f.marked = []) : Searched e s sol [] f where
  idle := idle
  visited q := by simp [visited]
  marks :=
    { sighted := fun mark => by simp [marked, visited]
      ascends := by simp [Ascends, marked] }

/-- The marks are those of a search that starts with nothing visited for each variable. -/
theorem Searched.marked_eq {captures : Captures} {entry : BlockId}
    (setup : s.checkSetup s.flowGraph = .ok entry) {f : StoreFinder}
    (searched : Searched (s.effects captures) s
      ((s.effects captures).storeProblem.solved s s.flowGraph entry)
      (s.layout.blocks.flatMap ((s.effects captures).unsyncedIn s s.flowGraph
        ((s.effects captures).storeProblem.solved s s.flowGraph entry))) f) :
    f.marked = (s.effects captures).dueStores s s.flowGraph
      ((s.effects captures).storeProblem.solved s s.flowGraph entry) := by
  refine eq_of_ascends searched.marks.ascends ?_ fun mark => ?_
  · exact (Effects.dueStores_ascending _ s s.flowGraph _).imp fun less =>
      precedes_iff.mpr (Prod.Lex.toLex_lt_toLex.mpr (Or.inl less))
  · obtain ⟨w, v⟩ := mark
    rw [searched.marks.sighted, mem_dueStores_iff setup, ← found_iff_dueStore setup]
    constructor
    · rintro ⟨⟨x, q⟩, reached, sees, rfl⟩
      obtain ⟨⟨y, p⟩, demanded, walk⟩ := (searched.visited _).mp reached
      obtain ⟨same, walk⟩ := walk_of_upward walk
      cases same
      exact ⟨p, demanded, q, walk, sees⟩
    · rintro ⟨p, demanded, q, walk, sees⟩
      exact ⟨(v, q), (searched.visited _).mpr ⟨(v, p), demanded, upward_of_walk walk⟩, sees, rfl⟩

theorem visits_walk (v : VarId) (limit : Nat) (f : StoreFinder) :
    (walk e s s.flowGraph sol v limit f).visits = f.visits := by
  induction limit generalizing f with
  | zero => rfl
  | succ limit ih =>
      rw [walk]
      cases f.worklist with
      | nil => rfl
      | cons point rest =>
          dsimp only
          rw [ih]
          split <;> rfl

theorem visits_searches (demands : List (VarId × ScanPoint)) (f : StoreFinder) :
    (demands.foldl (search e s s.flowGraph sol) f).visits = f.visits := by
  induction demands generalizing f with
  | nil => rfl
  | cons demand rest ih =>
      rw [List.foldl_cons, ih]
      exact visits_walk _ _ _

end StoreFinder

end FramePlacement
