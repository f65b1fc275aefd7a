import FramePlacement.Proofs.Exploration
import FramePlacement.Proofs.Syncing
/-!
# Walking up from an observation

A walk goes up from a point of a block until it meets a write or a sync, and from the top of the
block it goes on at the points where control came from.  Facts of the analysis prune it: it goes on
only where the variable is not synced.  Nothing is lost by that, because along a path from a write
the variable is unsynced everywhere (`Effects.walk_of_leads`); and a walk only ever follows paths
backwards (`Effects.leads_of_walk`).  So the walks find exactly the writes from which a path leads
to one of the points they start from.
-/

set_option autoImplicit false

namespace FramePlacement

open Relation

/-- The point from which a walk goes up, as a point of the scope: the code above it and below it. -/
inductive Body.Locates (s : Body) : ScanPoint → BlockId → Code → Code → Prop where
  | bottom {b : BlockId} : Locates s (.bottom b) b (s.code b) []
  | before {b : BlockId} {above rest : Code} {i : InsnId} {insn : Insn} :
      s.code b = above ++ (i, insn) :: rest → Locates s (.before i) b above ((i, insn) :: rest)

namespace Body.Locates

variable {s : Body} {point : ScanPoint} {b : BlockId} {above rest : Code}

theorem code (locates : s.Locates point b above rest) : s.code b = above ++ rest := by
  cases locates with
  | bottom => exact (List.append_nil _).symm
  | before split => exact split

theorem codeAbove (locates : s.Locates point b above rest) : s.codeAbove point = above.reverse := by
  cases locates with
  | bottom => rfl
  | @before _ _ _ i insn split =>
      have inside : i ∈ s.layout.insns b := by
        have member : (i, insn) ∈ s.code b := Body.mem_code_of_split split
        exact (Body.mem_code_iff.mp member).1
      unfold Body.codeAbove
      dsimp only
      rw [Layout.blockOf?_eq_some_iff.mpr inside]
      dsimp only
      rw [takeWhile_ne (s.code_nodup b) split]

theorem blockAt (locates : s.Locates point b above rest) : s.blockAt? point = some b := by
  cases locates with
  | bottom => rfl
  | @before _ _ _ i insn split =>
      have member : (i, insn) ∈ s.code b := Body.mem_code_of_split split
      exact Layout.blockOf?_eq_some_iff.mpr (Body.mem_code_iff.mp member).1

end Body.Locates

namespace Effects

variable {e : Effects} {v : VarId}

/-! ## One walk -/

theorem staysUnsynced_iff {entry : InsnId × Insn} : e.StaysUnsynced v .completes entry ↔
    entry.2.writesSlot v = false ∧ e.syncs v entry.1 entry.2 = false := Iff.rfl

theorem sight_append_free {code above : Code}
    (each : ∀ entry ∈ code, e.StaysUnsynced v .completes entry) :
    e.sight v (code ++ above) = e.sight v above := by
  induction code with
  | nil => rfl
  | cons entry code ih =>
      have free := staysUnsynced_iff.mp (each entry List.mem_cons_self)
      rw [List.cons_append, sight, free.1, free.2]
      simp only [Bool.false_eq_true, if_false]
      exact ih fun other member => each other (List.mem_cons_of_mem entry member)

theorem free_of_sight_top {code : Code} (top : e.sight v code = .top) :
    ∀ entry ∈ code, e.StaysUnsynced v .completes entry := by
  induction code with
  | nil =>
      intro entry member
      cases member
  | cons first code ih =>
      rw [sight] at top
      split at top
      · cases top
      · next noWrite =>
          split at top
          · cases top
          · next noSync =>
              intro entry member
              rcases List.mem_cons.mp member with rfl | later
              · exact ⟨Bool.not_eq_true _ ▸ noWrite, Bool.not_eq_true _ ▸ noSync⟩
              · exact ih top entry later

theorem split_of_sight_write {code : Code} {w : InsnId} (found : e.sight v code = .write w) :
    ∃ between insn above, code = between ++ (w, insn) :: above ∧ insn.writesSlot v = true ∧
      ∀ entry ∈ between, e.StaysUnsynced v .completes entry := by
  induction code with
  | nil => cases found
  | cons first code ih =>
      obtain ⟨i, insn⟩ := first
      rw [sight] at found
      split at found
      · next write =>
          cases found
          exact ⟨[], insn, code, rfl, write, fun _ member => absurd member List.not_mem_nil⟩
      · next noWrite =>
          split at found
          · cases found
          · next noSync =>
              obtain ⟨between, other, above, rfl, write, free⟩ := ih found
              refine ⟨(i, insn) :: between, other, above, rfl, write, ?_⟩
              intro entry member
              rcases List.mem_cons.mp member with rfl | later
              · exact ⟨Bool.not_eq_true _ ▸ noWrite, Bool.not_eq_true _ ▸ noSync⟩
              · exact free entry later

theorem sight_write_of_split {above between : Code} {w : InsnId} {insn : Insn}
    (write : insn.writesSlot v = true)
    (free : ∀ entry ∈ between, e.StaysUnsynced v .completes entry) :
    e.sight v (above ++ (w, insn) :: between).reverse = .write w := by
  rw [List.reverse_append, List.reverse_cons, List.append_assoc, List.singleton_append,
    sight_append_free fun entry member => free entry (List.mem_reverse.mp member), sight,
    if_pos write]

theorem sight_top_of_free {code : Code}
    (free : ∀ entry ∈ code, e.StaysUnsynced v .completes entry) :
    e.sight v code.reverse = .top := by
  rw [← List.append_nil code.reverse,
    sight_append_free fun entry member => free entry (List.mem_reverse.mp member)]
  rfl

/-! ## From block to block -/

variable {s : Body} {sol : Solution IdSet}

theorem mem_continuations_iff {b : BlockId} {point : ScanPoint} :
    point ∈ e.continuations s s.flowGraph sol v b ↔
      (∃ pred, b ∈ s.flowGraph.succs pred ∧ ¬ v ∈ sol.outs.get pred ∧ point = .bottom pred) ∨
      ∃ pred entry, b ∈ s.flowGraph.excSuccs pred ∧ ¬ v ∈ sol.excOuts.get pred ∧
        entry ∈ s.code pred ∧ entry.2.canRaise = true ∧ ¬ v ∈ e.observed.get entry.1 ∧
        point = .before entry.1 := by
  unfold continuations
  simp only [List.mem_append, List.mem_map, List.mem_filter, List.mem_flatMap, IdSet.mem_toList,
    FlowGraph.mem_preds_iff, FlowGraph.mem_excPreds_iff, Bool.not_eq_true', Bool.and_eq_true,
    ← Bool.not_eq_true, IdSet.contains_iff]
  constructor
  · rintro (⟨pred, ⟨edge, unsynced⟩, rfl⟩ |
      ⟨entry, ⟨⟨pred, ⟨edge, unsynced⟩, inside⟩, raises⟩, rfl⟩)
    · exact Or.inl ⟨pred, edge, unsynced, rfl⟩
    · exact Or.inr ⟨pred, entry, edge, unsynced, inside, raises.1, raises.2, rfl⟩
  · rintro (⟨pred, edge, unsynced, rfl⟩ |
      ⟨pred, entry, edge, unsynced, inside, raises, silent, rfl⟩)
    · exact Or.inl ⟨pred, ⟨edge, unsynced⟩, rfl⟩
    · exact Or.inr ⟨entry, ⟨⟨pred, ⟨edge, unsynced⟩, inside⟩, raises, silent⟩, rfl⟩

theorem mem_scan_iff {b : BlockId} {above rest : Code} {point next : ScanPoint}
    (locates : s.Locates point b above rest) : next ∈ e.scan s s.flowGraph sol v point ↔
      e.sight v above.reverse = .top ∧ next ∈ e.continuations s s.flowGraph sol v b := by
  unfold scan
  rw [locates.codeAbove, locates.blockAt]
  cases e.sight v above.reverse with
  | top => simp
  | sync => simp
  | write w => simp

theorem leads_of_walk {start point : ScanPoint} {b : BlockId} {above rest : Code}
    (locates : s.Locates start b above rest)
    (walk : ReflTransGen (fun a b => b ∈ e.scan s s.flowGraph sol v a) start point) :
    ∃ c up down, s.Locates point c up down ∧
      Leads s (e.StaysUnsynced v) ⟨c, down⟩ ⟨b, rest⟩ := by
  induction walk with
  | refl => exact ⟨b, above, rest, locates, Leads.here⟩
  | tail _ stepped ih =>
      obtain ⟨c, up, down, here, leads⟩ := ih
      obtain ⟨top, goes⟩ := (mem_scan_iff here).mp stepped
      have free : ∀ entry ∈ up, e.StaysUnsynced v .completes entry :=
        fun entry member => free_of_sight_top top entry (List.mem_reverse.mpr member)
      have down_block : Leads s (e.StaysUnsynced v) ⟨c, s.code c⟩ ⟨c, down⟩ := by
        rw [here.code]
        exact Leads.through free
      rcases mem_continuations_iff.mp goes with
        ⟨pred, edge, _, rfl⟩ | ⟨pred, entry, edge, _, inside, raises, silent, rfl⟩
      · exact ⟨pred, s.code pred, [], Body.Locates.bottom,
          ((Leads.here.edge edge).trans down_block).trans leads⟩
      · obtain ⟨up, down, split⟩ := List.append_of_mem inside
        exact ⟨pred, up, entry :: down, Body.Locates.before split,
          ((Leads.here.raise raises edge silent).trans down_block).trans leads⟩

/-- A walk up from `p` comes past the point: `p` lies below it in the same block, and nothing in
between stops the walk. -/
def ComesPast (e : Effects) (s : Body) (v : VarId) (p : ScanPoint) (point : Point) : Prop :=
  ∃ above between rest, s.Locates p point.block (above ++ between) rest ∧
    point.rest = between ++ rest ∧ ∀ entry ∈ between, e.StaysUnsynced v .completes entry

theorem ComesPast.locate {p : ScanPoint} {point : Point} {upper : Code}
    (past : e.ComesPast s v p point) (code : s.code point.block = upper ++ point.rest) :
    ∃ between rest, s.Locates p point.block (upper ++ between) rest ∧
      point.rest = between ++ rest ∧ ∀ entry ∈ between, e.StaysUnsynced v .completes entry := by
  obtain ⟨above, between, rest, locates, split, free⟩ := past
  have whole : above ++ (between ++ rest) = upper ++ (between ++ rest) := by
    rw [← List.append_assoc, ← locates.code, code, split]
  have same : above = upper := List.append_cancel_right whole
  exact ⟨between, rest, same ▸ locates, split, free⟩

theorem ComesPast.up {p : ScanPoint} {b : BlockId} {entry : InsnId × Insn} {rest : Code}
    (past : e.ComesPast s v p ⟨b, rest⟩) (free : e.StaysUnsynced v .completes entry)
    {upper : Code} (code : s.code b = upper ++ entry :: rest) :
    e.ComesPast s v p ⟨b, entry :: rest⟩ := by
  have after : s.code b = (upper ++ [entry]) ++ rest :=
    code.trans (List.append_cons _ _ _)
  obtain ⟨between, below, locates, split, each⟩ := past.locate after
  rw [List.append_assoc, List.singleton_append] at locates
  refine ⟨upper, entry :: between, below, locates, congrArg (List.cons entry) split, ?_⟩
  intro other member
  rcases List.mem_cons.mp member with rfl | later
  · exact free
  · exact each other later

theorem ComesPast.scan {p next : ScanPoint} {b : BlockId}
    (past : e.ComesPast s v p ⟨b, s.code b⟩)
    (goes : next ∈ e.continuations s s.flowGraph sol v b) :
    next ∈ e.scan s s.flowGraph sol v p := by
  obtain ⟨between, below, locates, _, free⟩ := past.locate (List.nil_append _).symm
  exact (mem_scan_iff locates).mpr ⟨sight_top_of_free free, goes⟩

theorem ComesPast.write {p : ScanPoint} {b : BlockId} {upper under : Code} {w : InsnId}
    {insn : Insn} (past : e.ComesPast s v p ⟨b, under⟩)
    (code : s.code b = upper ++ (w, insn) :: under) (writes : insn.writesSlot v = true) :
    e.sight v (s.codeAbove p) = .write w := by
  have after : s.code b = (upper ++ [(w, insn)]) ++ under :=
    code.trans (List.append_cons _ _ _)
  obtain ⟨between, below, locates, _, free⟩ := past.locate after
  rw [locates.codeAbove, List.append_assoc, List.singleton_append]
  exact sight_write_of_split writes free

/-! ## The room a search needs -/

def waypoints (s : Body) : List ScanPoint :=
  s.flowGraph.edges.map (fun edge => .bottom edge.1) ++ s.allCode.map fun entry => .before entry.1

theorem mem_waypoints_of_scan {p next : ScanPoint}
    (stepped : next ∈ e.scan s s.flowGraph sol v p) : next ∈ waypoints s := by
  unfold scan at stepped
  split at stepped
  · rcases mem_continuations_iff.mp stepped with
      ⟨pred, edge, _, rfl⟩ | ⟨pred, entry, _, _, inside, _, _, rfl⟩
    · exact List.mem_append_left _
        (List.mem_map_of_mem (f := fun edge : Edge => ScanPoint.bottom edge.1)
          (FlowGraph.mem_targetsIn.mp edge))
    · exact List.mem_append_right _
        (List.mem_map_of_mem (f := fun entry : InsnId × Insn => ScanPoint.before entry.1)
          (Body.mem_allCode_of_mem_code inside))
  · cases stepped

theorem length_flatMap_code_le {blocks : List BlockId} (distinct : blocks.Nodup)
    (listed : ∀ b ∈ blocks, b ∈ s.layout.blocks) :
    (blocks.flatMap s.code).length ≤ s.allCode.length := by
  obtain ⟨same, perm, sublist⟩ := distinct.subperm listed
  rw [← (perm.flatMap_right s.code).length_eq]
  exact (sublist.flatMap s.code).length_le

theorem length_continuations_le {b : BlockId} : (e.continuations s s.flowGraph sol v b).length ≤
    s.flowGraph.edgeCount + s.allCode.length := by
  unfold continuations
  rw [List.length_append, List.length_map, List.length_map]
  have ends : ((s.flowGraph.preds b).toList.filter fun pred =>
      !(sol.outs.get pred).contains v).length ≤ s.flowGraph.edgeCount := by
    have few : (s.flowGraph.preds b).size ≤ (s.flowGraph.edges.map Prod.fst).length := by
      refine IdSet.size_le_length fun pred member => ?_
      exact List.mem_map_of_mem (f := Prod.fst) (FlowGraph.mem_sourcesIn.mp member)
    have filtered := List.length_filter_le (fun pred => !(sol.outs.get pred).contains v)
      (s.flowGraph.preds b).toList
    rw [List.length_map] at few
    unfold FlowGraph.edgeCount
    unfold IdSet.size at few
    omega
  have throws : (((s.flowGraph.excPreds b).toList.filter fun pred =>
      !(sol.excOuts.get pred).contains v).flatMap s.code).length ≤ s.allCode.length := by
    refine length_flatMap_code_le ((s.flowGraph.excPreds b).toList_nodup.sublist
      List.filter_sublist) fun pred member => ?_
    have source := IdSet.mem_toList.mp (List.mem_filter.mp member).1
    exact (Body.mem_excSuccs_flowGraph.mp (FlowGraph.mem_excPreds_iff.mp source)).1
  have filtered := List.length_filter_le
    (fun entry : InsnId × Insn => entry.2.canRaise && !(e.observed.get entry.1).contains v)
    (((s.flowGraph.excPreds b).toList.filter fun pred =>
      !(sol.excOuts.get pred).contains v).flatMap s.code)
  omega

theorem length_scan_le (p : ScanPoint) : (e.scan s s.flowGraph sol v p).length ≤
    s.flowGraph.edgeCount + s.allCode.length := by
  unfold scan
  split
  · exact length_continuations_le
  · exact Nat.zero_le _

def searchLimit (s : Body) (points : List ScanPoint) : Nat :=
  (points.length + (s.flowGraph.edgeCount + s.allCode.length)) *
    (s.flowGraph.edgeCount + s.allCode.length + 1)

theorem room_of_searchLimit (points : List ScanPoint) :
    points.length + (points ++ waypoints s).length *
      (s.flowGraph.edgeCount + s.allCode.length) ≤ searchLimit s points := by
  have few : (waypoints s).length ≤ s.flowGraph.edgeCount + s.allCode.length := by
    unfold waypoints FlowGraph.edgeCount
    rw [List.length_append, List.length_map, List.length_map]
    omega
  unfold searchLimit
  rw [List.length_append, Nat.mul_succ, Nat.add_comm]
  have product := Nat.mul_le_mul_right (s.flowGraph.edgeCount + s.allCode.length)
    (Nat.add_le_add_left few points.length)
  omega

theorem waypoints_closed (points : List ScanPoint) : ∀ p ∈ points ++ waypoints s,
    ∀ q ∈ e.scan s s.flowGraph sol v p, q ∈ points ++ waypoints s :=
  fun _ _ _ stepped => List.mem_append_right _ (mem_waypoints_of_scan stepped)

theorem reach_scan_add (points : List ScanPoint) (more : Nat) :
    reach (e.scan s s.flowGraph sol v) (searchLimit s points + more) points [] =
      reach (e.scan s s.flowGraph sol v) (searchLimit s points) points [] := by
  have room := room_of_searchLimit (s := s) points
  refine reach_add (waypoints_closed points) length_scan_le _ more points []
    (fun p => List.mem_append_left _) ?_
  simpa using room

theorem mem_reachingWrites_iff {points : List ScanPoint} {w : InsnId} :
    w ∈ e.reachingWrites s s.flowGraph sol v points ↔
      ∃ start ∈ points, ∃ p, ReflTransGen (fun a b => b ∈ e.scan s s.flowGraph sol v a) start p ∧
        e.sight v (s.codeAbove p) = .write w := by
  have member : ∀ p, p ∈ reach (e.scan s s.flowGraph sol v) (searchLimit s points) points [] ↔
      ∃ start ∈ points, ReflTransGen (fun a b => b ∈ e.scan s s.flowGraph sol v a) start p :=
    fun p => mem_reach_iff (waypoints_closed points) length_scan_le
      (fun p => List.mem_append_left _) (room_of_searchLimit points)
  unfold reachingWrites
  rw [List.mem_filterMap]
  constructor
  · rintro ⟨p, reached, sees⟩
    obtain ⟨start, among, walk⟩ := (member p).mp reached
    refine ⟨start, among, p, walk, ?_⟩
    split at sees
    · next i sight =>
        cases sees
        exact sight
    · cases sees
  · rintro ⟨start, among, p, walk, sees⟩
    refine ⟨p, (member p).mpr ⟨start, among, walk⟩, ?_⟩
    rw [sees]

end Effects

/-! ## Walks find writes -/

section Solved

variable {s : Body} {captures : Captures} {v : VarId} {entry : BlockId}

/-- Walks lead back along a path from a write: the facts that prune them let them pass. -/
theorem walk_of_leads (setup : s.checkSetup s.flowGraph = .ok entry)
    (candidate : v ∈ (s.effects captures).candidates) {start : Point}
    (springs : Springs s False (Effects.Renews v) start)
    (inside : ∃ above, s.code start.block = above ++ start.rest) {found : ScanPoint → Prop}
    (closed : ∀ p, found p → ∀ q ∈ (s.effects captures).scan s s.flowGraph
      ((s.effects captures).storeProblem.solved s s.flowGraph entry) v p, found q)
    {point : Point} (leads : Leads s ((s.effects captures).StaysUnsynced v) start point)
    {p : ScanPoint} (past : (s.effects captures).ComesPast s v p point) (here : found p) :
    ∃ q, found q ∧ (s.effects captures).ComesPast s v q start := by
  have mono := storeProblem_monotoneOn s captures
  have order := storeProblem_semilattice s captures
  have tracks := storeProblem_tracks s candidate
  have solves : ∀ c, s.flowGraph.Reachable c → (s.effects captures).storeProblem.Solves s
      s.flowGraph entry ((s.effects captures).storeProblem.solved s s.flowGraph entry) c :=
    fun _ reachable => mono.solves order rfl reachable
  have unsynced : ∀ {point : Point},
      Leads s ((s.effects captures).StaysUnsynced v) start point →
      (s.effects captures).storeProblem.BadAt s (fun fact => ¬ v ∈ fact)
        ((s.effects captures).storeProblem.solved s s.flowGraph entry) point := by
    intro point leads
    have boundary : (¬ v ∈ (s.effects captures).storeProblem.boundary) = False :=
      eq_false (not_not_intro candidate)
    refine Problem.badAt_of_arises tracks mono order rfl setup ⟨start, ?_, leads⟩
    rw [boundary]
    exact springs
  -- from the end of the path back to its start: the search has a walk that comes past each point
  induction leads generalizing p with
  | here => exact ⟨p, here, past⟩
  | complete leads free ih =>
      obtain ⟨upper, code⟩ := suffix_of_leads inside leads
      exact ih (past.up free code) here
  | @raise b handler one rest leads raises target silent ih =>
      obtain ⟨upper, code⟩ := suffix_of_leads inside leads
      have sent := (unsynced leads).sent tracks solves target raises silent
      have member : one ∈ s.code b := Body.mem_code_of_split code
      have goes : ScanPoint.before one.1 ∈ (s.effects captures).continuations s s.flowGraph
          ((s.effects captures).storeProblem.solved s s.flowGraph entry) v handler :=
        Effects.mem_continuations_iff.mpr
          (Or.inr ⟨b, one, target, sent, member, raises, silent, rfl⟩)
      refine ih ⟨upper, [], one :: rest, ?_, rfl, fun _ none => absurd none List.not_mem_nil⟩
        (closed p here _ (past.scan goes))
      rw [List.append_nil]
      exact Body.Locates.before code
  | @edge b c leads target ih =>
      have out := (unsynced leads).out solves
      have goes : ScanPoint.bottom b ∈ (s.effects captures).continuations s s.flowGraph
          ((s.effects captures).storeProblem.solved s s.flowGraph entry) v c :=
        Effects.mem_continuations_iff.mpr (Or.inl ⟨b, target, out, rfl⟩)
      refine ih ⟨s.code b, [], [], ?_, rfl, fun _ none => absurd none List.not_mem_nil⟩
        (closed p here _ (past.scan goes))
      rw [List.append_nil]
      exact Body.Locates.bottom

end Solved

end FramePlacement
