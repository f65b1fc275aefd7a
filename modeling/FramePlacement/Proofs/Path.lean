import FramePlacement.Proofs.Forward
import Mathlib.Data.List.Induction
/-!
# Paths through a scope and what solved facts say about them

A point of a scope is a block with the code that control still has to run in it.  Control completes
the next instruction, leaves it for the handler of its block, or follows an edge from the bottom of
the block.  A path is free to pass an instruction or not, in either way, so one relation serves
every question about variables.

When membership of a variable is produced and kept by single instructions (`Tracks`), a solved
forward fact tells exactly which paths exist: the variable is in question at a point if and only if
a path that keeps it leads there from a point where it springs up (`solved_iff_arises`).
-/

set_option autoImplicit false

namespace FramePlacement

/-- A block and the code that control still has to run in it. -/
structure Point where
  block : BlockId
  rest : Code

inductive Passage where
  | completes
  | raises

abbrev Passing := Passage → InsnId × Insn → Prop

/-- Control can get from `start` to a point by passing only instructions it is free to pass. -/
inductive Leads (s : Body) (free : Passing) (start : Point) : Point → Prop where
  | here : Leads s free start start
  | complete {b : BlockId} {entry : InsnId × Insn} {rest : Code} :
      Leads s free start ⟨b, entry :: rest⟩ → free .completes entry → Leads s free start ⟨b, rest⟩
  | raise {b handler : BlockId} {entry : InsnId × Insn} {rest : Code} :
      Leads s free start ⟨b, entry :: rest⟩ → entry.2.canRaise = true →
      handler ∈ s.flowGraph.excSuccs b → free .raises entry →
      Leads s free start ⟨handler, s.code handler⟩
  | edge {b c : BlockId} :
      Leads s free start ⟨b, []⟩ → c ∈ s.flowGraph.succs b → Leads s free start ⟨c, s.code c⟩

/-- The points where something springs up: the entry, and the points behind an instruction. -/
inductive Springs (s : Body) (atEntry : Prop) (gen : Passing) : Point → Prop where
  | entry {b : BlockId} : atEntry → s.layout.entry? = some b → Springs s atEntry gen ⟨b, s.code b⟩
  | complete {b : BlockId} {above rest : Code} {entry : InsnId × Insn} :
      s.code b = above ++ entry :: rest → gen .completes entry → Springs s atEntry gen ⟨b, rest⟩
  | raise {b handler : BlockId} {above rest : Code} {entry : InsnId × Insn} :
      s.code b = above ++ entry :: rest → entry.2.canRaise = true →
      handler ∈ s.flowGraph.excSuccs b → gen .raises entry →
      Springs s atEntry gen ⟨handler, s.code handler⟩

/-- A path leads to the point from where something springs up, and keeps it. -/
def Arises (s : Body) (atEntry : Prop) (gen keep : Passing) (point : Point) : Prop :=
  ∃ start, Springs s atEntry gen start ∧ Leads s keep start point

/-! ## Edges of the graph of a scope -/

namespace Body

theorem terminator?_eq_some_iff {s : Body} {b : BlockId} {insn : Insn} :
    s.terminator? b = some insn ↔
      insn.isTerminator = true ∧ ∃ front i, s.code b = front ++ [(i, insn)] := by
  unfold terminator? lastInsn?
  rw [Option.filter_eq_some_iff, Option.map_eq_some_iff, and_comm]
  refine and_congr_right fun _ => ⟨?_, ?_⟩
  · rintro ⟨⟨i, last⟩, ends, rfl⟩
    obtain ⟨front, split⟩ := List.getLast?_eq_some_iff.mp ends
    exact ⟨front, i, split⟩
  · rintro ⟨front, i, split⟩
    exact ⟨(i, insn), List.getLast?_eq_some_iff.mpr ⟨front, split⟩, rfl⟩

theorem terminator?_of_running {s : Body} {b : BlockId}
    (running : ∀ entry ∈ s.code b, entry.2.isTerminator = false) : s.terminator? b = none := by
  rw [Option.eq_none_iff_forall_ne_some]
  intro insn ends
  obtain ⟨terminates, front, i, code⟩ := terminator?_eq_some_iff.mp ends
  have calm := running (i, insn) (by rw [code]; simp)
  rw [terminates] at calm
  cases calm

theorem mem_blocks_of_nextBlock? {s : Body} {b c : BlockId}
    (next : s.layout.nextBlock? b = some c) : c ∈ s.layout.blocks := by
  have found : ∀ {l : List BlockId}, Row.successor? b l = some c → c ∈ l := by
    intro l
    induction l with
    | nil => intro none; cases none
    | cons first rest ih =>
        intro follows
        rw [Row.successor?] at follows
        split at follows
        · exact List.mem_cons_of_mem _ (List.mem_of_head? follows)
        · exact List.mem_cons_of_mem _ (ih follows)
  exact found next

theorem nextBlock?_of_not_mem {s : Body} {b : BlockId} (absent : ¬ b ∈ s.layout.blocks) :
    s.layout.nextBlock? b = none := by
  have missing : ∀ {l : List BlockId}, ¬ b ∈ l → Row.successor? b l = none := by
    intro l
    induction l with
    | nil => exact fun _ => rfl
    | cons first rest ih =>
        intro none
        obtain ⟨other, later⟩ := not_or.mp (mt List.mem_cons.mpr none)
        rw [Row.successor?, if_neg (Ne.symm other)]
        exact ih later
  exact missing absent

theorem mem_succs_flowGraph {s : Body} {b c : BlockId} :
    c ∈ s.flowGraph.succs b ↔ b ∈ s.layout.blocks ∧ c ∈ s.flowTargets b := by
  rw [FlowGraph.succs, FlowGraph.mem_targetsIn]
  simp only [flowGraph, List.mem_flatMap, List.mem_map, Prod.mk.injEq]
  constructor
  · rintro ⟨b, listed, c, target, rfl, rfl⟩
    exact ⟨listed, target⟩
  · rintro ⟨listed, target⟩
    exact ⟨b, listed, c, target, rfl, rfl⟩

theorem mem_excSuccs_flowGraph {s : Body} {b c : BlockId} :
    c ∈ s.flowGraph.excSuccs b ↔
      b ∈ s.layout.blocks ∧ s.mayRaise b = true ∧ s.handler? b = some c := by
  rw [FlowGraph.excSuccs, FlowGraph.mem_targetsIn]
  simp only [flowGraph, List.mem_flatMap, List.mem_map, Prod.mk.injEq, excTargets]
  constructor
  · rintro ⟨b, listed, c, target, rfl, rfl⟩
    split at target
    · next raises => exact ⟨listed, raises, Option.mem_toList.mp target⟩
    · cases target
  · rintro ⟨listed, raises, handler⟩
    refine ⟨b, listed, c, ?_, rfl, rfl⟩
    rw [if_pos raises]
    exact Option.mem_toList.mpr handler

theorem handler?_isSome_of_mem_excSuccs {s : Body} {b c : BlockId}
    (target : c ∈ s.flowGraph.excSuccs b) : (s.handler? b).isSome := by
  rw [(mem_excSuccs_flowGraph.mp target).2.2]
  rfl

theorem mem_blocks_of_linked {s : Body} {b c : BlockId} (linked : s.flowGraph.Linked b c) :
    b ∈ s.layout.blocks := by
  rcases IdSet.mem_union.mp linked with normal | exceptional
  · exact (mem_succs_flowGraph.mp normal).1
  · exact (mem_excSuccs_flowGraph.mp exceptional).1

theorem mem_blocks_of_code {s : Body} {b : BlockId} {above rest : Code} {entry : InsnId × Insn}
    (code : s.code b = above ++ entry :: rest) : b ∈ s.layout.blocks := by
  have member : entry ∈ s.code b := by rw [code]; simp
  obtain ⟨i, listed, _⟩ := List.mem_filterMap.mp member
  exact Layout.mem_blocks_of_mem_insns listed

theorem mem_allCode_of_code {s : Body} {b : BlockId} {above rest : Code} {entry : InsnId × Insn}
    (code : s.code b = above ++ entry :: rest) : entry ∈ s.allCode :=
  mem_allCode_of_mem_code (b := b) (by rw [code]; simp)

theorem mem_allCode_of_above {s : Body} {b : BlockId} {above rest : Code}
    (code : s.code b = above ++ rest) : ∀ one ∈ above, one ∈ s.allCode := by
  intro one member
  apply mem_allCode_of_mem_code (b := b)
  rw [code]
  exact List.mem_append_left _ member

theorem mem_blocks_of_reachable {s : Body} {b : BlockId}
    (targets : ∀ entry ∈ s.allCode, ∀ dest ∈ entry.2.targets, dest ∈ s.layout.blocks)
    (handlers : ∀ c ∈ s.layout.blocks, ∀ handler, s.handler? c = some handler →
      handler ∈ s.layout.blocks)
    (reachable : s.flowGraph.Reachable b) : b ∈ s.layout.blocks := by
  obtain ⟨entry, first, path⟩ := reachable
  cases path with
  | refl => exact List.mem_of_head? first
  | tail _ linked =>
      rcases IdSet.mem_union.mp linked with normal | exceptional
      · have target := (mem_succs_flowGraph.mp normal).2
        unfold flowTargets at target
        split at target
        · next insn ends =>
            obtain ⟨_, front, i, code⟩ := terminator?_eq_some_iff.mp ends
            exact targets (i, insn) (mem_allCode_of_code code) b target
        · exact mem_blocks_of_nextBlock? (Option.mem_toList.mp target)
      · obtain ⟨listed, _, handled⟩ := mem_excSuccs_flowGraph.mp exceptional
        exact handlers _ listed b handled

theorem mem_excSuccs_of_code {s : Body} {b handler : BlockId} {above rest : Code}
    {entry : InsnId × Insn} (code : s.code b = above ++ entry :: rest)
    (raises : entry.2.canRaise = true) (handled : s.handler? b = some handler) :
    handler ∈ s.flowGraph.excSuccs b := by
  refine mem_excSuccs_flowGraph.mpr ⟨mem_blocks_of_code code, ?_, handled⟩
  unfold mayRaise
  rw [code, List.any_eq_true]
  exact ⟨entry, by simp, raises⟩

end Body

/-! ## Facts along the code of a block -/

namespace Problem

variable {F : Type} {p : Problem F}

theorem after_append (above rest : Code) (fact : F) :
    p.after (above ++ rest) fact = p.after rest (p.after above fact) :=
  List.foldl_append

theorem after_snoc (above : Code) (entry : InsnId × Insn) (fact : F) :
    p.after (above ++ [entry]) fact = p.transfer entry.1 entry.2 (p.after above fact) :=
  p.after_append above [entry] fact

/-- Something about the facts of a problem that the instructions of a scope produce and keep one by
one. -/
structure Tracks (p : Problem F) (s : Body) (bad : F → Prop) (gen keep : Passing) : Prop where
  initial : ¬ bad p.initial
  meet : ∀ a b, bad (p.meet a b) ↔ bad a ∨ bad b
  transfer : ∀ entry ∈ s.allCode, ∀ a, bad (p.transfer entry.1 entry.2 a) ↔
    gen .completes entry ∨ bad a ∧ keep .completes entry
  transferRaise : ∀ entry ∈ s.allCode, ∀ a, bad (p.transferRaise entry.1 entry.2 a) ↔
    gen .raises entry ∨ bad a ∧ keep .raises entry

namespace Tracks

variable {s : Body} {bad : F → Prop} {gen keep : Passing}

theorem foldl_meet (tracks : p.Tracks s bad gen keep) (l : List F) (a : F) :
    bad (l.foldl p.meet a) ↔ bad a ∨ ∃ x ∈ l, bad x := by
  induction l generalizing a with
  | nil => simp
  | cons x rest ih =>
      rw [List.foldl_cons, ih, tracks.meet, or_assoc]
      simp only [List.mem_cons, or_and_right, exists_or, exists_eq_left]

theorem meetAll (tracks : p.Tracks s bad gen keep) (facts : BlockId → F) (blocks : IdSet) (a : F) :
    bad (p.meetAll facts blocks a) ↔ bad a ∨ ∃ c ∈ blocks, bad (facts c) := by
  have folded : p.meetAll facts blocks a = (blocks.toList.map facts).foldl p.meet a := by
    rw [Problem.meetAll, List.foldl_map]
  rw [folded, tracks.foldl_meet]
  simp only [List.mem_map, IdSet.mem_toList, exists_exists_and_eq_and]

theorem raised (tracks : p.Tracks s bad gen keep) (code : Code) (fact acc : F) :
    bad (p.raised code fact acc) ↔ bad acc ∨ ∃ above entry rest, code = above ++ entry :: rest ∧
      entry.2.canRaise = true ∧ bad (p.transferRaise entry.1 entry.2 (p.after above fact)) := by
  induction code generalizing fact acc with
  | nil => simp [Problem.raised]
  | cons first rest ih =>
      rw [Problem.raised, ih]
      constructor
      · rintro (now | ⟨above, entry, below, rfl, raises, later⟩)
        · split at now
          · next raises =>
              rcases (tracks.meet _ _).mp now with old | new
              · exact Or.inl old
              · exact Or.inr ⟨[], first, rest, rfl, raises, new⟩
          · exact Or.inl now
        · exact Or.inr ⟨first :: above, entry, below, rfl, raises, later⟩
      · rintro (old | ⟨above, entry, below, code, raises, later⟩)
        · refine Or.inl ?_
          split
          · exact (tracks.meet _ _).mpr (Or.inl old)
          · exact old
        · cases above with
          | nil =>
              obtain ⟨rfl, rfl⟩ := List.cons.inj code
              refine Or.inl ?_
              rw [if_pos raises]
              exact (tracks.meet _ _).mpr (Or.inr later)
          | cons head above =>
              obtain ⟨rfl, rfl⟩ := List.cons.inj code
              exact Or.inr ⟨above, entry, below, rfl, raises, later⟩

end Tracks

/-! ## Solved facts come from paths -/

section Meaning

variable {s : Body} {bad : F → Prop} {gen keep : Passing}

theorem arises_of_after (tracks : p.Tracks s bad gen keep) {b : BlockId} {above rest : Code} {a : F}
    {atEntry : Prop} (code : s.code b = above ++ rest)
    (top : bad a → Arises s atEntry gen keep ⟨b, s.code b⟩) (now : bad (p.after above a)) :
    Arises s atEntry gen keep ⟨b, rest⟩ := by
  induction above using List.reverseRecOn generalizing rest with
  | nil =>
      rw [List.nil_append] at code
      rw [← code]
      exact top now
  | append_singleton above entry ih =>
      rw [List.append_assoc] at code
      rw [after_snoc] at now
      have inside := Body.mem_allCode_of_code code
      rcases (tracks.transfer entry inside _).mp now with produced | ⟨before, kept⟩
      · exact ⟨_, Springs.complete code produced, Leads.here⟩
      · obtain ⟨start, springs, leads⟩ := ih code before
        exact ⟨start, springs, leads.complete kept⟩

/-- The facts of a run that is under way are only in question where a path shows why. -/
structure Founded (p : Problem F) (s : Body) (bad : F → Prop) (gen keep : Passing)
    (sol : Solution F) : Prop where
  ins : ∀ b, bad (sol.ins.get b) → Arises s (bad p.boundary) gen keep ⟨b, s.code b⟩
  outs : ∀ b, bad (sol.outs.get b) → Arises s (bad p.boundary) gen keep ⟨b, []⟩
  excOuts : ∀ b handler, bad (sol.excOuts.get b) → handler ∈ s.flowGraph.excSuccs b →
    Arises s (bad p.boundary) gen keep ⟨handler, s.code handler⟩

theorem Founded.start (tracks : p.Tracks s bad gen keep) (g : FlowGraph) :
    p.Founded s bad gen keep (p.start g) :=
  ⟨fun _ now => absurd now tracks.initial, fun _ now => absurd now tracks.initial,
    fun _ _ now _ => absurd now tracks.initial⟩

theorem Founded.join (tracks : p.Tracks s bad gen keep) {sol : Solution F}
    (founded : p.Founded s bad gen keep sol) {entry b : BlockId}
    (first : s.layout.entry? = some entry)
    (now : bad (p.joinForward s.flowGraph entry sol b)) :
    Arises s (bad p.boundary) gen keep ⟨b, s.code b⟩ := by
  unfold joinForward at now
  rw [tracks.meetAll, tracks.meetAll] at now
  rcases now with (start | ⟨c, source, out⟩) | ⟨c, source, out⟩
  · split at start
    · next same => exact ⟨_, Springs.entry start (same ▸ first), Leads.here⟩
    · exact absurd start tracks.initial
  · obtain ⟨start, springs, leads⟩ := founded.outs c out
    exact ⟨start, springs, leads.edge (FlowGraph.mem_preds_iff.mp source)⟩
  · exact founded.excOuts c b out (FlowGraph.mem_excPreds_iff.mp source)

theorem Founded.advance [DecidableEq F] (tracks : p.Tracks s bad gen keep)
    (direction : p.direction = .forward) {entry b : BlockId} {rest : List BlockId}
    {sol : Solution F} (quiet : p.Quiet sol) (first : s.layout.entry? = some entry)
    (founded : p.Founded s bad gen keep sol) :
    p.Founded s bad gen keep (p.advance s s.flowGraph entry sol b rest) := by
  have top : bad (p.joinForward s.flowGraph entry sol b) →
      Arises s (bad p.boundary) gen keep ⟨b, s.code b⟩ := founded.join tracks first
  refine ⟨?_, ?_, ?_⟩
  · intro c now
    rw [ins_advance] at now
    split at now
    · next same =>
        unfold newIn at now
        rw [direction] at now
        exact same ▸ top now
    · exact founded.ins c now
  · intro c now
    rw [outs_advance] at now
    split at now
    · next same =>
        unfold newOut at now
        rw [direction] at now
        exact same ▸ arises_of_after tracks (List.append_nil _).symm top now
    · exact founded.outs c now
  · intro c handler now target
    rw [excOuts_advance quiet] at now
    split at now
    · next same =>
        subst same
        unfold newExc at now
        rw [direction] at now
        dsimp only at now
        split at now
        · rcases (tracks.raised _ _ _).mp now with none | ⟨above, one, below, code, raises, bad⟩
          · exact absurd none tracks.initial
          · have inside := Body.mem_allCode_of_code code
            rcases (tracks.transferRaise one inside _).mp bad with produced | ⟨before, kept⟩
            · exact ⟨_, Springs.raise code raises target produced, Leads.here⟩
            · obtain ⟨start, springs, leads⟩ := arises_of_after tracks code top before
              exact ⟨start, springs, leads.raise raises target kept⟩
        · exact absurd now tracks.initial
    · exact founded.excOuts c handler now target

end Meaning

/-! ## Paths carry solved facts along -/

section Carried

variable {s : Body} {bad : F → Prop} {gen keep : Passing} {entry : BlockId} {sol : Solution F}

def BadAt (p : Problem F) (s : Body) (bad : F → Prop) (sol : Solution F) (point : Point) : Prop :=
  s.flowGraph.Reachable point.block ∧ ∃ above, s.code point.block = above ++ point.rest ∧
    bad (p.after above (sol.ins.get point.block))

theorem BadAt.top {b : BlockId} (reachable : s.flowGraph.Reachable b)
    (now : bad (sol.ins.get b)) : p.BadAt s bad sol ⟨b, s.code b⟩ :=
  ⟨reachable, [], rfl, now⟩

theorem BadAt.complete {b : BlockId} {one : InsnId × Insn} {above rest : Code}
    (reachable : s.flowGraph.Reachable b) (code : s.code b = above ++ one :: rest)
    (now : bad (p.transfer one.1 one.2 (p.after above (sol.ins.get b)))) :
    p.BadAt s bad sol ⟨b, rest⟩ := by
  refine ⟨reachable, above ++ [one], ?_, ?_⟩
  · exact code.trans (List.append_cons _ _ _)
  · rw [after_snoc]
    exact now

theorem BadAt.out {b : BlockId}
    (solves : ∀ b, s.flowGraph.Reachable b → p.Solves s s.flowGraph entry sol b)
    (now : p.BadAt s bad sol ⟨b, []⟩) : bad (sol.outs.get b) := by
  obtain ⟨reachable, above, code, now⟩ := now
  have whole : s.code b = above := code.trans (List.append_nil above)
  rw [(solves b reachable).outs, whole]
  exact now

theorem sent_of_transferRaise (tracks : p.Tracks s bad gen keep) {b handler : BlockId}
    {one : InsnId × Insn} {above rest : Code}
    (solves : ∀ b, s.flowGraph.Reachable b → p.Solves s s.flowGraph entry sol b)
    (reachable : s.flowGraph.Reachable b) (target : handler ∈ s.flowGraph.excSuccs b)
    (code : s.code b = above ++ one :: rest) (raises : one.2.canRaise = true)
    (now : bad (p.transferRaise one.1 one.2 (p.after above (sol.ins.get b)))) :
    bad (sol.excOuts.get b) := by
  have handled := (Body.mem_excSuccs_flowGraph.mp target).2.2
  rw [(solves b reachable).excOuts, handled, Option.isSome_some, if_pos rfl, tracks.raised]
  exact Or.inr ⟨above, one, rest, code, raises, now⟩

theorem BadAt.sent (tracks : p.Tracks s bad gen keep) {b handler : BlockId}
    {one : InsnId × Insn} {rest : Code}
    (solves : ∀ b, s.flowGraph.Reachable b → p.Solves s s.flowGraph entry sol b)
    (now : p.BadAt s bad sol ⟨b, one :: rest⟩) (target : handler ∈ s.flowGraph.excSuccs b)
    (raises : one.2.canRaise = true) (kept : keep .raises one) : bad (sol.excOuts.get b) := by
  obtain ⟨reachable, above, code, before⟩ := now
  exact sent_of_transferRaise tracks solves reachable target code raises
    ((tracks.transferRaise _ (Body.mem_allCode_of_code code) _).mpr (Or.inr ⟨before, kept⟩))

theorem BadAt.edge (tracks : p.Tracks s bad gen keep) {b c : BlockId}
    (solves : ∀ b, s.flowGraph.Reachable b → p.Solves s s.flowGraph entry sol b)
    (target : c ∈ s.flowGraph.succs b) (now : p.BadAt s bad sol ⟨b, []⟩) :
    p.BadAt s bad sol ⟨c, s.code c⟩ := by
  have next := now.1.step (IdSet.mem_union.mpr (Or.inl target))
  refine BadAt.top next ?_
  rw [(solves c next).ins]
  unfold joinForward
  rw [tracks.meetAll, tracks.meetAll]
  exact Or.inl (Or.inr ⟨b, FlowGraph.mem_preds_iff.mpr target, now.out solves⟩)

theorem BadAt.handler (tracks : p.Tracks s bad gen keep) {b handler : BlockId}
    (solves : ∀ b, s.flowGraph.Reachable b → p.Solves s s.flowGraph entry sol b)
    (reachable : s.flowGraph.Reachable b) (target : handler ∈ s.flowGraph.excSuccs b)
    (sent : bad (sol.excOuts.get b)) : p.BadAt s bad sol ⟨handler, s.code handler⟩ := by
  have next := reachable.step (IdSet.mem_union.mpr (Or.inr target))
  refine BadAt.top next ?_
  rw [(solves handler next).ins]
  unfold joinForward
  rw [tracks.meetAll]
  exact Or.inr ⟨b, FlowGraph.mem_excPreds_iff.mpr target, sent⟩

theorem badAt_of_springs (tracks : p.Tracks s bad gen keep)
    (solves : ∀ b, s.flowGraph.Reachable b → p.Solves s s.flowGraph entry sol b)
    (setup : s.checkSetup s.flowGraph = .ok entry) {point : Point}
    (springs : Springs s (bad p.boundary) gen point) : p.BadAt s bad sol point := by
  obtain ⟨first, start, all⟩ := Body.checkSetup_eq_ok_iff.mp setup
  cases springs with
  | @entry b boundary isEntry =>
      rw [first] at isEntry
      cases isEntry
      have reachable := all entry (List.mem_of_head? first)
      refine BadAt.top reachable ?_
      rw [(solves entry reachable).ins]
      unfold joinForward
      rw [tracks.meetAll, tracks.meetAll, if_pos rfl]
      exact Or.inl (Or.inl boundary)
  | complete code produced =>
      have reachable := all _ (Body.mem_blocks_of_code code)
      exact BadAt.complete reachable code
        ((tracks.transfer _ (Body.mem_allCode_of_code code) _).mpr (Or.inl produced))
  | raise code raises target produced =>
      have reachable := all _ (Body.mem_blocks_of_code code)
      exact BadAt.handler tracks solves reachable target
        (sent_of_transferRaise tracks solves reachable target code raises
          ((tracks.transferRaise _ (Body.mem_allCode_of_code code) _).mpr (Or.inl produced)))

theorem badAt_of_leads (tracks : p.Tracks s bad gen keep)
    (solves : ∀ b, s.flowGraph.Reachable b → p.Solves s s.flowGraph entry sol b)
    {start point : Point} (leads : Leads s keep start point) (now : p.BadAt s bad sol start) :
    p.BadAt s bad sol point := by
  induction leads with
  | here => exact now
  | complete _ kept ih =>
      obtain ⟨reachable, above, code, before⟩ := ih
      exact BadAt.complete reachable code
        ((tracks.transfer _ (Body.mem_allCode_of_code code) _).mpr (Or.inr ⟨before, kept⟩))
  | raise _ raises target kept ih =>
      exact BadAt.handler tracks solves ih.1 target (ih.sent tracks solves target raises kept)
  | edge _ target ih => exact BadAt.edge tracks solves target ih

end Carried

/-! ## The meaning of a solved fact -/

section Meaning

variable [DecidableEq F] {s : Body} {bad : F → Prop} {gen keep : Passing} {entry : BlockId}
  {Fact : F → Prop} {rank : F → Nat}

theorem badAt_of_arises (tracks : p.Tracks s bad gen keep) (mono : p.MonotoneOn s Fact)
    (order : p.Semilattice Fact rank) (direction : p.direction = .forward)
    (setup : s.checkSetup s.flowGraph = .ok entry) {point : Point}
    (arises : Arises s (bad p.boundary) gen keep point) :
    p.BadAt s bad (p.solved s s.flowGraph entry) point := by
  have solves : ∀ c, s.flowGraph.Reachable c →
      p.Solves s s.flowGraph entry (p.solved s s.flowGraph entry) c :=
    fun _ found => mono.solves order direction found
  obtain ⟨start, springs, leads⟩ := arises
  exact badAt_of_leads tracks solves leads (badAt_of_springs tracks solves setup springs)

/-- In the solved facts something is in question at a point exactly when a path shows why. -/
theorem solved_iff_arises (tracks : p.Tracks s bad gen keep) (mono : p.MonotoneOn s Fact)
    (order : p.Semilattice Fact rank) (direction : p.direction = .forward)
    (setup : s.checkSetup s.flowGraph = .ok entry) {b : BlockId} {above rest : Code}
    (code : s.code b = above ++ rest) :
    bad (p.after above ((p.solved s s.flowGraph entry).ins.get b)) ↔
      Arises s (bad p.boundary) gen keep ⟨b, rest⟩ := by
  have steady := mono.steady order direction entry (g := s.flowGraph)
  have first := (Body.checkSetup_eq_ok_iff.mp setup).1
  constructor
  · -- every visit of the run keeps the facts founded, whether or not it was the last one
    have founded : p.Founded s bad gen keep (p.solved s s.flowGraph entry) :=
      solved_rule order steady (Founded.start tracks s.flowGraph) fun _ _ _ _ progress holds =>
        holds.advance tracks direction progress.quiet first
    exact arises_of_after tracks code (founded.ins b)
  · intro arises
    obtain ⟨_, other, split, now⟩ := badAt_of_arises tracks mono order direction setup arises
    have same : other = above := List.append_cancel_right (split.symm.trans code)
    exact same ▸ now

end Meaning

end Problem

/-! ## Joining paths -/

theorem Leads.trans {s : Body} {free : Passing} {start middle point : Point}
    (first : Leads s free start middle) (second : Leads s free middle point) :
    Leads s free start point := by
  induction second with
  | here => exact first
  | complete _ kept ih => exact ih.complete kept
  | raise _ raises target kept ih => exact ih.raise raises target kept
  | edge _ target ih => exact ih.edge target

namespace Arises

variable {s : Body} {atEntry : Prop} {gen keep : Passing} {b c : BlockId}

theorem edge (arises : Arises s atEntry gen keep ⟨b, []⟩) (target : c ∈ s.flowGraph.succs b) :
    Arises s atEntry gen keep ⟨c, s.code c⟩ := by
  obtain ⟨start, springs, leads⟩ := arises
  exact ⟨start, springs, leads.edge target⟩

theorem raise {entry : InsnId × Insn} {rest : Code}
    (arises : Arises s atEntry gen keep ⟨b, entry :: rest⟩) (raises : entry.2.canRaise = true)
    (target : c ∈ s.flowGraph.excSuccs b) (kept : keep .raises entry) :
    Arises s atEntry gen keep ⟨c, s.code c⟩ := by
  obtain ⟨start, springs, leads⟩ := arises
  exact ⟨start, springs, leads.raise raises target kept⟩

end Arises

theorem Leads.through {s : Body} {free : Passing} {b : BlockId} {code rest : Code}
    (each : ∀ entry ∈ code, free .completes entry) : Leads s free ⟨b, code ++ rest⟩ ⟨b, rest⟩ := by
  induction code with
  | nil => exact Leads.here
  | cons entry code ih =>
      have one : Leads s free ⟨b, entry :: code ++ rest⟩ ⟨b, code ++ rest⟩ :=
        Leads.here.complete (each entry List.mem_cons_self)
      exact one.trans (ih fun other member => each other (List.mem_cons_of_mem entry member))

/-! ## Points on paths -/

theorem suffix_of_leads {s : Body} {free : Passing} {start point : Point}
    (inside : ∃ above, s.code start.block = above ++ start.rest)
    (leads : Leads s free start point) : ∃ above, s.code point.block = above ++ point.rest := by
  induction leads with
  | here => exact inside
  | @complete b entry rest _ _ ih =>
      obtain ⟨above, code⟩ := ih
      refine ⟨above ++ [entry], ?_⟩
      exact code.trans (List.append_cons _ _ _)
  | raise _ _ _ _ _ => exact ⟨[], rfl⟩
  | edge _ _ _ => exact ⟨[], rfl⟩

theorem suffix_of_springs {s : Body} {atEntry : Prop} {gen : Passing} {start : Point}
    (springs : Springs s atEntry gen start) :
    ∃ above, s.code start.block = above ++ start.rest := by
  cases springs with
  | entry _ _ => exact ⟨[], rfl⟩
  | @complete _ above rest entry code _ =>
      exact ⟨above ++ [entry], code.trans (List.append_cons _ _ _)⟩
  | raise _ _ _ _ => exact ⟨[], rfl⟩

theorem Springs.mono {s : Body} {atEntry atTop : Prop} {gen more : Passing} {start : Point}
    (top : atEntry → atTop) (starts : ∀ passage entry, gen passage entry → more passage entry)
    (springs : Springs s atEntry gen start) : Springs s atTop more start := by
  cases springs with
  | entry boundary first => exact Springs.entry (top boundary) first
  | complete code gens => exact Springs.complete code (starts _ _ gens)
  | raise code raises target gens => exact Springs.raise code raises target (starts _ _ gens)

theorem rest_ne_code {s : Body} {b : BlockId} {above rest : Code} {entry : InsnId × Insn}
    (code : s.code b = above ++ entry :: rest) : rest ≠ s.code b := by
  intro same
  have lengths := congrArg List.length code
  rw [← same, List.length_append, List.length_cons] at lengths
  omega

theorem eq_of_same_rest {s : Body} {b : BlockId} {above front rest : Code}
    {entry other : InsnId × Insn} (code : s.code b = above ++ entry :: rest)
    (split : s.code b = front ++ other :: rest) : other = entry := by
  have same : (front ++ [other]) ++ rest = (above ++ [entry]) ++ rest := by
    simpa using split.symm.trans code
  have last := congrArg List.getLast? (List.append_cancel_right same)
  simpa using last

theorem Leads.behind_cases {s : Body} {free : Passing} {start : Point} {b : BlockId}
    {above rest : Code} {entry : InsnId × Insn} (code : s.code b = above ++ entry :: rest)
    (inside : ∃ front, s.code start.block = front ++ start.rest)
    (leads : Leads s free start ⟨b, rest⟩) :
    start = ⟨b, rest⟩ ∨ Leads s free start ⟨b, entry :: rest⟩ ∧ free .completes entry := by
  cases leads with
  | here => exact Or.inl rfl
  | @complete _ other _ before passes =>
      obtain ⟨front, split⟩ := suffix_of_leads inside before
      obtain rfl := eq_of_same_rest code split
      exact Or.inr ⟨before, passes⟩
  | raise _ _ _ _ => exact absurd rfl (rest_ne_code code)
  | edge _ _ => exact absurd rfl (rest_ne_code code)

theorem arises_behind_iff {s : Body} {atEntry : Prop} {gen keep : Passing} {b : BlockId}
    {above rest : Code} {entry : InsnId × Insn} (code : s.code b = above ++ entry :: rest) :
    Arises s atEntry gen keep ⟨b, rest⟩ ↔ gen .completes entry ∨
      Arises s atEntry gen keep ⟨b, entry :: rest⟩ ∧ keep .completes entry := by
  constructor
  · rintro ⟨start, springs, leads⟩
    rcases leads.behind_cases code (suffix_of_springs springs) with rfl | ⟨before, kept⟩
    · generalize point_eq : (⟨b, rest⟩ : Point) = point at springs
      cases springs with
      | entry _ _ =>
          cases point_eq
          exact absurd rfl (rest_ne_code code)
      | complete split starts =>
          cases point_eq
          exact Or.inl (eq_of_same_rest code split ▸ starts)
      | raise _ _ _ _ =>
          cases point_eq
          exact absurd rfl (rest_ne_code code)
    · exact Or.inr ⟨⟨start, springs, before⟩, kept⟩
  · rintro (starts | ⟨⟨start, springs, leads⟩, kept⟩)
    · exact ⟨_, Springs.complete code starts, Leads.here⟩
    · exact ⟨start, springs, leads.complete kept⟩

end FramePlacement
