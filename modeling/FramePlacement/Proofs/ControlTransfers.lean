import FramePlacement.FlowGraph.Table
import FramePlacement.Proofs.Verified
/-!
# The graph of a scope holds its control transfers

A block machine runs the code of one block.  What an instruction may do to control is read off the
instruction alone, whatever the values are: a call runs on or raises, a branch goes either way.  The
machine is in the block until control goes to another one, is thrown to the handler, or leaves the
activation.

Where terminators stand only at the ends of blocks, the machine comes to every instruction of its
block (`Body.Orderly.runs_iff`).  The edges of a block and its being an exit are then exactly what
the machine can do (`FlowTable.compute_transfers`).
-/

set_option autoImplicit false

namespace FramePlacement

/-! ## The block machine -/

inductive Control where
  | next
  | jump (dest : BlockId)
  | ret
  | raise
deriving DecidableEq

def Insn.controls : Insn → List Control
  | call _ _ _ _ _ => [.next, .raise]
  | jump dest => [.jump dest]
  | branch _ onTrue onFalse => [.jump onTrue, .jump onFalse]
  | ret _ => [.ret]
  | raise _ => [.raise]
  | receiveArg _ _ | copy _ _ | receiveException _ | allocFrame | storeFrame _ | loadFrame _ =>
      [.next]

inductive Whereabouts where
  | inside (rest : Code)
  | goes (dest : BlockId)
  | thrown (handler : BlockId)
  | left

namespace Body

def placeAfter (s : Body) (b : BlockId) (rest : Code) : Control → Whereabouts
  | .next => .inside rest
  | .jump dest => .goes dest
  | .ret => .left
  | .raise =>
      match s.handler? b with
      | some handler => .thrown handler
      | none => .left

def placeBelow (s : Body) (b : BlockId) : Whereabouts :=
  match s.layout.nextBlock? b with
  | some next => .goes next
  | none => .left

/-- Where one step of the machine of block `b` can take control from before some code. -/
def machineSteps (s : Body) (b : BlockId) : Code → List Whereabouts
  | [] => [s.placeBelow b]
  | entry :: rest => entry.2.controls.map (s.placeAfter b rest)

inductive Runs (s : Body) (b : BlockId) : Code → Prop where
  | top : Runs s b (s.code b)
  | step {code rest : Code} : Runs s b code → .inside rest ∈ s.machineSteps b code → Runs s b rest

def CanEnd (s : Body) (b : BlockId) (place : Whereabouts) : Prop :=
  ∃ code, s.Runs b code ∧ place ∈ s.machineSteps b code

end Body

/-! ## What instructions may do -/

namespace Insn

variable {insn : Insn}

theorem next_mem_controls_iff : .next ∈ insn.controls ↔ insn.isTerminator = false := by
  cases insn <;> simp [controls, isTerminator]

theorem raise_mem_controls_iff : .raise ∈ insn.controls ↔ insn.canRaise = true := by
  cases insn <;> simp [controls, canRaise]

theorem jump_mem_controls_iff {dest : BlockId} :
    .jump dest ∈ insn.controls ↔ dest ∈ insn.targets := by
  cases insn with
  | branch cond onTrue onFalse =>
      by_cases same : onTrue = onFalse
      · simp [controls, targets, same]
      · simp [controls, targets, same]
  | _ => simp [controls, targets]

theorem ret_mem_controls_iff :
    .ret ∈ insn.controls ↔ insn.isExit = true ∧ insn.canRaise = false := by
  cases insn <;> simp [controls, isExit, canRaise]

theorem isTerminator_of_targets {dest : BlockId} (target : dest ∈ insn.targets) :
    insn.isTerminator = true := by
  cases insn <;> first | rfl | cases target

theorem isTerminator_of_isExit (leaves : insn.isExit = true) : insn.isTerminator = true := by
  cases insn <;> first | rfl | cases leaves

end Insn

/-! ## Steps of the machine -/

namespace Body

variable {s : Body} {b c : BlockId} {code rest below : Code} {control : Control}

theorem placeAfter_eq_inside_iff :
    s.placeAfter b below control = .inside rest ↔ control = .next ∧ below = rest := by
  cases control <;> cases handled : s.handler? b <;> simp [placeAfter, handled]

theorem placeAfter_eq_goes_iff : s.placeAfter b below control = .goes c ↔ control = .jump c := by
  cases control <;> cases handled : s.handler? b <;> simp [placeAfter, handled]

theorem placeAfter_eq_thrown_iff :
    s.placeAfter b below control = .thrown c ↔ control = .raise ∧ s.handler? b = some c := by
  cases control <;> cases handled : s.handler? b <;> simp [placeAfter, handled]

theorem placeAfter_eq_left_iff : s.placeAfter b below control = .left ↔
    control = .ret ∨ control = .raise ∧ s.handler? b = none := by
  cases control <;> cases handled : s.handler? b <;> simp [placeAfter, handled]

theorem inside_mem_machineSteps_iff : .inside rest ∈ s.machineSteps b code ↔
    ∃ entry, code = entry :: rest ∧ entry.2.isTerminator = false := by
  cases code with
  | nil => cases next : s.layout.nextBlock? b <;> simp [machineSteps, placeBelow, next]
  | cons entry below =>
      simp only [machineSteps, List.mem_map, placeAfter_eq_inside_iff, List.cons.injEq]
      simp [← Insn.next_mem_controls_iff, and_comm]

theorem goes_mem_machineSteps_iff : .goes c ∈ s.machineSteps b code ↔
    code = [] ∧ s.layout.nextBlock? b = some c ∨
      ∃ entry rest, code = entry :: rest ∧ c ∈ entry.2.targets := by
  cases code with
  | nil => cases next : s.layout.nextBlock? b <;> simp [machineSteps, placeBelow, next, eq_comm]
  | cons entry below =>
      simp only [machineSteps, List.mem_map, placeAfter_eq_goes_iff]
      simp [← Insn.jump_mem_controls_iff]

theorem thrown_mem_machineSteps_iff : .thrown c ∈ s.machineSteps b code ↔
    s.handler? b = some c ∧ ∃ entry rest, code = entry :: rest ∧ entry.2.canRaise = true := by
  cases code with
  | nil => cases next : s.layout.nextBlock? b <;> simp [machineSteps, placeBelow, next]
  | cons entry below =>
      simp only [machineSteps, List.mem_map, placeAfter_eq_thrown_iff]
      simp [← Insn.raise_mem_controls_iff, and_comm]

theorem left_mem_machineSteps_iff : .left ∈ s.machineSteps b code ↔
    code = [] ∧ s.layout.nextBlock? b = none ∨ ∃ entry rest, code = entry :: rest ∧
      (entry.2.isExit = true ∧ entry.2.canRaise = false ∨
        entry.2.canRaise = true ∧ s.handler? b = none) := by
  cases code with
  | nil => cases next : s.layout.nextBlock? b <;> simp [machineSteps, placeBelow, next]
  | cons entry below =>
      simp only [machineSteps, List.mem_map, placeAfter_eq_left_iff, ← Insn.ret_mem_controls_iff,
        ← Insn.raise_mem_controls_iff]
      simp [and_or_left, exists_or]

/-! ## Runs of the machine -/

/-- The machine comes before the rest of its block when nothing above sends control elsewhere. -/
theorem runs_iff : s.Runs b rest ↔
    ∃ above, s.code b = above ++ rest ∧ ∀ one ∈ above, one.2.isTerminator = false := by
  constructor
  · intro runs
    induction runs with
    | top => exact ⟨[], rfl, fun one member => absurd member List.not_mem_nil⟩
    | step _ moves ih =>
        obtain ⟨above, code, calm⟩ := ih
        obtain ⟨entry, rfl, runsOn⟩ := inside_mem_machineSteps_iff.mp moves
        refine ⟨above ++ [entry], code.trans (List.append_cons _ _ _), ?_⟩
        intro one member
        rcases List.mem_append.mp member with before | last
        · exact calm one before
        · rw [List.mem_singleton.mp last]
          exact runsOn
  · rintro ⟨above, code, calm⟩
    induction above using List.reverseRecOn generalizing rest with
    | nil =>
        rw [List.nil_append] at code
        exact code ▸ Runs.top
    | append_singleton above entry ih =>
        rw [List.append_assoc] at code
        have before := ih code fun one member => calm one (List.mem_append_left _ member)
        have runsOn := calm entry (List.mem_append_right _ List.mem_cons_self)
        exact before.step (inside_mem_machineSteps_iff.mpr ⟨entry, rfl, runsOn⟩)

theorem Orderly.runs_cons_iff (orderly : s.Orderly) {entry : InsnId × Insn} :
    s.Runs b (entry :: rest) ↔ ∃ above, s.code b = above ++ entry :: rest := by
  rw [runs_iff]
  refine exists_congr fun above => and_iff_left_of_imp fun code one member => ?_
  obtain ⟨front, back, rfl⟩ := List.append_of_mem member
  by_contra terminates
  rw [List.append_assoc] at code
  have last := orderly.last code (Bool.not_eq_false _ ▸ terminates)
  cases List.append_eq_nil_iff.mp last |>.2

theorem Orderly.runs_nil_iff (orderly : s.Orderly) : s.Runs b [] ↔ s.terminator? b = none := by
  rw [runs_iff]
  constructor
  · rintro ⟨above, code, calm⟩
    rw [List.append_nil] at code
    exact terminator?_of_running (code ▸ calm)
  · intro none
    refine ⟨s.code b, (List.append_nil _).symm, fun one member => ?_⟩
    by_contra terminates
    obtain ⟨above, rest, code⟩ := List.append_of_mem member
    have ends := Bool.not_eq_false _ ▸ terminates
    have last := orderly.last code ends
    rw [terminator?_eq_some_iff.mpr ⟨ends, above, one.1, last ▸ code⟩] at none
    cases none

/-! ## How runs end -/

theorem Orderly.terminator?_eq_some_iff (orderly : s.Orderly) {insn : Insn} :
    s.terminator? b = some insn ↔
      insn.isTerminator = true ∧ ∃ i rest, s.Runs b ((i, insn) :: rest) := by
  rw [Body.terminator?_eq_some_iff]
  refine and_congr_right fun terminates => ?_
  constructor
  · rintro ⟨front, i, code⟩
    exact ⟨i, [], orderly.runs_cons_iff.mpr ⟨front, code⟩⟩
  · rintro ⟨i, rest, runs⟩
    obtain ⟨above, code⟩ := orderly.runs_cons_iff.mp runs
    have last := orderly.last code terminates
    exact ⟨above, i, last ▸ code⟩

theorem Orderly.mayRaise_iff (orderly : s.Orderly) : s.mayRaise b = true ↔
    ∃ entry rest, s.Runs b (entry :: rest) ∧ entry.2.canRaise = true := by
  unfold mayRaise
  rw [List.any_eq_true]
  constructor
  · rintro ⟨entry, member, raises⟩
    obtain ⟨above, rest, code⟩ := List.append_of_mem member
    exact ⟨entry, rest, orderly.runs_cons_iff.mpr ⟨above, code⟩, raises⟩
  · rintro ⟨entry, rest, runs, raises⟩
    obtain ⟨above, code⟩ := orderly.runs_cons_iff.mp runs
    exact ⟨entry, by rw [code]; simp, raises⟩

theorem Orderly.canEnd_goes_iff (orderly : s.Orderly) :
    s.CanEnd b (.goes c) ↔ c ∈ s.flowTargets b := by
  simp only [CanEnd, goes_mem_machineSteps_iff, flowTargets]
  constructor
  · rintro ⟨code, runs, ⟨rfl, next⟩ | ⟨entry, rest, rfl, target⟩⟩
    · rw [orderly.runs_nil_iff.mp runs]
      exact Option.mem_toList.mpr next
    · have ends := orderly.terminator?_eq_some_iff.mpr
        ⟨Insn.isTerminator_of_targets target, entry.1, rest, runs⟩
      rw [ends]
      exact target
  · intro target
    split at target
    · next insn ends =>
        obtain ⟨_, i, rest, runs⟩ := orderly.terminator?_eq_some_iff.mp ends
        exact ⟨_, runs, Or.inr ⟨_, rest, rfl, target⟩⟩
    · next none =>
        exact ⟨[], orderly.runs_nil_iff.mpr none, Or.inl ⟨rfl, Option.mem_toList.mp target⟩⟩

theorem Orderly.canEnd_thrown_iff (orderly : s.Orderly) :
    s.CanEnd b (.thrown c) ↔ s.mayRaise b = true ∧ s.handler? b = some c := by
  simp only [CanEnd, thrown_mem_machineSteps_iff, orderly.mayRaise_iff]
  constructor
  · rintro ⟨_, runs, handled, entry, rest, rfl, raises⟩
    exact ⟨⟨entry, rest, runs, raises⟩, handled⟩
  · rintro ⟨⟨entry, rest, runs, raises⟩, handled⟩
    exact ⟨_, runs, handled, entry, rest, rfl, raises⟩

/-- Control can leave from the end of the block by a return, by a raise that nothing catches, or by
falling off the last block. -/
theorem leavesAtEnd_iff : s.leavesAtEnd b = true ↔
    (∃ insn, s.terminator? b = some insn ∧ insn.isExit = true ∧
      (insn.canRaise = true → s.handler? b = none)) ∨
    s.terminator? b = none ∧ s.layout.nextBlock? b = none := by
  unfold leavesAtEnd
  cases s.terminator? b with
  | none => simp
  | some insn => cases insn <;> simp [Insn.isExit, Insn.isRaise, Insn.canRaise]

theorem Orderly.canEnd_left_iff (orderly : s.Orderly) :
    s.CanEnd b .left ↔ s.leaves b = true := by
  have raised : s.leaves b = true ↔
      s.mayRaise b = true ∧ s.handler? b = none ∨ s.leavesAtEnd b = true := by
    simp [leaves]
  rw [raised, leavesAtEnd_iff, orderly.mayRaise_iff]
  simp only [CanEnd, left_mem_machineSteps_iff]
  constructor
  · rintro ⟨_, runs, ⟨rfl, last⟩ | ⟨entry, rest, rfl, ⟨leaves, calm⟩ | ⟨raises, uncaught⟩⟩⟩
    · exact Or.inr (Or.inr ⟨orderly.runs_nil_iff.mp runs, last⟩)
    · refine Or.inr (Or.inl ⟨entry.2, ?_, leaves, fun raises => ?_⟩)
      · exact orderly.terminator?_eq_some_iff.mpr
          ⟨Insn.isTerminator_of_isExit leaves, entry.1, rest, runs⟩
      · rw [calm] at raises
        cases raises
    · exact Or.inl ⟨⟨entry, rest, runs, raises⟩, uncaught⟩
  · rintro (⟨⟨entry, rest, runs, raises⟩, uncaught⟩ | ⟨insn, ends, leaves, uncaught⟩ | ⟨none, last⟩)
    · exact ⟨_, runs, Or.inr ⟨entry, rest, rfl, Or.inr ⟨raises, uncaught⟩⟩⟩
    · obtain ⟨_, i, rest, runs⟩ := orderly.terminator?_eq_some_iff.mp ends
      refine ⟨_, runs, Or.inr ⟨_, rest, rfl, ?_⟩⟩
      cases raises : insn.canRaise with
      | false => exact Or.inl ⟨leaves, rfl⟩
      | true => exact Or.inr ⟨rfl, uncaught raises⟩
    · exact ⟨[], orderly.runs_nil_iff.mpr none, Or.inl ⟨rfl, last⟩⟩

end Body

/-! ## What the table enters -/

/-- A table has the edges of a graph, at both of their ends. -/
structure FlowTable.Shows (t : FlowTable) (g : FlowGraph) : Prop where
  entry : t.entry? = g.entry?
  succs : ∀ b c, c ∈ t.succs b ↔ (b, c) ∈ g.edges
  preds : ∀ b c, b ∈ t.preds c ↔ (b, c) ∈ g.edges
  excSuccs : ∀ b c, c ∈ t.excSuccs b ↔ (b, c) ∈ g.excEdges
  excPreds : ∀ b c, b ∈ t.excPreds c ↔ (b, c) ∈ g.excEdges

namespace FlowTable

variable {t : FlowTable} {g : FlowGraph} {s : Body} {b c : BlockId}

theorem shows_empty (first : Option BlockId) (exits : List BlockId) :
    Shows { entry? := first } { entry? := first, exits } where
  entry := rfl
  succs b c := by simp [FlowTable.succs]
  preds b c := by simp [FlowTable.preds]
  excSuccs b c := by simp [FlowTable.excSuccs]
  excPreds b c := by simp [FlowTable.excPreds]

theorem node_addEdge (x : BlockId) : (t.addEdge b c).nodes.get x = { t.nodes.get x with
    preds := if x = c then (t.nodes.get x).preds.insert b else (t.nodes.get x).preds
    succs := if x = b then (t.nodes.get x).succs.insert c else (t.nodes.get x).succs } := by
  simp only [FlowTable.addEdge, update, IdMap.get_set]
  by_cases source : x = b <;> by_cases target : x = c <;> by_cases loop : b = c <;> simp_all

theorem node_addExcEdge (x : BlockId) : (t.addExcEdge b c).nodes.get x =
    { t.nodes.get x with
      excPreds := if x = c then (t.nodes.get x).excPreds.insert b else (t.nodes.get x).excPreds
      excSuccs := if x = b then (t.nodes.get x).excSuccs.insert c
        else (t.nodes.get x).excSuccs } := by
  simp only [FlowTable.addExcEdge, update, IdMap.get_set]
  by_cases source : x = b <;> by_cases target : x = c <;> by_cases loop : b = c <;> simp_all

theorem mem_insertIf {set : IdSet} {here : Prop} [Decidable here] {x y : Nat} :
    y ∈ (if here then set.insert x else set) ↔ y ∈ set ∨ here ∧ y = x := by
  by_cases holds : here <;> simp [holds, or_comm]

theorem Shows.addEdge (holds : t.Shows g) (b c : BlockId) :
    (t.addEdge b c).Shows { g with edges := g.edges ++ [(b, c)] } where
  entry := holds.entry
  succs x y := by
    rw [FlowTable.succs, node_addEdge, mem_insertIf, List.mem_append, ← holds.succs,
      List.mem_singleton, Prod.mk.injEq]
    rfl
  preds x y := by
    rw [FlowTable.preds, node_addEdge, mem_insertIf, List.mem_append, ← holds.preds,
      List.mem_singleton, Prod.mk.injEq, and_comm]
    rfl
  excSuccs x y := by
    rw [FlowTable.excSuccs, node_addEdge]
    exact holds.excSuccs x y
  excPreds x y := by
    rw [FlowTable.excPreds, node_addEdge]
    exact holds.excPreds x y

theorem Shows.addExcEdge (holds : t.Shows g) (b c : BlockId) :
    (t.addExcEdge b c).Shows { g with excEdges := g.excEdges ++ [(b, c)] } where
  entry := holds.entry
  succs x y := by
    rw [FlowTable.succs, node_addExcEdge]
    exact holds.succs x y
  preds x y := by
    rw [FlowTable.preds, node_addExcEdge]
    exact holds.preds x y
  excSuccs x y := by
    rw [FlowTable.excSuccs, node_addExcEdge, mem_insertIf, List.mem_append, ← holds.excSuccs,
      List.mem_singleton, Prod.mk.injEq]
    rfl
  excPreds x y := by
    rw [FlowTable.excPreds, node_addExcEdge, mem_insertIf, List.mem_append, ← holds.excPreds,
      List.mem_singleton, Prod.mk.injEq, and_comm]
    rfl

theorem Shows.addEdges (holds : t.Shows g) (b : BlockId) (targets : List BlockId) :
    (targets.foldl (fun t target => t.addEdge b target) t).Shows
      { g with edges := g.edges ++ targets.map fun target => (b, target) } := by
  induction targets generalizing t g with
  | nil =>
      rw [List.map_nil, List.append_nil]
      exact holds
  | cons target rest ih =>
      have later := ih (holds.addEdge b target)
      rw [List.append_assoc] at later
      exact later

theorem Shows.addExit (holds : t.Shows g) (b : BlockId) : (t.addExit b).Shows g := by
  unfold FlowTable.addExit
  split
  · exact holds
  · exact ⟨holds.entry, holds.succs, holds.preds, holds.excSuccs, holds.excPreds⟩

theorem Shows.enterRaise (holds : t.Shows g) (s : Body) (b : BlockId) :
    (enterRaise s t b).Shows
      { g with excEdges := g.excEdges ++ (s.excTargets b).map fun handler => (b, handler) } := by
  unfold FlowTable.enterRaise Body.excTargets
  split
  · cases s.handler? b with
    | some handler => exact holds.addExcEdge b handler
    | none => simpa using holds.addExit b
  · simpa using holds

theorem Shows.enterEnd (holds : t.Shows g) (s : Body) (b : BlockId) :
    (enterEnd s t b).Shows
      { g with edges := g.edges ++ (s.flowTargets b).map fun target => (b, target) } := by
  unfold FlowTable.enterEnd Body.flowTargets
  cases s.terminator? b with
  | some insn =>
      have linked := holds.addEdges b insn.targets
      dsimp only
      split
      · exact linked.addExit b
      · exact linked
  | none =>
      cases s.layout.nextBlock? b with
      | some next => exact holds.addEdge b next
      | none => simpa using holds.addExit b

theorem Shows.foldl_analyze (holds : t.Shows g) (s : Body) (blocks : List BlockId) :
    (blocks.foldl (analyze s) t).Shows
      { g with
        edges := g.edges ++ blocks.flatMap fun b => (s.flowTargets b).map fun target => (b, target)
        excEdges := g.excEdges ++
          blocks.flatMap fun b => (s.excTargets b).map fun handler => (b, handler) } := by
  induction blocks generalizing t g with
  | nil => simpa using holds
  | cons b rest ih =>
      have later := ih ((holds.enterRaise s b).enterEnd s b)
      simp only [List.append_assoc] at later
      exact later

/-! ## The exits of a table -/

theorem exits_addExit :
    (t.addExit b).exits = if b ∈ t.exits then t.exits else t.exits ++ [b] := by
  unfold addExit
  split <;> rfl

theorem exits_addEdges (b : BlockId) (targets : List BlockId) :
    (targets.foldl (fun t target => t.addEdge b target) t).exits = t.exits := by
  induction targets generalizing t with
  | nil => rfl
  | cons target rest ih => exact ih

theorem exits_enterRaise : (enterRaise s t b).exits =
    if s.mayRaise b = true ∧ s.handler? b = none then (t.addExit b).exits else t.exits := by
  unfold enterRaise
  cases s.mayRaise b <;> cases s.handler? b <;> rfl

theorem exits_enterEnd :
    (enterEnd s t b).exits = if s.leavesAtEnd b then (t.addExit b).exits else t.exits := by
  unfold enterEnd Body.leavesAtEnd
  cases s.terminator? b with
  | some insn =>
      -- of the instructions that leave the activation only a raise can raise
      have same : (insn.isExit && !(insn.canRaise && (s.handler? b).isSome)) =
          (insn.isExit && !(insn.isRaise && (s.handler? b).isSome)) := by
        cases insn <;> rfl
      dsimp only
      rw [same]
      split
      · rw [exits_addExit, exits_addExit, exits_addEdges]
      · exact exits_addEdges b insn.targets
  | none => cases s.layout.nextBlock? b <;> rfl

theorem exits_analyze (fresh : ¬ b ∈ t.exits) :
    (analyze s t b).exits = t.exits ++ [b].filter s.leaves := by
  have raised : s.leaves b = (decide (s.mayRaise b = true ∧ s.handler? b = none) ||
      s.leavesAtEnd b) := by
    unfold Body.leaves
    cases s.mayRaise b <;> cases s.handler? b <;> rfl
  have added : (t.addExit b).exits = t.exits ++ [b] := exits_addExit.trans (if_neg fresh)
  unfold analyze
  rw [exits_enterEnd, exits_addExit, exits_enterRaise, added, List.filter_singleton, raised]
  by_cases throws : s.mayRaise b = true ∧ s.handler? b = none
  · cases s.leavesAtEnd b <;> simp [throws]
  · cases s.leavesAtEnd b <;> simp [throws, fresh]

theorem exits_foldl_analyze {blocks : List BlockId} (distinct : blocks.Nodup)
    (fresh : ∀ b ∈ blocks, ¬ b ∈ t.exits) :
    (blocks.foldl (analyze s) t).exits = t.exits ++ blocks.filter s.leaves := by
  induction blocks generalizing t with
  | nil => simp
  | cons b rest ih =>
      obtain ⟨absent, others⟩ := List.nodup_cons.mp distinct
      have first := exits_analyze (s := s) (fresh b List.mem_cons_self)
      rw [List.foldl_cons, ih others, first, List.append_assoc, ← List.filter_append,
        List.singleton_append]
      intro c member
      rw [first, List.mem_append, not_or]
      refine ⟨fresh c (List.mem_cons_of_mem b member), fun among => absent ?_⟩
      exact List.mem_singleton.mp (List.mem_filter.mp among).1 ▸ member

/-! ## The whole table -/

theorem compute_shows (old : FlowTable) (s : Body) : (old.compute s).Shows s.flowGraph :=
  (shows_empty s.layout.entry? (s.layout.blocks.filter s.leaves)).foldl_analyze s s.layout.blocks

theorem exits_compute (old : FlowTable) (s : Body) :
    (old.compute s).exits = s.layout.blocks.filter s.leaves :=
  exits_foldl_analyze s.layout.blocks_nodup fun _ _ => List.not_mem_nil

/-- The table of a scope holds exactly the transfers of its block machines.  A block is the normal
successor of another when the machine can go there, its successor along an exception edge when the
machine can be thrown there, and an exit when the machine can leave the activation.  Predecessors
are the converse of successors, each exit is listed once, and the graph that the analyses read has
the same edges and exits. -/
theorem compute_transfers (old : FlowTable) {s : Body} (orderly : s.Orderly) :
    (∀ b ∈ s.layout.blocks, ∀ c,
      (c ∈ (old.compute s).succs b ↔ s.CanEnd b (.goes c)) ∧
        (c ∈ (old.compute s).excSuccs b ↔ s.CanEnd b (.thrown c))) ∧
      (∀ b, b ∈ (old.compute s).exits ↔ b ∈ s.layout.blocks ∧ s.CanEnd b .left) ∧
      (old.compute s).exits.Nodup ∧
      (∀ b c, (b ∈ (old.compute s).preds c ↔ c ∈ (old.compute s).succs b) ∧
        (b ∈ (old.compute s).excPreds c ↔ c ∈ (old.compute s).excSuccs b)) ∧
      (old.compute s).Shows s.flowGraph ∧ (old.compute s).exits = s.flowGraph.exits := by
  have holds := old.compute_shows s
  refine ⟨fun b listed c => ⟨?_, ?_⟩, fun b => ?_, ?_, fun b c => ⟨?_, ?_⟩, holds, ?_⟩
  · rw [holds.succs, orderly.canEnd_goes_iff, ← FlowGraph.mem_targetsIn]
    exact Body.mem_succs_flowGraph.trans (and_iff_right listed)
  · rw [holds.excSuccs, orderly.canEnd_thrown_iff, ← FlowGraph.mem_targetsIn]
    exact Body.mem_excSuccs_flowGraph.trans (and_iff_right listed)
  · rw [exits_compute, List.mem_filter, orderly.canEnd_left_iff]
  · rw [exits_compute]
    exact s.layout.blocks_nodup.filter _
  · exact (holds.preds b c).trans (holds.succs b c).symm
  · exact (holds.excPreds b c).trans (holds.excSuccs b c).symm
  · exact exits_compute old s

end FlowTable

/-- A method that passes an exception on, and falls off its end when there is none. -/
def rescuing : Body where
  name := "rescuing"
  kind := .method
  layout := (({} : Layout).appendBlock 0 |>.appendBlock 1 |>.appendBlock 2 |>.appendBlock 3
    |>.appendInsn 0 0 |>.appendInsn 1 0 |>.appendInsn 2 2 |>.appendInsn 3 2
    |>.appendInsn 4 3).renumber
  handlers := #[some 2, some 3, none, none]
  insns := #[.call (some 0) .selfValue "fetch" [] none, .branch (.var 0) 1 3, .receiveException 1,
    .raise (.var 1), .call none .selfValue "log" [.var 0] none]
  vars := ((({} : VarTable).intern (.named "found" 0)).2.intern (.named "error" 0)).2

theorem compute_transfers_rescuing :
    rescuing.Orderly ∧ (FlowTable.compute {} rescuing).exits = [2, 3] ∧
      (rescuing.CanEnd 0 (.goes 1) ∧ rescuing.CanEnd 0 (.goes 3) ∧ rescuing.CanEnd 0 (.thrown 2)) ∧
      (rescuing.CanEnd 1 (.goes 2) ∧ ¬ rescuing.CanEnd 1 (.thrown 3)) ∧
      rescuing.CanEnd 3 .left ∧ ¬ rescuing.CanEnd 0 .left := by
  have orderly : rescuing.Orderly := Body.orderly_of_verify (by decide)
  obtain ⟨transfers, exits, -⟩ := FlowTable.compute_transfers {} orderly
  have first := transfers 0 (by decide)
  have second := transfers 1 (by decide)
  refine ⟨orderly, by decide, ⟨?_, ?_, ?_⟩, ⟨?_, ?_⟩, ?_, ?_⟩
  · exact (first 1).1.mp (by decide)
  · exact (first 3).1.mp (by decide)
  · exact (first 2).2.mp (by decide)
  · exact (second 2).1.mp (by decide)
  · exact fun thrown => absurd ((second 3).2.mpr thrown) (by decide)
  · exact ((exits 3).mp (by decide)).2
  · exact fun left => absurd ((exits 0).mpr ⟨by decide, left⟩) (by decide)

end FramePlacement
