import FramePlacement.Proofs.Allocation
import FramePlacement.Proofs.CaptureSummaries
import FramePlacement.Proofs.Insertions
/-!
# What the verifier finds in a placed scope

A placed scope breaks no structural rule that the scope before it kept (`Body.Tidy`).  The rules
that are left to break are two: every block of the layout has to be reachable, which the analyses
ask for, and terminators have to stand at the ends of their blocks, which the verifier asks for.  A
strict run succeeds exactly on the scopes that keep these two, and otherwise names the first block
that breaks one (`Scope.runAlone_accepts`).
-/

set_option autoImplicit false

namespace FramePlacement

/-! ## The first of a list -/

def FirstOf {α : Type} (l : List α) (p : α → Prop) (x : α) : Prop :=
  ∃ before after, l = before ++ x :: after ∧ p x ∧ ∀ y ∈ before, ¬ p y

theorem forall_or_firstOf {α : Type} (l : List α) (p : α → Prop) :
    (∀ x ∈ l, ¬ p x) ∨ ∃ x, FirstOf l p x := by
  induction l with
  | nil => exact Or.inl fun x member => absurd member List.not_mem_nil
  | cons x rest ih =>
      by_cases here : p x
      · exact Or.inr ⟨x, [], rest, rfl, here, fun y member => absurd member List.not_mem_nil⟩
      · rcases ih with none | ⟨y, before, after, rfl, holds, earlier⟩
        · exact Or.inl (List.forall_mem_cons.mpr ⟨here, none⟩)
        · exact Or.inr ⟨y, x :: before, after, rfl, holds, List.forall_mem_cons.mpr ⟨here, earlier⟩⟩

namespace Variable

variable {x : Variable}

theorem isTemporary_of_isOwn (own : x.isOwn = true) : x.isTemporary = false := by
  cases x with
  | named _ _ => rfl
  | temporary _ => cases own

theorem isTemporary_of_isEnclosing (encloses : x.isEnclosing = true) : x.isTemporary = false := by
  cases x with
  | named _ _ => rfl
  | temporary _ => cases encloses

end Variable

namespace Body

variable {s t : Body} {b : BlockId}

/-! ## Terminators in the middle of a block -/

def TerminatorInside (s : Body) (b : BlockId) : Prop :=
  ∃ above entry next rest, s.code b = above ++ entry :: next :: rest ∧
    entry.2.isTerminator = true

/-- New frame instructions neither bring a terminator into the middle of a block nor take one away
from there. -/
theorem Extends.terminatorInside_iff (extend : s.Extends t) :
    t.TerminatorInside b ↔ s.TerminatorInside b := by
  constructor
  · rintro ⟨above, entry, next, rest, code, ends⟩
    have plain : entry.2.isFrameInsn = false := by
      cases frame : entry.2.isFrameInsn with
      | false => rfl
      | true =>
          rw [Insn.isTerminator_of_frame frame] at ends
          cases ends
    have old := extend.split code (extend.owns_of_plain code plain)
    cases tail : (next :: rest).filter s.owns with
    | cons later more =>
        rw [tail] at old
        exact ⟨_, entry, later, more, old, ends⟩
    | nil =>
        -- then the terminator is the last old instruction, and so it is the last one in both scopes
        rw [tail] at old
        have same := extend.terminator b
        have last : s.terminator? b = some entry.2 := by
          unfold terminator? lastInsn?
          rw [old, List.getLast?_concat, Option.map_some, Option.filter_some, if_pos ends]
        rw [last] at same
        unfold terminator? lastInsn? at same
        obtain ⟨found, terminates⟩ := Option.filter_eq_some_iff.mp same
        obtain ⟨final, isLast, sameInsn⟩ := Option.map_eq_some_iff.mp found
        have shape : t.code b = (above ++ [entry]) ++ (next :: rest) := by rw [code]; simp
        rw [shape, List.getLast?_append_of_ne_nil _ (List.cons_ne_nil next rest)] at isLast
        have member : final ∈ next :: rest := List.mem_of_getLast? isLast
        have finalPlain : final.2.isFrameInsn = false := by rw [sameInsn]; exact plain
        have inside : final ∈ t.code b := by rw [shape]; exact List.mem_append_right _ member
        obtain ⟨front, back, split⟩ := List.append_of_mem inside
        have own := extend.owns_of_plain split finalPlain
        have kept := List.mem_filter.mpr ⟨member, own⟩
        rw [tail] at kept
        cases kept
  · rintro ⟨above, entry, next, rest, code, ends⟩
    rw [← extend.code] at code
    obtain ⟨front, back, split, _, tail⟩ := List.filter_eq_append_iff.mp code
    obtain ⟨skipped, more, rfl, _, _, later⟩ := List.filter_eq_cons_iff.mp tail
    cases more with
    | nil => cases later
    | cons follower others =>
        refine ⟨front ++ skipped, entry, follower, others, ?_, ends⟩
        rw [split, List.append_assoc]

theorem Extends.firstTerminatorInside (extend : s.Extends t)
    (first : FirstOf s.layout.blocks s.TerminatorInside b) :
    FirstOf t.layout.blocks t.TerminatorInside b := by
  obtain ⟨before, after, blocks, inside, earlier⟩ := first
  exact ⟨before, after, extend.blocks.trans blocks, extend.terminatorInside_iff.mpr inside,
    fun c among => mt extend.terminatorInside_iff.mp (earlier c among)⟩

/-! ## Scopes that keep the other rules -/

/-- The scope breaks no structural rule, apart from terminators in the middle of blocks. -/
structure Tidy (t : Body) : Prop where
  blocksKnown : t.blocksKnown = true
  insnsKnown : t.insnsKnown = true
  handlers : ∀ {b handler}, b ∈ t.layout.blocks → t.handler? b = some handler →
    handler ∈ t.layout.blocks
  targets : ∀ {b entry dest}, entry ∈ t.code b → dest ∈ entry.2.targets → dest ∈ t.layout.blocks
  ascending : ∀ b,
    (t.layout.insns b).Pairwise fun i j => t.layout.position i < t.layout.position j
  locals : ∀ {b entry v}, entry ∈ t.code b → entry.2.movedVar? = some v →
    ∃ x, t.vars.var? v = some x ∧ x.isTemporary = false
  allocs : ∀ {b above rest j}, t.code b = above ++ (j, .allocFrame) :: rest →
    t.layout.entry? = some b ∧ above = []
  allocated : t.movesOwnLocals = true → t.Allocates

namespace Tidy

variable {above rest : Code} {entry : InsnId × Insn} (tidy : t.Tidy)
include tidy

theorem code_ascending (b : BlockId) : (t.code b).Pairwise fun one other =>
    t.layout.position one.1 < t.layout.position other.1 := by
  have row := tidy.ascending b
  rw [← map_fst_code_of_known tidy.insnsKnown b, List.pairwise_map] at row
  exact row

theorem insnFindings (code : t.code b = above ++ entry :: rest) (followed : Bool) :
    t.insnFindings b above entry.1 entry.2 followed =
      Finding.ifBroken (entry.2.isTerminator && followed) (.terminatorNotLast b) := by
  have inside : entry ∈ t.code b := Body.mem_code_of_split code
  have order : ∀ previous, above.getLast? = some previous →
      t.layout.position previous.1 < t.layout.position entry.1 := by
    intro previous last
    have ascending := tidy.code_ascending b
    rw [code, List.pairwise_append] at ascending
    exact ascending.2.2 previous (List.mem_of_getLast? last) entry List.mem_cons_self
  have targets : (entry.2.targets.any fun target => !t.layout.hasBlock target) = false := by
    refine List.any_eq_false.mpr fun dest target => ?_
    have listed := tidy.targets inside target
    simpa [Layout.hasBlock] using listed
  have allocs : (if entry.2.isAlloc then t.allocFindings b above else []) = [] := by
    split
    · next alloc =>
        obtain ⟨i, insn⟩ := entry
        have same : insn = .allocFrame := Insn.isAlloc_iff.mp alloc
        subst same
        obtain ⟨first, rfl⟩ := tidy.allocs code
        unfold allocFindings
        rw [first]
        simp [Finding.ifBroken]
    · rfl
  have moved : ∀ v, entry.2.movedVar? = some v → t.movedFindings v = [] := by
    intro v moves
    obtain ⟨x, read, lasting⟩ := tidy.locals inside moves
    unfold movedFindings
    rw [read]
    dsimp only
    rw [lasting]
    rfl
  unfold Body.insnFindings
  dsimp only
  rw [targets, allocs]
  cases last : above.getLast? with
  | none =>
      cases moves : entry.2.movedVar? with
      | none => simp [Finding.ifBroken]
      | some v => simp [Finding.ifBroken, moved v moves]
  | some previous =>
      have less := order previous last
      cases moves : entry.2.movedVar? with
      | none => simp [Finding.ifBroken, less]
      | some v => simp [Finding.ifBroken, less, moved v moves]

theorem handlerFindings (listed : b ∈ t.layout.blocks) : t.handlerFindings b = [] := by
  have known := tidy.blocksKnown
  unfold Body.blocksKnown at known
  have below : b < t.handlers.size := of_decide_eq_true (List.all_eq_true.mp known b listed)
  unfold Body.handlerFindings
  rw [Array.getElem?_eq_getElem below]
  cases handled : t.handlers[b] with
  | none => rfl
  | some handler =>
      have read : t.handler? b = some handler := by
        unfold handler?
        rw [Array.getElem?_eq_getElem below, handled]
        rfl
      have inside := tidy.handlers listed read
      simpa [Finding.ifBroken, Layout.hasBlock] using inside

theorem mem_blockFindings_iff (listed : b ∈ t.layout.blocks) {finding : Finding} :
    finding ∈ t.blockFindings b ↔
      finding = .violation (.terminatorNotLast b) ∧ t.TerminatorInside b := by
  rw [Body.mem_blockFindings_iff (insnsKnown_iff.mp tidy.insnsKnown), tidy.handlerFindings listed]
  constructor
  · rintro (none | ⟨above, entry, rest, code, found⟩)
    · cases none
    · rw [tidy.insnFindings code] at found
      unfold Finding.ifBroken at found
      split at found
      · next broken =>
          rw [Bool.and_eq_true, Bool.not_eq_true'] at broken
          cases rest with
          | nil => cases broken.2
          | cons next rest =>
              exact ⟨List.mem_singleton.mp found, above, entry, next, rest, code, broken.1⟩
      · cases found
  · rintro ⟨rfl, above, entry, next, rest, code, ends⟩
    refine Or.inr ⟨above, entry, next :: rest, code, ?_⟩
    rw [tidy.insnFindings code, ends]
    exact List.mem_singleton_self _

theorem movesOwnLocals_eq_false
    (absent : ∀ top, t.layout.entry? = some top → t.allocatesIn top = false) :
    t.movesOwnLocals = false := by
  cases moved : t.movesOwnLocals with
  | false => rfl
  | true =>
      obtain ⟨top, first⟩ : ∃ top, t.layout.entry? = some top := by
        obtain ⟨entry, inside, _⟩ := List.any_eq_true.mp moved
        obtain ⟨b, listed, _⟩ := List.mem_flatMap.mp inside
        obtain ⟨top, more, blocks⟩ := List.exists_cons_of_ne_nil (List.ne_nil_of_mem listed)
        exact ⟨top, by unfold Layout.entry?; rw [blocks]; rfl⟩
      have allocates := tidy.allocated moved top first
      rw [absent top first] at allocates
      cases allocates

theorem not_position_lt_alloc {alloc : InsnId}
    (code : t.code b = above ++ (alloc, .allocFrame) :: rest)
    {entry : InsnId × Insn} (member : entry ∈ t.code b) :
    ¬ t.layout.position entry.1 < t.layout.position alloc := by
  obtain ⟨_, rfl⟩ := tidy.allocs code
  have ascending := tidy.code_ascending b
  rw [code, List.nil_append, List.pairwise_cons] at ascending
  rw [code, List.nil_append] at member
  rcases List.mem_cons.mp member with rfl | later
  · exact Nat.lt_irrefl _
  · exact Nat.not_lt_of_lt (ascending.1 entry later)

theorem allocationFindings : t.allocationFindings = [] := by
  unfold Body.allocationFindings
  dsimp only
  split
  · next absent =>
      have unmoved : t.movesOwnLocals = false := by
        refine tidy.movesOwnLocals_eq_false fun top first => ?_
        rw [first] at absent
        exact List.any_eq_false.mpr (List.find?_eq_none.mp absent)
      change Finding.ifBroken t.movesOwnLocals _ = []
      rw [unmoved]
      rfl
  · next alloc insn found =>
      have allocates := List.find?_some found
      have same : insn = .allocFrame := Insn.isAlloc_iff.mp allocates
      subst same
      cases first : t.layout.entry? with
      | none =>
          rw [first] at found
          cases found
      | some top =>
          rw [first] at found
          obtain ⟨above, rest, code⟩ := List.append_of_mem (List.mem_of_find?_eq_some found)
          have early : ((t.code top).any fun entry => t.movesOwn entry.2 &&
              t.layout.position entry.1 < t.layout.position alloc) = false := by
            refine List.any_eq_false.mpr fun entry member => ?_
            simp [tidy.not_position_lt_alloc code member]
          change Finding.ifBroken ((t.code top).any _) _ = []
          rw [early]
          rfl

theorem violation_of_mem_findings {finding : Finding} (member : finding ∈ t.findings) :
    ∃ b, finding = .violation (.terminatorNotLast b) := by
  unfold findings at member
  rw [tidy.allocationFindings, List.append_nil] at member
  obtain ⟨b, listed, inside⟩ := List.mem_flatMap.mp member
  exact ⟨b, ((tidy.mem_blockFindings_iff listed).mp inside).1⟩

theorem verifyDangles_eq_false : t.verifyDangles = false := by
  unfold verifyDangles
  rw [beq_eq_false_iff_ne]
  intro first
  obtain ⟨b, same⟩ := tidy.violation_of_mem_findings (List.mem_of_head? first)
  cases same

theorem moveSearchDangles_eq_false : t.moveSearchDangles = false := by
  unfold moveSearchDangles
  dsimp only
  cases found : ((t.allCode.filterMap fun entry => entry.2.movedVar?).find? fun v =>
      t.vars.isOwn v || !t.varsKnown [v]) with
  | none => rfl
  | some v =>
      obtain ⟨entry, inside, moves⟩ := List.mem_filterMap.mp (List.mem_of_find?_eq_some found)
      obtain ⟨b, member⟩ := mem_allCode_iff.mp inside
      obtain ⟨x, read, _⟩ := tidy.locals member moves
      have below : v < t.vars.size := (List.getElem?_eq_some_iff.mp read).1
      simp [varsKnown, below]

theorem verify_ok (last : ∀ b ∈ t.layout.blocks, ¬ t.TerminatorInside b) : t.verify = .ok () := by
  have none : t.findings = [] := by
    refine List.eq_nil_iff_forall_not_mem.mpr fun finding member => ?_
    unfold findings at member
    rw [tidy.allocationFindings, List.append_nil] at member
    obtain ⟨b, listed, inside⟩ := List.mem_flatMap.mp member
    exact last b listed ((tidy.mem_blockFindings_iff listed).mp inside).2
  unfold verify violation?
  rw [none]
  rfl

theorem verify_error (first : FirstOf t.layout.blocks t.TerminatorInside b) :
    t.verify = .error (.terminatorNotLast b) := by
  obtain ⟨before, after, blocks, inside, earlier⟩ := first
  have listed : b ∈ t.layout.blocks := by rw [blocks]; simp
  have quiet : before.flatMap t.blockFindings = [] := by
    refine List.eq_nil_iff_forall_not_mem.mpr fun finding member => ?_
    obtain ⟨c, among, found⟩ := List.mem_flatMap.mp member
    have also : c ∈ t.layout.blocks := by rw [blocks]; exact List.mem_append_left _ among
    exact earlier c among ((tidy.mem_blockFindings_iff also).mp found).2
  have here := (tidy.mem_blockFindings_iff listed).mpr ⟨rfl, inside⟩
  obtain ⟨finding, more, found⟩ := List.exists_cons_of_ne_nil (List.ne_nil_of_mem here)
  have same : finding = .violation (.terminatorNotLast b) := by
    have member : finding ∈ t.blockFindings b := by rw [found]; exact List.mem_cons_self
    exact ((tidy.mem_blockFindings_iff listed).mp member).1
  unfold verify violation? findings
  rw [blocks, List.flatMap_append, quiet, List.flatMap_cons, found, same]
  rfl

end Tidy

/-! ## The setup of the analyses -/

/-- The analyses of a scope with blocks are set up unless some block is unreachable, and then the
first such block is named. -/
theorem checkSetup_cases (flow : s.hasFlow = true) :
    (∀ c ∈ s.layout.blocks, s.flowGraph.Reachable c) ∧
        (∃ entry, s.checkSetup s.flowGraph = .ok entry) ∨
      ∃ b, FirstOf s.layout.blocks (fun c => ¬ s.flowGraph.Reachable c) b ∧
        s.checkSetup s.flowGraph = .error (.unreachableBlock b) := by
  obtain ⟨entry, first⟩ := Option.isSome_iff_exists.mp flow
  have graph : s.flowGraph.entry? = some entry := first
  rcases forall_or_firstOf s.layout.blocks fun c => ¬ s.flowGraph.Reachable c with all | found
  · have reached : ∀ c ∈ s.layout.blocks, s.flowGraph.Reachable c :=
      fun c listed => Classical.not_not.mp (all c listed)
    exact Or.inl ⟨reached, entry, checkSetup_eq_ok_iff.mpr ⟨first, graph, reached⟩⟩
  · obtain ⟨b, before, after, blocks, missing, earlier⟩ := found
    refine Or.inr ⟨b, ⟨before, after, blocks, missing, earlier⟩, ?_⟩
    exact (checkSetup_unreachable_iff graph).mpr ⟨first, before, after, blocks, missing,
      fun c among => Classical.not_not.mp (earlier c among)⟩

section Placed

variable {captures : Captures} {stats : Stats} {v : VarId}

theorem insertFrameInsns_of_setup_error {cause : SetupError}
    (setup : s.checkSetup s.flowGraph = .error cause) :
    s.insertFrameInsns (s.effects captures) s.flowGraph = .error (.setup cause) := by
  unfold insertFrameInsns insertMoves Effects.placeStores Problem.solve
  rw [setup]
  rfl

theorem insertMoves_isOk (known : s.insnsKnown = true) {entry : BlockId}
    (setup : s.checkSetup s.flowGraph = .ok entry) :
    ∃ moved done, s.insertMoves (s.effects captures) s.flowGraph = .ok (moved, done) := by
  obtain ⟨first, stores⟩ : ∃ placement,
      (s.effects captures).placeStores s s.flowGraph = .ok placement := placeStores_isOk setup
  obtain ⟨stored, storedKnown, _⟩ := withStores_settles known (placeStores_eq_ok stores)
  -- the later rounds work with the graph and the effects of the scope as it was
  have again : ∀ {t : Body}, s.Extends t → t.checkSetup t.flowGraph = .ok entry := by
    intro t extend
    rw [extend.flowGraph, extend.checkSetup]
    exact setup
  obtain ⟨loads, reads⟩ : ∃ placement, ((s.withStores first.marks).effects captures).placeLoads
      (s.withStores first.marks) (s.withStores first.marks).flowGraph = .ok placement :=
    placeLoads_isOk (again stored)
  have stale := placeLoads_eq_ok reads
  obtain ⟨loaded, _, _⟩ := withLoads_settles storedKnown stale
  have both := stored.trans loaded
  obtain ⟨second, more⟩ : ∃ placement,
      (((s.withStores first.marks).withLoads loads.marks).effects captures).placeStores
        ((s.withStores first.marks).withLoads loads.marks)
        ((s.withStores first.marks).withLoads loads.marks).flowGraph = .ok placement :=
    placeStores_isOk (again both)
  rw [stored.effects captures, stored.flowGraph] at reads
  have again := placeStores_eq_ok more
  rw [stored.effects captures] at stale
  rw [both.effects captures, both.flowGraph] at more
  unfold insertMoves
  simp only [stores, Except.mapError, bind, Except.bind,
    insertStores_of_due (placeStores_eq_ok stores), reads, insertLoads_of_stale stale]
  split
  · exact ⟨_, _, rfl⟩
  · rw [more]
    simp only [insertStores_of_due again]
    exact ⟨_, _, rfl⟩

/-- Before its result is verified a placement fails for its set-up only; no insertion point is ever
missing. -/
theorem insertFrameInsns_error_iff (known : s.insnsKnown = true) {error : PlacementError} :
    s.insertFrameInsns (s.effects captures) s.flowGraph = .error error ↔
      ∃ cause, s.checkSetup s.flowGraph = .error cause ∧ error = .setup cause := by
  cases setup : s.checkSetup s.flowGraph with
  | ok entry =>
      obtain ⟨moved, done, moves⟩ : ∃ moved done,
          s.insertMoves (s.effects captures) s.flowGraph = .ok (moved, done) :=
        insertMoves_isOk known setup
      rw [insertFrameInsns_of_moves moves]
      constructor
      · intro failed
        cases failed
      · rintro ⟨cause, failed, _⟩
        cases failed
  | error cause =>
      rw [insertFrameInsns_of_setup_error setup]
      constructor
      · intro failed
        cases failed
        exact ⟨cause, rfl, rfl⟩
      · rintro ⟨other, same, rfl⟩
        cases same
        rfl

/-! ## What is placed is tidy -/

theorem candidate_cases (candidate : v ∈ (s.effects captures).candidates) :
    v ∈ s.vars.enclosing ∨ v ∈ s.captured ∨ s.leaksBinding = true ∧ v ∈ s.vars.declared := by
  have inside : v ∈ s.frameCandidates := candidate
  unfold frameCandidates at inside
  rcases IdSet.mem_insertAll.mp inside with enclosing | inside
  · exact Or.inl enclosing
  · split at inside
    · next leaks =>
        rcases IdSet.mem_insertAll.mp inside with declared | captured
        · exact Or.inr (Or.inr ⟨leaks, declared⟩)
        · exact Or.inr (Or.inl captured)
    · exact Or.inr (Or.inl inside)

theorem lasting_of_candidate (own : ∀ w ∈ s.captured, s.vars.isOwn w = true)
    (candidate : v ∈ (s.effects captures).candidates) :
    ∃ x, s.vars.var? v = some x ∧ x.isTemporary = false := by
  rcases candidate_cases candidate with enclosing | captured | ⟨_, declared⟩
  · obtain ⟨x, read, encloses⟩ := VarTable.mem_idsWhere.mp enclosing
    exact ⟨x, read, Variable.isTemporary_of_isEnclosing encloses⟩
  · obtain ⟨x, read, owned⟩ := (Option.any_eq_true _ _).mp (own v captured)
    exact ⟨x, read, Variable.isTemporary_of_isOwn owned⟩
  · obtain ⟨x, read, owned⟩ := VarTable.mem_idsWhere.mp declared
    exact ⟨x, read, Variable.isTemporary_of_isOwn owned⟩

theorem needsFrame_of_observed {i : InsnId} (observed : v ∈ (s.effects captures).observed.get i)
    (own : s.vars.isOwn v = true) : (s.effects captures).needsFrame s = true := by
  change (s.leaksBinding || !s.captured.isEmpty) = true
  rcases candidate_cases (observed_subset observed) with enclosing | captured | ⟨leaks, _⟩
  · obtain ⟨x, read, encloses⟩ := VarTable.mem_idsWhere.mp enclosing
    unfold VarTable.isOwn at own
    rw [read] at own
    cases x with
    | named name depth =>
        -- a local lives in the scope itself or further out
        have here : depth = 0 := of_decide_eq_true own
        have outward : 0 < depth := of_decide_eq_true encloses
        exact absurd outward (here ▸ Nat.lt_irrefl 0)
    | temporary _ => cases own
  · cases empty : s.captured.isEmpty with
    | true => exact absurd captured (IdSet.isEmpty_iff.mp empty v)
    | false => exact Bool.or_true _
  · rw [leaks]
    rfl

theorem allocates_of_used {e : Effects} (known : s.insnsKnown = true)
    (used : (e.needsFrame s || s.movesOwnLocals) = true) :
    (s.allocated e).2.renumbered.Allocates := by
  unfold allocated
  rw [if_pos used]
  exact allocates_insertAlloc known

/-- Whether the frame is used shows in the scope before and in the moves of the result. -/
theorem used_iff (known : s.insnsKnown = true) {moved : Body} {done : Stats}
    (moving : s.insertMoves (s.effects captures) s.flowGraph = .ok (moved, done)) :
    ((s.effects captures).needsFrame moved || moved.movesOwnLocals) = true ↔
      (s.effects captures).needsFrame s = true ∨
        (moved.allocated (s.effects captures)).2.renumbered.movesOwnLocals = true := by
  obtain ⟨within, movedKnown, _, _⟩ := insertMoves_settled known moving
  obtain ⟨more, _, allocs⟩ := allocated_extends movedKnown (s.effects captures)
  have needs : (s.effects captures).needsFrame moved = (s.effects captures).needsFrame s := by
    unfold Effects.needsFrame
    rw [within.captured]
  rw [needs, movesOwnLocals_of_moves more.vars (more.moves_of_allocs allocs), Bool.or_eq_true]

theorem allocates_of_placed (known : s.insnsKnown = true)
    (placed : s.insertFrameInsns (s.effects captures) s.flowGraph = .ok (t, stats))
    (used : (s.effects captures).needsFrame s = true ∨ t.movesOwnLocals = true) : t.Allocates := by
  obtain ⟨moved, done, moving, rfl, _⟩ := insertFrameInsns_eq_ok placed
  obtain ⟨_, movedKnown, _, _⟩ := insertMoves_settled known moving
  exact allocates_of_used movedKnown ((used_iff known moving).mpr used)

theorem used_of_alloc (known : s.insnsKnown = true)
    (bare : ∀ entry ∈ s.allCode, entry.2.isFrameInsn = false)
    (placed : s.insertFrameInsns (s.effects captures) s.flowGraph = .ok (t, stats))
    {b : BlockId} {alloc : InsnId × Insn} (member : alloc ∈ t.code b)
    (allocates : alloc.2.isAlloc = true) :
    (s.effects captures).needsFrame s = true ∨ t.movesOwnLocals = true := by
  obtain ⟨moved, done, moving, rfl, _⟩ := insertFrameInsns_eq_ok placed
  obtain ⟨within, _, _, _⟩ := insertMoves_settled known moving
  obtain ⟨_, _, _, woven, ahead, after, _, _, _⟩ := insertMoves_places known moving
  by_contra unused
  have moves : (moved.allocated (s.effects captures)).2 = moved := by
    unfold allocated
    rw [if_neg fun used => unused ((used_iff known moving).mp used)]
  have inside : alloc ∈ moved.code b := by
    rw [moves] at member
    exact member
  have frame : alloc.2.isFrameInsn = true := by
    rw [Insn.isAlloc_iff.mp allocates]
    rfl
  have new := within.owns_eq_false_of_bare bare inside frame
  rw [woven.isAlloc_eq_false ahead after inside new] at allocates
  cases allocates

/-- A placement into a scope without frame instructions, whose control keeps to the layout and whose
captured locals are its own. -/
theorem tidy_of_placed (bare : ∀ entry ∈ s.allCode, entry.2.isFrameInsn = false)
    (targets : ∀ entry ∈ s.allCode, ∀ dest ∈ entry.2.targets, dest ∈ s.layout.blocks)
    (handlers : ∀ c ∈ s.layout.blocks, ∀ handler, s.handler? c = some handler →
      handler ∈ s.layout.blocks)
    (own : ∀ w ∈ s.captured, s.vars.isOwn w = true) (blocks : s.blocksKnown = true)
    (known : s.insnsKnown = true)
    (placed : s.insertFrameInsns (s.effects captures) s.flowGraph = .ok (t, stats)) : t.Tidy := by
  obtain ⟨extend, stillKnown, _, _⟩ := insertFrameInsns_settled known placed
  have inserts := insertFrameInsns_inserts known placed
  refine
    { blocksKnown := ?_
      insnsKnown := stillKnown
      handlers := ?_
      targets := ?_
      ascending := ?_
      locals := ?_
      allocs := ?_
      allocated := ?_ }
  · unfold blocksKnown at blocks ⊢
    rw [extend.blocks, extend.handlers]
    exact blocks
  · intro b handler listed handled
    rw [extend.blocks] at listed ⊢
    rw [extend.handler?] at handled
    exact handlers b listed handler handled
  · intro b entry dest member target
    rw [extend.blocks]
    cases owned : s.owns entry with
    | true =>
        have old := mem_allCode_of_mem_code (extend.mem_code_of_owns member owned)
        exact targets entry old dest target
    | false =>
        rw [Insn.targets_of_frame (extend.fresh b entry member owned)] at target
        cases target
  · intro b
    obtain ⟨moved, done, _, rfl, _⟩ := insertFrameInsns_eq_ok placed
    exact (Layout.renumber_ascending _).sublist (Layout.insns_sublist_allInsns _ b)
  · intro b entry v member moves
    have made := mem_madeIn member
      (extend.owns_eq_false_of_bare bare member (Insn.isFrameInsn_of_moves moves))
    rw [extend.vars]
    exact lasting_of_candidate own (candidate_of_madeIn known placed made moves)
  · intro b above rest j code
    have member : (j, Insn.allocFrame) ∈ t.code b := Body.mem_code_of_split code
    exact inserts.allocsOpen b above rest j code (extend.owns_eq_false_of_bare bare member rfl)
  · exact fun uses => allocates_of_placed known placed (Or.inr uses)

theorem checkInvariants_of_violation {cause : Violation} (broken : t.verify = .error cause) :
    t.checkInvariants = .error (.invariant t.name cause) := by
  unfold checkInvariants
  rw [broken]

theorem place_of_rejected {error : PlacementError}
    (frame : s.insertFrameInsns (s.effects captures) s.flowGraph = .ok (t, stats))
    (rejected : t.checkInvariants = .error error) : s.place true captures = .error error := by
  unfold place
  rw [frame]
  dsimp only
  rw [rejected, if_pos rfl]

theorem countP_isAlloc_le_one (opens : ∀ {b above rest j},
    t.code b = above ++ (j, .allocFrame) :: rest → t.layout.entry? = some b ∧ above = []) :
    (t.allCode.countP fun entry => entry.2.isAlloc) ≤ 1 := by
  have only : ∀ {i j : InsnId}, (i, Insn.allocFrame) ∈ t.allCode →
      (j, Insn.allocFrame) ∈ t.allCode → i = j := by
    intro i j one other
    obtain ⟨b, inside⟩ := mem_allCode_iff.mp one
    obtain ⟨c, also⟩ := mem_allCode_iff.mp other
    obtain ⟨above, rest, code⟩ := List.append_of_mem inside
    obtain ⟨front, back, split⟩ := List.append_of_mem also
    obtain ⟨first, rfl⟩ := opens code
    obtain ⟨again, rfl⟩ := opens split
    rw [first] at again
    cases again
    rw [code] at split
    cases split
    rfl
  have distinct : t.allCode.Nodup := List.Nodup.of_map Prod.fst t.allCode_nodup
  rw [List.countP_eq_length_filter]
  cases found : t.allCode.filter fun entry => entry.2.isAlloc with
  | nil => exact Nat.zero_le 1
  | cons one more =>
      cases more with
      | nil => exact Nat.le_refl 1
      | cons other more =>
          have kept := distinct.filter fun entry => entry.2.isAlloc
          have members : ∀ entry ∈ one :: other :: more, ∃ i, entry = (i, Insn.allocFrame) ∧
              (i, Insn.allocFrame) ∈ t.allCode := by
            intro entry member
            rw [← found] at member
            obtain ⟨inside, alloc⟩ := List.mem_filter.mp member
            obtain ⟨i, insn⟩ := entry
            have same : insn = .allocFrame := Insn.isAlloc_iff.mp alloc
            subst same
            exact ⟨i, rfl, inside⟩
          obtain ⟨i, rfl, first⟩ := members one (by simp)
          obtain ⟨j, rfl, second⟩ := members other (by simp)
          rw [found, only first second] at kept
          exact absurd List.mem_cons_self (List.nodup_cons.mp kept).1

theorem Allocates.exists_of_entry (allocates : t.Allocates) {top : BlockId}
    (first : t.layout.entry? = some top) : ∃ alloc ∈ t.allCode, alloc.2.isAlloc = true := by
  obtain ⟨alloc, member, found⟩ := List.any_eq_true.mp (allocates top first)
  exact ⟨alloc, mem_allCode_of_mem_code member, found⟩

theorem Allocates.exists_alloc (allocates : t.Allocates) {entry : InsnId × Insn}
    (inside : entry ∈ t.allCode) : ∃ alloc ∈ t.allCode, alloc.2.isAlloc = true := by
  obtain ⟨b, listed, _⟩ := List.mem_flatMap.mp inside
  obtain ⟨top, more, blocks⟩ := List.exists_cons_of_ne_nil (List.ne_nil_of_mem listed)
  have first : t.layout.entry? = some top := by
    unfold Layout.entry?
    rw [blocks]
    rfl
  exact allocates.exists_of_entry first

/-- The frame of the scope is in order: the verifier accepts it, it is allocated at most once, first
thing in the entry block, and allocated if the scope moves an own local or a call observes one. -/
structure FrameInOrder (t : Body) (e : Effects) : Prop where
  accepted : Checked.checkInvariants t = .ok (.ok ())
  once : (t.allCode.countP fun entry => entry.2.isAlloc) ≤ 1
  opens : ∀ {b above rest j}, t.code b = above ++ (j, .allocFrame) :: rest →
    t.layout.entry? = some b ∧ above = []
  moved : ∀ entry ∈ t.allCode, t.movesOwn entry.2 = true →
    ∃ alloc ∈ t.allCode, alloc.2.isAlloc = true
  observed : ∀ i insn v, (i, insn) ∈ t.allCode → insn.isCall = true → v ∈ e.observed.get i →
    t.vars.isOwn v = true → ∃ alloc ∈ t.allCode, alloc.2.isAlloc = true

end Placed

end Body

namespace Scope

/-- A scope that the placement can work on: a method or a closure with blocks, not eager and without
frame instructions.  Its identifiers are known, its control keeps to the layout, and what its
closures capture of it are its own locals. -/
structure Placeable (s : Scope) : Prop where
  kind : s.body.kind ≠ .script
  lazy : s.body.eager = false
  flow : s.body.hasFlow = true
  bare : ∀ entry ∈ s.body.allCode, entry.2.isFrameInsn = false
  targets : ∀ entry ∈ s.body.allCode, ∀ dest ∈ entry.2.targets, dest ∈ s.body.layout.blocks
  handlers : ∀ b ∈ s.body.layout.blocks, ∀ handler, s.body.handler? b = some handler →
    handler ∈ s.body.layout.blocks
  captured : ∀ v ∈ s.body.captured, s.body.vars.isOwn v = true
  blocksKnown : s.body.blocksKnown = true
  insnsKnown : s.body.insnsKnown = true
  capturesKnown : s.capturesKnown = true

namespace Placeable

variable {s : Scope} {t : Body} {stats : Stats} (placeable : s.Placeable)
include placeable

theorem isExempt_eq_false : s.body.isExempt = false := by
  unfold Body.isExempt
  rw [beq_false_of_ne placeable.kind, placeable.flow, placeable.lazy]
  rfl

theorem tidy (placed : s.body.insertFrameInsns s.effects s.body.flowGraph = .ok (t, stats)) :
    t.Tidy :=
  Body.tidy_of_placed placeable.bare placeable.targets placeable.handlers placeable.captured
    placeable.blocksKnown placeable.insnsKnown placed

theorem visitsKnown : s.body.visitsKnown s.body.flowGraph.reversePostOrder = true := by
  have blocks := placeable.blocksKnown
  unfold Body.blocksKnown at blocks
  unfold Body.visitsKnown
  rw [placeable.insnsKnown, Bool.true_and]
  refine List.all_eq_true.mpr fun b visited => ?_
  have listed : b ∈ s.body.layout.blocks := Body.mem_blocks_of_reachable placeable.targets
    placeable.handlers (FlowGraph.mem_reversePostOrder_iff.mp visited)
  exact List.all_eq_true.mp blocks b listed

theorem placeDangles_eq_false (config : Config) : s.placeDangles config = false := by
  rcases Body.checkSetup_cases placeable.flow with ⟨reached, entry, setup⟩ | ⟨b, _, setup⟩
  · obtain ⟨body, closures⟩ := s
    obtain ⟨moved, done, moves⟩ : ∃ moved done, body.insertMoves
        (body.effects (node body closures).captures) body.flowGraph = .ok (moved, done) :=
      Body.insertMoves_isOk placeable.insnsKnown setup
    have placed := Body.insertFrameInsns_of_moves moves
    have tidy := placeable.tidy placed
    refine (placeDangles_iff setup moves placed).mpr ⟨placeable.blocksKnown, placeable.insnsKnown,
      placeable.capturesKnown, ?_, fun _ => ?_, fun _ => tidy.verifyDangles_eq_false⟩
    · exact placeable.visitsKnown
    · obtain ⟨_, movedKnown, _, _⟩ := Body.insertMoves_settled placeable.insnsKnown moves
      obtain ⟨more, _, allocs⟩ := Body.allocated_extends movedKnown _
      rw [← Body.moveSearchDangles_of_moves more.vars (more.moves_of_allocs allocs)]
      exact tidy.moveSearchDangles_eq_false
  · unfold placeDangles
    dsimp only
    rw [placeable.blocksKnown, placeable.insnsKnown, placeable.capturesKnown, setup]
    rfl

theorem checked_eq (config : Config) :
    Checked.runAlone config s = .ok (s.runAlone config) := by
  unfold Checked.runAlone Fault.guarded runAloneDangles
  rw [placeable.placeDangles_eq_false, Bool.and_false]
  rfl

/-- What the placement makes of the scope is the outcome of a strict run. -/
theorem run_error {error : PlacementError}
    (failed : s.body.place true s.captures = .error error) :
    s.runAlone .strict = (s, .error error) := by
  have run : s.body.run .strict s.captures = (s.body, .error error) := by
    unfold Body.run
    rw [placeable.isExempt_eq_false, show Config.strict.verify = true from rfl, failed]
    rfl
  unfold runAlone
  rw [run]
  cases s
  rfl

theorem run_ok (placed : s.body.place true s.captures = .ok (t, stats)) :
    s.runAlone .strict = (s.withBody t, .ok stats) := by
  have run : s.body.run .strict s.captures = (t, .ok stats) := by
    unfold Body.run
    rw [placeable.isExempt_eq_false, show Config.strict.verify = true from rfl, placed]
    rfl
  unfold runAlone
  rw [run]

theorem frameInOrder (placed : s.body.insertFrameInsns s.effects s.body.flowGraph = .ok (t, stats))
    (last : ∀ b ∈ s.body.layout.blocks, ¬ s.body.TerminatorInside b) :
    t.FrameInOrder (s.withBody t).effects := by
  have tidy := placeable.tidy placed
  obtain ⟨extend, _, _, _⟩ := Body.insertFrameInsns_settled placeable.insnsKnown placed
  have effects : (s.withBody t).effects = s.effects := by
    obtain ⟨body, closures⟩ := s
    exact effects_of_extends closures extend
  refine
    { accepted := ?_
      once := Body.countP_isAlloc_le_one tidy.allocs
      opens := tidy.allocs
      moved := ?_
      observed := ?_ }
  · have verified : t.verify = .ok () := by
      refine tidy.verify_ok fun b listed inside => ?_
      rw [extend.blocks] at listed
      exact last b listed (extend.terminatorInside_iff.mp inside)
    unfold Checked.checkInvariants Fault.guarded Body.checkInvariants
    rw [tidy.verifyDangles_eq_false, verified]
    rfl
  · intro entry inside moves
    exact (tidy.allocated (List.any_eq_true.mpr ⟨entry, inside, moves⟩)).exists_alloc inside
  · intro i insn v inside _ observed own
    rw [effects] at observed
    rw [extend.vars] at own
    have allocates := Body.allocates_of_placed placeable.insnsKnown placed
      (Or.inl (Body.needsFrame_of_observed observed own))
    exact allocates.exists_alloc inside

theorem place_cases :
    (∃ b, FirstOf s.body.layout.blocks (fun c => ¬ s.body.flowGraph.Reachable c) b ∧
      s.body.place true s.captures = .error (.setup (.unreachableBlock b))) ∨
    (∀ c ∈ s.body.layout.blocks, s.body.flowGraph.Reachable c) ∧
      ((∃ b, FirstOf s.body.layout.blocks s.body.TerminatorInside b ∧
        s.body.place true s.captures = .error (.invariant s.body.name (.terminatorNotLast b))) ∨
      (∀ c ∈ s.body.layout.blocks, ¬ s.body.TerminatorInside c) ∧
        ∃ t stats, s.body.place true s.captures = .ok (t, stats) ∧
          t.FrameInOrder (s.withBody t).effects) := by
  rcases Body.checkSetup_cases placeable.flow with ⟨reached, entry, setup⟩ | ⟨b, first, setup⟩
  · refine Or.inr ⟨reached, ?_⟩
    obtain ⟨moved, done, moves⟩ : ∃ moved done, s.body.insertMoves (s.body.effects s.captures)
        s.body.flowGraph = .ok (moved, done) := Body.insertMoves_isOk placeable.insnsKnown setup
    have frame := Body.insertFrameInsns_of_moves moves
    have tidy := placeable.tidy frame
    obtain ⟨extend, _, _, _⟩ := Body.insertFrameInsns_settled placeable.insnsKnown frame
    rcases forall_or_firstOf s.body.layout.blocks s.body.TerminatorInside with last | ⟨b, first⟩
    · have order := placeable.frameInOrder frame last
      have accepted := order.accepted
      unfold Checked.checkInvariants Fault.guarded at accepted
      rw [tidy.verifyDangles_eq_false] at accepted
      exact Or.inr ⟨last, _, _, Body.place_of_frame frame fun _ => Except.ok.inj accepted, order⟩
    · have placedFirst := extend.firstTerminatorInside first
      have rejected := Body.checkInvariants_of_violation (tidy.verify_error placedFirst)
      rw [extend.name] at rejected
      exact Or.inl ⟨b, first, Body.place_of_rejected frame rejected⟩
  · refine Or.inl ⟨b, first, ?_⟩
    unfold Body.place
    rw [Body.insertFrameInsns_of_setup_error setup]

end Placeable

/-- A strict run over a placeable scope never fails for what it has inserted.  It succeeds exactly
if every block of the layout is reachable and no terminator is followed by another instruction.
Then the verifier accepts the result, and the frame is allocated at most once, on top of the entry
block, and allocated where it is used.  Otherwise the run reports the first unreachable block, or
if there is none the first block with a terminator in its middle. -/
theorem runAlone_accepts {s : Scope} (placeable : s.Placeable) :
    ∃ t result, Checked.runAlone .strict s = .ok (t, result) ∧
      ((∃ stats, result = .ok stats) ↔
        (∀ b ∈ s.body.layout.blocks, s.body.flowGraph.Reachable b) ∧
          ∀ b ∈ s.body.layout.blocks, ¬ s.body.TerminatorInside b) ∧
      (∀ stats, result = .ok stats → t.body.FrameInOrder t.effects) ∧
      ∀ error, result = .error error →
        (∃ b, FirstOf s.body.layout.blocks (fun c => ¬ s.body.flowGraph.Reachable c) b ∧
          error = .setup (.unreachableBlock b)) ∨
        (∀ b ∈ s.body.layout.blocks, s.body.flowGraph.Reachable b) ∧
          ∃ b, FirstOf s.body.layout.blocks s.body.TerminatorInside b ∧
            error = .invariant s.body.name (.terminatorNotLast b) := by
  rw [placeable.checked_eq]
  rcases placeable.place_cases with ⟨b, first, failed⟩ |
    ⟨reached, ⟨b, first, failed⟩ | ⟨last, t, stats, placed, order⟩⟩
  · refine ⟨_, _, congrArg Except.ok (placeable.run_error failed), ?_, ?_, ?_⟩
    · constructor
      · rintro ⟨stats, ok⟩
        cases ok
      · rintro ⟨reached, _⟩
        obtain ⟨before, after, blocks, missing, _⟩ := first
        exact absurd (reached b (by rw [blocks]; simp)) missing
    · intro stats ok
      cases ok
    · rintro error ⟨⟩
      exact Or.inl ⟨b, first, rfl⟩
  · refine ⟨_, _, congrArg Except.ok (placeable.run_error failed), ?_, ?_, ?_⟩
    · constructor
      · rintro ⟨stats, ok⟩
        cases ok
      · rintro ⟨_, last⟩
        obtain ⟨before, after, blocks, inside, _⟩ := first
        exact absurd inside (last b (by rw [blocks]; simp))
    · intro stats ok
      cases ok
    · rintro error ⟨⟩
      exact Or.inr ⟨reached, b, first, rfl⟩
  · refine ⟨_, _, congrArg Except.ok (placeable.run_ok placed), ?_, ?_, ?_⟩
    · exact ⟨fun _ => ⟨reached, last⟩, fun _ => ⟨stats, rfl⟩⟩
    · exact fun _ _ => order
    · intro error failed
      cases failed

end Scope

theorem totalling_placeable : totalling.Placeable where
  kind := by decide
  lazy := rfl
  flow := rfl
  bare := by decide
  targets := by decide
  handlers := by decide
  captured v member := by
    rw [List.mem_singleton.mp (IdSet.mem_ofList.mp member)]
    rfl
  blocksKnown := by decide
  insnsKnown := by decide
  capturesKnown := by decide

theorem runAlone_accepts_totalling : totalling.Placeable ∧
    ∃ t stats, Checked.runAlone .strict totalling = .ok (t, .ok stats) ∧
      t.body.FrameInOrder t.effects := by
  obtain ⟨t, result, run, _, order, _⟩ := Scope.runAlone_accepts totalling_placeable
  have placed : (match Checked.runAlone .strict totalling with
      | .ok (_, .ok _) => true
      | _ => false) = true := by decide
  rw [run] at placed
  cases result with
  | ok stats => exact ⟨totalling_placeable, t, stats, run, order stats rfl⟩
  | error _ => cases placed

end FramePlacement
