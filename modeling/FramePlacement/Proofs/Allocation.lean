import FramePlacement.Checked
import FramePlacement.Proofs.Exposure
import FramePlacement.Proofs.PathMeet
import FramePlacement.Proofs.Verified
import Mathlib.Data.List.Chain
/-!
# The frame is allocated before it is used

A scope that the verifier accepts and that moves one of its own locals allocates its frame in the
entry block, above all such moves of that block.  A path to any of these moves has run the
allocation before, with one exception: the path left the entry block for its handler at an
instruction above the allocation (`Body.alloc_before_moves`).

The verifier does not look for that exception.  `opening` allocates its frame behind a call that may
raise; it is accepted, although its handler stores into a frame that is not there
(`opening_moves_unallocated`).
-/

set_option autoImplicit false

namespace FramePlacement

theorem Insn.isAlloc_iff {insn : Insn} : insn.isAlloc = true ↔ insn = .allocFrame := by
  constructor
  · intro alloc
    cases insn with
    | allocFrame => rfl
    | _ => cases alloc
  · rintro rfl
    rfl

def Trail.Allocates (trail : Trail) : Prop := ∃ i, (.completes, (i, Insn.allocFrame)) ∈ trail

namespace Trail

variable {first second : Trail} {code : Code} {entry : InsnId × Insn}

theorem Allocates.append_left (allocates : Allocates first) : Allocates (first ++ second) := by
  obtain ⟨i, member⟩ := allocates
  exact ⟨i, List.mem_append_left second member⟩

theorem Allocates.append_right (allocates : Allocates second) : Allocates (first ++ second) := by
  obtain ⟨i, member⟩ := allocates
  exact ⟨i, List.mem_append_right first member⟩

theorem allocates_completing (member : entry ∈ code) (alloc : entry.2.isAlloc = true) :
    Allocates (completing code) := by
  obtain ⟨i, insn⟩ := entry
  have same : insn = .allocFrame := Insn.isAlloc_iff.mp alloc
  subst same
  exact ⟨i, List.mem_map.mpr ⟨_, member, rfl⟩⟩

end Trail

namespace Body

variable {s : Body} {b top : BlockId} {trail : Trail}

/-- The path left the entry block at an instruction that raised above the allocation. -/
def SkipsAlloc (s : Body) (trail : Trail) : Prop :=
  ∃ top above one below, s.layout.entry? = some top ∧ s.code top = above ++ one :: below ∧
    (.raises, one) ∈ trail ∧ ∃ alloc ∈ below, alloc.2.isAlloc = true

theorem SkipsAlloc.append {first second : Trail} (skips : s.SkipsAlloc first) :
    s.SkipsAlloc (first ++ second) := by
  obtain ⟨top, above, one, below, entry, code, raised, alloc⟩ := skips
  exact ⟨top, above, one, below, entry, code, List.mem_append_left second raised, alloc⟩

/-! ## What the verifier has checked -/

theorem pairwise_position (accepted : s.verify = .ok ()) {above rest : Code}
    (code : s.code b = above ++ rest) :
    above.Pairwise fun one other => s.layout.position one.1 < s.layout.position other.1 := by
  -- the verifier compares neighbours, so the order is carried from one to the next
  rw [← List.isChain_iff_pairwise]
  induction above using List.reverseRecOn generalizing rest with
  | nil => exact List.IsChain.nil
  | append_singleton above entry ih =>
      rw [List.append_assoc] at code
      refine List.isChain_append.mpr ⟨ih code, List.isChain_singleton entry, ?_⟩
      intro previous last other head
      cases head
      obtain ⟨followed, _, inside⟩ := insnFindings_of_code code
      by_contra notAbove
      refine not_violation_of_verify accepted (.positionNotIncreasing b) (inside ?_)
      have broken : s.layout.position entry.1 ≤ s.layout.position previous.1 :=
        Nat.le_of_not_lt notAbove
      rw [Option.mem_def] at last
      simp [insnFindings, last, Finding.ifBroken, broken]

/-- Where an own local is moved there is an allocation in the entry block, and no move of that block
counts before it. -/
theorem exists_alloc (accepted : s.verify = .ok ()) {entry : InsnId × Insn}
    (inside : entry ∈ s.allCode) (own : s.movesOwn entry.2 = true) :
    ∃ top alloc, s.layout.entry? = some top ∧ alloc ∈ s.code top ∧ alloc.2.isAlloc = true ∧
      ∀ other ∈ s.code top, s.movesOwn other.2 = true →
        ¬ s.layout.position other.1 < s.layout.position alloc.1 := by
  have silent : ∀ cause, ¬ Finding.violation cause ∈ s.allocationFindings := fun cause member =>
    not_violation_of_verify accepted cause (List.mem_append_right _ member)
  unfold allocationFindings at silent
  dsimp only at silent
  split at silent
  · have moved : (s.allCode.any fun entry => s.movesOwn entry.2) = true :=
      List.any_eq_true.mpr ⟨entry, inside, own⟩
    rw [moved] at silent
    exact absurd List.mem_cons_self (silent .missingAlloc)
  · next alloc insn found =>
      have member := List.mem_of_find?_eq_some found
      have passed := List.find?_some found
      have allocates : insn.isAlloc = true := passed
      cases first : s.layout.entry? with
      | none =>
          rw [first] at member
          cases member
      | some top =>
          rw [first] at member silent
          refine ⟨top, (alloc, insn), rfl, member, allocates, ?_⟩
          intro other among moves early
          refine silent .bindingBeforeAlloc ?_
          have broken : ((s.code top).any fun entry =>
              s.movesOwn entry.2 && s.layout.position entry.1 < s.layout.position alloc) = true :=
            List.any_eq_true.mpr ⟨other, among, by simp [moves, early]⟩
          simp only [Option.map_some, Option.getD_some, broken, Finding.ifBroken, if_true]
          exact List.mem_cons_self

theorem alloc_mem_above (accepted : s.verify = .ok ()) {above rest : Code}
    {entry alloc : InsnId × Insn} (code : s.code top = above ++ entry :: rest)
    (own : s.movesOwn entry.2 = true) (member : alloc ∈ s.code top)
    (allocates : alloc.2.isAlloc = true)
    (first : ¬ s.layout.position entry.1 < s.layout.position alloc.1) : alloc ∈ above := by
  rw [code] at member
  rcases List.mem_append.mp member with before | behind
  · exact before
  · rcases List.mem_cons.mp behind with rfl | later
    · rw [Insn.isAlloc_iff.mp allocates] at own
      cases own
    · have ordered := pairwise_position accepted (code.trans (List.append_nil _).symm)
      have less := (List.pairwise_cons.mp (List.pairwise_append.mp ordered).2.1).1 alloc later
      exact absurd less first

/-! ## Along a path -/

theorem TrailTo.raised {one : InsnId × Insn} (path : s.TrailTo b trail)
    (raised : (.raises, one) ∈ trail) :
    one.2.canRaise = true ∧ ∃ c handler, one ∈ s.code c ∧ s.handler? c = some handler := by
  have completed : ∀ {code : Code}, ¬ (Passage.raises, one) ∈ completing code := by
    intro code member
    obtain ⟨_, _, same⟩ := List.mem_map.mp member
    cases same
  induction path with
  | entry _ => cases raised
  | edge _ _ ih =>
      exact ih ((List.mem_append.mp raised).resolve_right completed)
  | @raise c handler _ above rest other _ code raises target ih =>
      rcases List.mem_append.mp raised with earlier | last
      · exact ih earlier
      · have same := List.mem_singleton.mp ((List.mem_append.mp last).resolve_left completed)
        cases same
        have handled := (mem_excSuccs_flowGraph.mp target).2.2
        exact ⟨raises, c, handler, by rw [code]; simp, handled⟩

/-- A path that has left the entry block has allocated the frame or skipped the allocation. -/
theorem TrailTo.allocates_or_skips {alloc : InsnId × Insn} (path : s.TrailTo b trail)
    (entry : s.layout.entry? = some top) (member : alloc ∈ s.code top)
    (allocates : alloc.2.isAlloc = true) :
    b = top ∧ trail = [] ∨ trail.Allocates ∨ s.SkipsAlloc trail := by
  induction path with
  | entry first =>
      rw [entry] at first
      cases first
      exact Or.inl ⟨rfl, rfl⟩
  | @edge c _ trail _ _ ih =>
      refine Or.inr ?_
      rcases ih with ⟨rfl, rfl⟩ | done | skips
      · exact Or.inl (Trail.allocates_completing member allocates)
      · exact Or.inl done.append_left
      · exact Or.inr skips.append
  | @raise c _ trail above rest one _ code raises _ ih =>
      refine Or.inr ?_
      rcases ih with ⟨rfl, rfl⟩ | done | skips
      · rw [code] at member
        rcases List.mem_append.mp member with before | behind
        · exact Or.inl
            (Trail.allocates_completing before allocates).append_left.append_right
        · rcases List.mem_cons.mp behind with rfl | below
          · rw [Insn.isAlloc_iff.mp allocates] at raises
            cases raises
          · exact Or.inr ⟨c, above, one, rest, entry, code, by simp, alloc, below, allocates⟩
      · exact Or.inl done.append_left
      · exact Or.inr skips.append

/-- No instruction that stands above the allocation can leave the entry block for a handler. -/
def AllocatesFirst (s : Body) : Prop :=
  ∀ top handler above one below, s.layout.entry? = some top → s.handler? top = some handler →
    s.code top = above ++ one :: below → one.2.canRaise = true →
    ∀ other ∈ below, other.2.isAlloc = false

theorem not_skipsAlloc (path : s.TrailTo b trail) (first : s.AllocatesFirst) :
    ¬ s.SkipsAlloc trail := by
  rintro ⟨top, above, one, below, entry, code, raised, alloc, later, allocates⟩
  obtain ⟨raises, c, handler, member, handled⟩ := path.raised raised
  have here : one ∈ s.code top := Body.mem_code_of_split code
  have same : c = top :=
    Layout.block_unique (mem_code_iff.mp member).1 (mem_code_iff.mp here).1
  subst same
  rw [first c handler above one below entry handled code raises alloc later] at allocates
  cases allocates

/-- In an accepted scope every path to a move of an own local has allocated the frame before, unless
it left the entry block for its handler at an instruction above the allocation.  Where no
instruction above the allocation leads to a handler, every path has allocated the frame. -/
theorem alloc_before_moves (accepted : s.verify = .ok ()) (path : s.TrailTo b trail)
    {above rest : Code} {entry : InsnId × Insn} (code : s.code b = above ++ entry :: rest)
    (own : s.movesOwn entry.2 = true) :
    (Trail.Allocates (trail ++ completing above) ∨ s.SkipsAlloc trail) ∧
      (s.AllocatesFirst → Trail.Allocates (trail ++ completing above)) := by
  obtain ⟨top, alloc, first, member, allocates, ordered⟩ :=
    exists_alloc accepted (mem_allCode_of_code code) own
  have reached : Trail.Allocates (trail ++ completing above) ∨ s.SkipsAlloc trail := by
    rcases path.allocates_or_skips first member allocates with ⟨rfl, rfl⟩ | done | skips
    · have inside : entry ∈ s.code b := Body.mem_code_of_split code
      have before := alloc_mem_above accepted code own member allocates (ordered entry inside own)
      exact Or.inl (Trail.allocates_completing before allocates).append_right
    · exact Or.inl done.append_left
    · exact Or.inr skips
  exact ⟨reached, fun early => reached.resolve_right (not_skipsAlloc path early)⟩

end Body

/-- A method that allocates its frame before a call whose exceptions it handles by loading a
local. -/
def lending : Body where
  name := "lending"
  kind := .method
  layout := (({} : Layout).appendBlock 0 |>.appendBlock 1 |>.appendInsn 0 0 |>.appendInsn 1 0
    |>.appendInsn 2 0 |>.appendInsn 3 1 |>.appendInsn 4 1).renumber
  handlers := #[some 1, none]
  insns := #[.allocFrame, .call none .selfValue "lend" [] (some (.closure 0)), .ret .nil,
    .loadFrame 0, .ret (.var 0)]
  vars := (({} : VarTable).intern (.named "x" 0)).2

theorem alloc_before_moves_lending :
    lending.verify = .ok () ∧ lending.AllocatesFirst ∧
      ∃ trail, lending.TrailTo 1 trail ∧
        lending.code 1 = [] ++ (3, .loadFrame 0) :: [(4, .ret (.var 0))] ∧
        lending.movesOwn (.loadFrame 0) = true ∧ Trail.Allocates (trail ++ completing []) := by
  have accepted : lending.verify = .ok () := by decide
  have top : lending.code 0 = [(0, .allocFrame)] ++
      (1, .call none .selfValue "lend" [] (some (.closure 0))) :: [(2, .ret .nil)] := rfl
  have first : lending.AllocatesFirst := by
    intro first handler above one below entry _ code raises other later
    have here : 0 = first := Option.some.inj entry
    subst here
    have inside : one ∈ lending.code 0 := Body.mem_code_of_split code
    rcases List.mem_cons.mp inside with rfl | inside
    · cases raises
    · rcases List.mem_cons.mp inside with rfl | inside
      · obtain ⟨_, rfl⟩ := Body.code_split_unique code top
        rw [List.mem_singleton.mp later]
        rfl
      · rw [List.mem_singleton.mp inside] at raises
        cases raises
  have path : lending.TrailTo 1 _ := (Body.TrailTo.entry rfl).raise top rfl
    (Body.mem_excSuccs_flowGraph.mpr ⟨by decide, by decide, rfl⟩)
  have code : lending.code 1 = [] ++ (3, .loadFrame 0) :: [(4, .ret (.var 0))] := rfl
  exact ⟨accepted, first, _, path, code, by decide,
    (Body.alloc_before_moves accepted path code (by decide)).2 first⟩

/-- A method that allocates its frame behind a call whose exceptions it handles by storing a
local. -/
def opening : Body where
  name := "opening"
  kind := .method
  layout := (({} : Layout).appendBlock 0 |>.appendBlock 1 |>.appendInsn 0 0 |>.appendInsn 1 0
    |>.appendInsn 2 0 |>.appendInsn 3 1 |>.appendInsn 4 1).renumber
  handlers := #[some 1, none]
  insns := #[.call none .selfValue "open" [] none, .allocFrame, .ret .nil, .storeFrame 0, .ret .nil]
  vars := (({} : VarTable).intern (.named "x" 0)).2

/-- The verifier accepts `opening`, although the path on which the call raises comes to the store
without having allocated the frame. -/
theorem opening_moves_unallocated :
    Checked.checkInvariants opening = .ok (.ok ()) ∧ ∃ trail, opening.TrailTo 1 trail ∧
      opening.code 1 = [] ++ (3, .storeFrame 0) :: [(4, .ret .nil)] ∧
      opening.movesOwn (.storeFrame 0) = true ∧
      ¬ Trail.Allocates (trail ++ completing []) := by
  have accepted : Checked.checkInvariants opening = .ok (.ok ()) := by decide
  have top : opening.code 0 = [] ++ (0, .call none .selfValue "open" [] none) ::
      [(1, .allocFrame), (2, .ret .nil)] := rfl
  have path : opening.TrailTo 1 _ := (Body.TrailTo.entry rfl).raise top rfl
    (Body.mem_excSuccs_flowGraph.mpr ⟨by decide, by decide, rfl⟩)
  refine ⟨accepted, _, path, rfl, by decide, ?_⟩
  rintro ⟨i, member⟩
  cases List.mem_singleton.mp member

end FramePlacement
