import FramePlacement.Proofs.LinkedLayout
/-!
# Linked layouts refine rows

An admitted step appends a new block, splices a new instruction in between two neighbours, or counts
(`Represents.step_cases`), and each of these keeps the representation (`Represents.step`).  So after
any admitted sequence of steps all questions about the linked layout have the answers of the rows
(`linked_refines_rows`).
-/

set_option autoImplicit false

namespace FramePlacement

namespace LinkedLayout

variable {k : LinkedLayout} {l : Layout} {i anchor : InsnId} {b : BlockId}

/-! ## A count -/

def stamp (insns : IdMap InsnNode) (position : UInt32) : List InsnId → IdMap InsnNode
  | [] => insns
  | i :: rest => stamp (insns.set i { insns.get i with position }) (position + 1) rest

theorem succ_count (position : UInt32) (count : Nat) :
    position + 1 + UInt32.ofNat count = position + UInt32.ofNat (count + 1) := by
  rw [UInt32.ofNat_add, UInt32.add_assoc, UInt32.add_comm 1]
  rfl

theorem stamp_append (insns : IdMap InsnNode) (position : UInt32) (l l' : List InsnId) :
    stamp insns position (l ++ l') =
      stamp (stamp insns position l) (position + UInt32.ofNat l.length) l' := by
  induction l generalizing insns position with
  | nil => simp [stamp]
  | cons i rest ih =>
      rw [List.cons_append, stamp, ih, succ_count]
      rfl

def nodeLinks (node : InsnNode) :
    Option BlockId × Option InsnId × Option InsnId := (node.block?, node.prev?, node.next?)

theorem links_stamp (insns : IdMap InsnNode) (position : UInt32) (l : List InsnId) (i : InsnId) :
    nodeLinks ((stamp insns position l).get i) = nodeLinks (insns.get i) := by
  induction l generalizing insns position with
  | nil => rfl
  | cons j rest ih =>
      rw [stamp, ih, IdMap.get_set]
      split
      · next same => exact same ▸ rfl
      · rfl

theorem records_stamp {insns : IdMap InsnNode} {position : UInt32} {l : List InsnId} {i : InsnId}
    (held : insns.Records i) : (stamp insns position l).Records i := by
  induction l generalizing insns position with
  | nil => exact held
  | cons j rest ih => exact ih (IdMap.records_set (Or.inr held))

theorem get_stamp_of_not_mem {insns : IdMap InsnNode} {position : UInt32} {l : List InsnId}
    {i : InsnId} (absent : ¬ i ∈ l) : (stamp insns position l).get i = insns.get i := by
  induction l generalizing insns position with
  | nil => rfl
  | cons j rest ih =>
      rw [List.mem_cons, not_or] at absent
      rw [stamp, ih absent.2, IdMap.get_set, if_neg absent.1]

theorem position_stamp {insns : IdMap InsnNode} {position : UInt32} {l : List InsnId}
    (distinct : l.Nodup) {i : InsnId} {index : Nat} (read : l[index]? = some i) :
    ((stamp insns position l).get i).position = position + UInt32.ofNat index := by
  induction l generalizing insns position index with
  | nil => cases read
  | cons j rest ih =>
      rw [List.nodup_cons] at distinct
      cases index with
      | zero =>
          rw [List.getElem?_cons_zero, Option.some.injEq] at read
          subst read
          rw [stamp, get_stamp_of_not_mem distinct.1, IdMap.get_set, if_pos rfl]
          simp
      | succ index =>
          rw [List.getElem?_cons_succ] at read
          rw [stamp, ih distinct.2 read, succ_count]

theorem next_stamp (insns : IdMap InsnNode) (position : UInt32) (l : List InsnId) :
    (fun i => ((stamp insns position l).get i).next?) = fun i => (insns.get i).next? :=
  funext fun i => congrArg (·.2.2) (links_stamp insns position l i)

theorem numberRow_eq_stamp {insns : IdMap InsnNode} {start : Option InsnId} {row : List InsnId}
    (links : Follows (fun i => (insns.get i).next?) start row) {limit : Nat}
    (enough : row.length ≤ limit) (position : UInt32) :
    numberRow limit insns position start =
      (stamp insns position row, position + UInt32.ofNat row.length) := by
  induction row generalizing insns start position limit with
  | nil =>
      cases links
      cases limit <;> simp [numberRow, stamp]
  | cons i rest ih =>
      cases links with
      | step later =>
          cases limit with
          | zero => exact absurd enough (Nat.not_succ_le_zero _)
          | succ limit =>
              have same := next_stamp insns position [i]
              rw [numberRow, ih (same.symm ▸ later) (Nat.le_of_succ_le_succ enough), succ_count]
              rfl

theorem numberRows_eq_stamp {rows : BlockId → List InsnId}
    {insns : IdMap InsnNode} {start : Option BlockId} {blocks : List BlockId}
    (links : Follows k.nextBlock? start blocks)
    (inner : ∀ b ∈ blocks, Follows (fun i => (insns.get i).next?) (k.firstInsn? b) (rows b))
    (fits : ∀ b, (rows b).length ≤ k.insns.size) {limit : Nat}
    (enough : blocks.length ≤ limit) (position : UInt32) :
    k.numberRows limit insns position start = stamp insns position (blocks.flatMap rows) := by
  induction blocks generalizing insns start position limit with
  | nil =>
      cases links
      cases limit <;> rfl
  | cons b rest ih =>
      cases links with
      | step later =>
          cases limit with
          | zero => exact absurd enough (Nat.not_succ_le_zero _)
          | succ limit =>
              have row := numberRow_eq_stamp (inner b List.mem_cons_self) (fits b) position
              have same := next_stamp insns position (rows b)
              rw [numberRows, row]
              simp only
              rw [ih later (fun c member => same.symm ▸ inner c (List.mem_cons_of_mem b member))
                  (Nat.le_of_succ_le_succ enough),
                List.flatMap_cons, stamp_append]

theorem Represents.renumber_eq_stamp (rep : Represents k l) :
    k.renumber = { k with insns := stamp k.insns 0 l.allInsns } := by
  unfold renumber
  rw [numberRows_eq_stamp rep.followsBlocks (fun b _ => rep.followsInsns b) rep.insns_length_le
    rep.blocks_length_le, ← Layout.allInsns_eq]

theorem Represents.renumber (rep : Represents k l) : Represents k.renumber l.renumber := by
  have nodes : ∀ i, nodeLinks (k.renumber.insns.get i) = nodeLinks (k.insns.get i) := by
    intro i
    rw [rep.renumber_eq_stamp]
    exact links_stamp k.insns 0 l.allInsns i
  have owner : k.renumber.blockOf? = k.blockOf? := funext fun i => congrArg (·.1) (nodes i)
  have prev : k.renumber.prevInsn? = k.prevInsn? := funext fun i => congrArg (·.2.1) (nodes i)
  have next : k.renumber.nextInsn? = k.nextInsn? := funext fun i => congrArg (·.2.2) (nodes i)
  exact
    { entry := rep.entry
      lastBlock := rep.lastBlock
      firstInsn := rep.firstInsn
      lastInsn := rep.lastInsn
      blockLinks := rep.blockLinks
      insnLinks := fun b => prev ▸ next ▸ rep.insnLinks b
      owner := fun i => owner ▸ rep.owner i
      position := fun i => by
        unfold LinkedLayout.position
        rw [rep.renumber_eq_stamp]
        by_cases listed : i ∈ l.allInsns
        · obtain ⟨index, read⟩ := List.mem_iff_getElem?.mp listed
          rw [Layout.position_renumber read]
          exact (position_stamp l.allInsns_nodup read).trans (UInt32.zero_add _)
        · have unread : l.renumber.position i = 0 := by
            have unrecorded : l.allInsns.zipIdx.lookup i = none := by
              refine List.lookup_eq_none_iff.mpr fun entry member => ?_
              have inside : entry.1 ∈ l.allInsns := List.fst_mem_of_mem_zipIdx member
              exact bne_iff_ne.mpr fun same : i = entry.1 => listed (same ▸ inside)
            unfold Layout.position Layout.renumber IdMap.get IdMap.ofPairs
            rw [unrecorded]
            rfl
          rw [unread, get_stamp_of_not_mem listed, rep.blankInsn i listed]
          rfl
      blankBlock := rep.blankBlock
      blankInsn := fun i absent => by
        rw [rep.renumber_eq_stamp]
        exact (get_stamp_of_not_mem absent).trans (rep.blankInsn i absent)
      blocksRecorded := rep.blocksRecorded
      insnsRecorded := fun i listed => by
        rw [rep.renumber_eq_stamp]
        exact records_stamp (rep.insnsRecorded i listed) }

/-! ## Any step -/

/-- An admitted step appends a new block, splices a new instruction in, or counts. -/
theorem Represents.step_cases (rep : Represents k l) {step : LayoutStep}
    (admitted : k.admits step = true) :
    (∃ b, step = .appendBlock b ∧ ¬ b ∈ l.blocks) ∨
    (∃ i b front back, step.newInsn? = some i ∧ step.newBlock? = none ∧
      Gains l (step.onRows l) i b front back ∧
      step.onLinks k = k.splice i b front.getLast? back.head?) ∨
    step = .renumber := by
  have isFresh : ∀ {i}, (!k.hasInsn i) = true → ¬ i ∈ l.allInsns := by
    intro i fresh listed
    rw [(rep.hasInsn_iff i).mpr listed] at fresh
    cases fresh
  cases step with
  | appendBlock b =>
      refine Or.inl ⟨b, rfl, fun listed => ?_⟩
      have fresh : (!k.hasBlock b) = true := admitted
      rw [(rep.hasBlock_iff b).mpr listed] at fresh
      cases fresh
  | appendInsn i b =>
      obtain ⟨listed, fresh⟩ := Bool.and_eq_true_iff.mp admitted
      have gains : Gains l (l.appendInsn i b) i b (l.insns b) [] :=
        gains_addToBlock ((rep.hasBlock_iff b).mp listed) (isFresh fresh)
          (List.append_nil _).symm (by rw [List.append_nil])
      exact Or.inr (Or.inl ⟨i, b, l.insns b, [], rfl, rfl, gains, rep.appendInsn_eq_splice i b⟩)
  | prependInsn i b =>
      obtain ⟨listed, fresh⟩ := Bool.and_eq_true_iff.mp admitted
      have gains : Gains l (l.prependInsn i b) i b [] (l.insns b) :=
        gains_addToBlock ((rep.hasBlock_iff b).mp listed) (isFresh fresh) rfl rfl
      exact Or.inr (Or.inl
        ⟨i, b, [], l.insns b, rfl, rfl, gains, rep.prependInsn_eq_splice i b⟩)
  | insertBefore i anchor =>
      obtain ⟨listed, fresh⟩ := Bool.and_eq_true_iff.mp admitted
      obtain ⟨b, inside⟩ := Layout.mem_allInsns_iff.mp ((rep.hasInsn_iff anchor).mp listed)
      obtain ⟨front, back, split⟩ := List.append_of_mem inside
      have gains : Gains l (l.insertBefore i anchor) i b front (anchor :: back) :=
        gains_addBeside (isFresh fresh) inside split
          (Row.insertBefore_of_split (l.not_mem_front_of_split split))
      exact Or.inr (Or.inl ⟨i, b, front, anchor :: back, rfl, rfl, gains,
        rep.insertBefore_eq_splice split i⟩)
  | insertAfter i anchor =>
      obtain ⟨listed, fresh⟩ := Bool.and_eq_true_iff.mp admitted
      obtain ⟨b, inside⟩ := Layout.mem_allInsns_iff.mp ((rep.hasInsn_iff anchor).mp listed)
      obtain ⟨front, back, split⟩ := List.append_of_mem inside
      have through : front ++ anchor :: back = (front ++ [anchor]) ++ back :=
        List.append_cons front anchor back
      have puts : Row.insertAfter i anchor ((front ++ [anchor]) ++ back) =
          (front ++ [anchor]) ++ i :: back := by
        rw [← through, Row.insertAfter_of_split (l.not_mem_front_of_split split)]
        exact List.append_cons front anchor (i :: back)
      have gains : Gains l (l.insertAfter i anchor) i b (front ++ [anchor]) back :=
        gains_addBeside (isFresh fresh) inside (split.trans through) puts
      refine Or.inr (Or.inl ⟨i, b, front ++ [anchor], back, rfl, rfl, gains, ?_⟩)
      rw [List.getLast?_concat]
      exact rep.insertAfter_eq_splice split i
  | renumber => exact Or.inr (Or.inr rfl)

theorem Represents.step (rep : Represents k l) {step : LayoutStep}
    (admitted : k.admits step = true) : Represents (step.onLinks k) (step.onRows l) := by
  obtain ⟨b, rfl, fresh⟩ | ⟨i, b, front, back, -, -, gains, spliced⟩ | rfl :=
    rep.step_cases admitted
  · exact rep.appendBlock fresh
  · exact spliced ▸ rep.splice gains
  · exact rep.renumber

/-- One admitted step keeps every other element where it is. -/
theorem Represents.step_keeps_others (rep : Represents k l) {step : LayoutStep}
    (admitted : k.admits step = true) :
    ((step.onRows l).blocks.filter fun b => some b ≠ step.newBlock?) = l.blocks ∧
      ∀ c, (((step.onRows l).insns c).filter fun i => some i ≠ step.newInsn?) = l.insns c := by
  have all : ∀ {rest : List Nat} {new : Option Nat}, (∀ x ∈ rest, some x ≠ new) →
      (rest.filter fun x => some x ≠ new) = rest := fun others =>
    List.filter_eq_self.mpr fun x member => decide_eq_true (others x member)
  obtain ⟨b, rfl, fresh⟩ | ⟨i, b, front, back, new, noBlock, gains, -⟩ | rfl :=
    rep.step_cases admitted
  · refine ⟨?_, fun c => ?_⟩
    · have others : ∀ c ∈ l.blocks, some c ≠ some b := fun c listed same =>
        fresh (Option.some.inj same ▸ listed)
      change ((l.appendBlock b).blocks.filter fun c => some c ≠ some b) = l.blocks
      rw [Layout.blocks_appendBlock, if_neg fresh, List.filter_append, all others]
      simp
    · change (((l.appendBlock b).insns c).filter fun i => some i ≠ none) = l.insns c
      rw [Layout.insns_appendBlock]
      exact all fun i _ => Option.some_ne_none i
  · have others : ∀ c, ∀ j ∈ l.insns c, some j ≠ some i := fun c j inside same =>
      gains.fresh (Layout.mem_allInsns_iff.mpr ⟨c, Option.some.inj same ▸ inside⟩)
    refine ⟨?_, fun c => ?_⟩
    · rw [gains.blocks, noBlock]
      exact all fun b _ => Option.some_ne_none b
    · rw [gains.insns c, new]
      by_cases same : c = b
      · have kept := gains.here ▸ others b
        rw [if_pos same, same, gains.here, List.filter_append, List.filter_cons,
          all fun j inside => kept j (List.mem_append_left back inside),
          all fun j inside => kept j (List.mem_append_right front inside)]
        simp
      · rw [if_neg same]
        exact all (others c)
  · exact ⟨all fun b _ => Option.some_ne_none b, fun c => all fun i _ => Option.some_ne_none i⟩

theorem Represents.run {steps : List LayoutStep} (rep : Represents k l)
    (admitted : k.admitsAll steps = true) :
    Represents (steps.foldl LayoutStep.onLinks k) (steps.foldl LayoutStep.onRows l) := by
  induction steps generalizing k l with
  | nil => exact rep
  | cons step rest ih =>
      obtain ⟨now, later⟩ := Bool.and_eq_true_iff.mp admitted
      exact ih (rep.step now) later

theorem admitsAll_append {front back : List LayoutStep} :
    k.admitsAll (front ++ back) = true ↔
      k.admitsAll front = true ∧ (front.foldl LayoutStep.onLinks k).admitsAll back = true := by
  induction front generalizing k with
  | nil => exact ⟨fun h => ⟨rfl, h⟩, And.right⟩
  | cons step rest ih =>
      rw [List.cons_append, admitsAll, admitsAll, Bool.and_eq_true, Bool.and_eq_true, ih, and_assoc]
      rfl

theorem Represents.positions_renumber (rep : Represents k l)
    (few : l.allInsns.length < UInt32.size) :
    ((k.renumber.iterBlocks.flatMap k.renumber.iterInsns).map fun i =>
      (k.renumber.position i).toNat) = List.range l.allInsns.length := by
  have counted := rep.renumber
  have order : k.renumber.iterBlocks.flatMap k.renumber.iterInsns = l.allInsns := by
    rw [counted.iterBlocks, funext counted.iterInsns, ← Layout.allInsns_eq]
    rfl
  rw [order]
  refine List.ext_getElem? fun index => ?_
  rw [List.getElem?_map]
  cases read : l.allInsns[index]? with
  | none =>
      have out := List.getElem?_eq_none_iff.mp read
      exact (List.getElem?_eq_none (List.length_range ▸ out)).symm
  | some i =>
      have inside : index < l.allInsns.length := (List.getElem?_eq_some_iff.mp read).1
      rw [List.getElem?_range inside, Option.map_some, counted.position i,
        Layout.position_renumber read, UInt32.toNat_ofNat_of_lt' (Nat.lt_trans inside few)]

end LinkedLayout

/-- A linked layout refines its rows.  Take any sequence of steps from the empty layout in which
every step meets its assertions.  Every question about the linked layout then has the answer of the
rows.  Each step leaves all other elements of the lists where they were, and none is there twice.
After a count the positions in layout order are zero, one, two and so on. -/
theorem linked_refines_rows {steps : List LayoutStep}
    (admitted : LinkedLayout.admitsAll {} steps = true) :
    (steps.foldl LayoutStep.onLinks {}).Agrees (steps.foldl LayoutStep.onRows {}) ∧
      (∀ front step back, steps = front ++ step :: back →
        let old := front.foldl LayoutStep.onLinks {}
        let new := step.onLinks old
        (new.iterBlocks.filter fun b => some b ≠ step.newBlock?) = old.iterBlocks ∧
          ∀ b, ((new.iterInsns b).filter fun i => some i ≠ step.newInsn?) = old.iterInsns b) ∧
      (let built := steps.foldl LayoutStep.onLinks {}
      built.iterBlocks.Nodup ∧ (built.iterBlocks.flatMap built.iterInsns).Nodup ∧
        ((built.iterBlocks.flatMap built.iterInsns).length < UInt32.size →
          ((built.renumber.iterBlocks.flatMap built.renumber.iterInsns).map fun i =>
            (built.renumber.position i).toNat) =
          List.range (built.iterBlocks.flatMap built.iterInsns).length)) := by
  have rep := LinkedLayout.represents_empty.run admitted
  refine ⟨rep.agrees, fun front step back split => ?_, ?_⟩
  · rw [split, LinkedLayout.admitsAll_append] at admitted
    have before := LinkedLayout.represents_empty.run admitted.1
    have now := (Bool.and_eq_true_iff.mp admitted.2).1
    obtain ⟨blocks, insns⟩ := before.step_keeps_others now
    have after := before.step now
    intro old new
    exact ⟨by rw [after.iterBlocks, before.iterBlocks, blocks],
      fun b => by rw [after.iterInsns, before.iterInsns, insns]⟩
  · have order : (steps.foldl LayoutStep.onLinks {}).iterBlocks.flatMap
        (steps.foldl LayoutStep.onLinks {}).iterInsns =
        (steps.foldl LayoutStep.onRows {}).allInsns := by
      rw [rep.iterBlocks, funext rep.iterInsns, ← Layout.allInsns_eq]
    intro built
    refine ⟨rep.iterBlocks ▸ Layout.blocks_nodup _, order ▸ Layout.allInsns_nodup _, ?_⟩
    intro few
    rw [order] at few ⊢
    exact rep.positions_renumber few

/-- Two blocks that take turns in getting instructions at their ends and inside. -/
def takingTurns : List LayoutStep :=
  [.appendBlock 0, .appendBlock 1, .appendInsn 0 0, .appendInsn 1 1, .prependInsn 2 0,
    .insertAfter 3 0, .insertBefore 4 1, .renumber, .insertBefore 5 2]

theorem linked_refines_rows_takingTurns :
    LinkedLayout.admitsAll {} takingTurns = true ∧
      (takingTurns.foldl LayoutStep.onLinks {}).iterInsns 0 = [5, 2, 0, 3] ∧
      (takingTurns.foldl LayoutStep.onLinks {}).renumber.position 4 = 4 ∧
      (takingTurns.foldl LayoutStep.onLinks {}).Agrees
        (takingTurns.foldl LayoutStep.onRows {}) := by
  have admitted : LinkedLayout.admitsAll {} takingTurns = true := by decide
  exact ⟨admitted, by decide, by decide, (linked_refines_rows admitted).1⟩

end FramePlacement
