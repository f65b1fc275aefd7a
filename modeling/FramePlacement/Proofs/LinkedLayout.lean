import FramePlacement.Proofs.Links
/-!
# Linked layouts that represent rows

A linked layout represents rows when each list of the rows stands on the links in both directions,
with its ends where the tables keep them (`Represents`).  Then all questions about it have the
answers of the rows (`Represents.agrees`).  Splicing a new instruction in between two neighbours
keeps the representation (`Represents.splice`), and so does appending a new block
(`Represents.appendBlock`).
-/

set_option autoImplicit false

namespace FramePlacement

namespace LinkedLayout

variable {k : LinkedLayout} {l : Layout} {i anchor : InsnId} {b : BlockId}

def prevBlock? (k : LinkedLayout) (b : BlockId) : Option BlockId := (k.blocks.get b).prev?

/-- The links of both tables run along the rows, and nothing else has ever been touched. -/
structure Represents (k : LinkedLayout) (l : Layout) : Prop where
  entry : k.entry? = l.entry?
  lastBlock : k.lastBlock? = l.lastBlock?
  firstInsn : ∀ b, k.firstInsn? b = l.firstInsn? b
  lastInsn : ∀ b, k.lastInsn? b = l.lastInsn? b
  blockLinks : Doubly k.prevBlock? k.nextBlock? l.blocks
  insnLinks : ∀ b, Doubly k.prevInsn? k.nextInsn? (l.insns b)
  owner : ∀ i, k.blockOf? i = l.blockOf? i
  position : ∀ i, k.position i = UInt32.ofNat (l.position i)
  blankBlock : ∀ b, ¬ b ∈ l.blocks → k.blocks.get b = {}
  blankInsn : ∀ i, ¬ i ∈ l.allInsns → k.insns.get i = {}
  blocksRecorded : ∀ b ∈ l.blocks, k.blocks.Records b
  insnsRecorded : ∀ i ∈ l.allInsns, k.insns.Records i

theorem represents_empty : Represents {} {} where
  entry := rfl
  lastBlock := rfl
  firstInsn _ := rfl
  lastInsn _ := rfl
  blockLinks := doubly_nil
  insnLinks _ := doubly_nil
  owner _ := rfl
  position _ := rfl
  blankBlock _ _ := rfl
  blankInsn _ _ := rfl
  blocksRecorded _ member := by cases member
  insnsRecorded _ member := by cases member

/-! ## Questions -/

/-- Every question about a linked layout has the answer of the rows, and the iterators yield the
rows and end. -/
structure Agrees (k : LinkedLayout) (l : Layout) : Prop where
  entry : k.entry? = l.entry?
  lastBlock : k.lastBlock? = l.lastBlock?
  nextBlock : ∀ b, k.nextBlock? b = l.nextBlock? b
  firstInsn : ∀ b, k.firstInsn? b = l.firstInsn? b
  lastInsn : ∀ b, k.lastInsn? b = l.lastInsn? b
  prevInsn : ∀ i, k.prevInsn? i = l.prevInsn? i
  nextInsn : ∀ i, k.nextInsn? i = l.nextInsn? i
  blockOf : ∀ i, k.blockOf? i = l.blockOf? i
  hasBlock : ∀ b, k.hasBlock b = true ↔ b ∈ l.blocks
  hasInsn : ∀ i, k.hasInsn i = true ↔ i ∈ l.allInsns
  followsBlocks : Follows k.nextBlock? k.entry? l.blocks
  followsInsns : ∀ b, Follows k.nextInsn? (k.firstInsn? b) (l.insns b)
  followsInsnsRev : ∀ b, Follows k.prevInsn? (k.lastInsn? b) (l.insns b).reverse
  iterBlocks : k.iterBlocks = l.blocks
  iterInsns : ∀ b, k.iterInsns b = l.insns b
  iterInsnsRev : ∀ b, k.iterInsnsRev b = (l.insns b).reverse
  blockCount : k.blockCount = l.blocks.length

namespace Represents

theorem hasBlock_iff (rep : Represents k l) (b : BlockId) :
    k.hasBlock b = true ↔ b ∈ l.blocks := by
  unfold hasBlock
  rw [Bool.or_eq_true, beq_iff_eq, bne_iff_ne, rep.entry]
  constructor
  · rintro (first | touched)
    · exact List.mem_of_head? first
    · exact Decidable.byContradiction fun absent => touched (rep.blankBlock b absent)
  · intro member
    obtain ⟨front, back, split⟩ := List.append_of_mem member
    have ahead : (k.blocks.get b).prev? = front.getLast? := (rep.blockLinks front b back split).1
    cases front with
    | nil =>
        left
        unfold Layout.entry?
        rw [split]
        rfl
    | cons first front =>
        -- a block that is not the first one has a link to the block before it
        right
        intro blank
        rw [blank, List.getLast?_eq_some_getLast (List.cons_ne_nil first front)] at ahead
        cases ahead

theorem hasInsn_iff (rep : Represents k l) (i : InsnId) :
    k.hasInsn i = true ↔ i ∈ l.allInsns := by
  unfold hasInsn
  rw [rep.owner, Option.isSome_iff_exists, Layout.mem_allInsns_iff]
  exact exists_congr fun b => Layout.blockOf?_eq_some_iff

theorem nextBlock (rep : Represents k l) (b : BlockId) : k.nextBlock? b = l.nextBlock? b := by
  by_cases member : b ∈ l.blocks
  · obtain ⟨front, back, split⟩ := List.append_of_mem member
    have distinct := l.blocks_nodup
    rw [split, List.nodup_append] at distinct
    have first : ¬ b ∈ front := fun inside => distinct.2.2 b inside b List.mem_cons_self rfl
    unfold Layout.nextBlock?
    rw [(rep.blockLinks front b back split).2, split, Row.successor?_of_split first]
  · unfold nextBlock? Layout.nextBlock?
    rw [rep.blankBlock b member, Row.successor?_of_not_mem member]

theorem neighbours (rep : Represents k l) (i : InsnId) :
    k.prevInsn? i = l.prevInsn? i ∧ k.nextInsn? i = l.nextInsn? i := by
  unfold Layout.prevInsn? Layout.nextInsn?
  cases owner : l.blockOf? i with
  | none =>
      have absent : ¬ i ∈ l.allInsns := fun member => by
        obtain ⟨b, inside⟩ := Layout.mem_allInsns_iff.mp member
        rw [Layout.blockOf?_eq_some_iff.mpr inside] at owner
        cases owner
      unfold prevInsn? nextInsn?
      rw [rep.blankInsn i absent]
      exact ⟨rfl, rfl⟩
  | some b =>
      obtain ⟨front, back, split⟩ := List.append_of_mem (Layout.blockOf?_eq_some_iff.mp owner)
      have distinct := (l.insns_sublist_allInsns b).nodup l.allInsns_nodup
      rw [split] at distinct
      have first := l.not_mem_front_of_split split
      rw [(rep.insnLinks b front i back split).1, (rep.insnLinks b front i back split).2,
        Option.bind_some, Option.bind_some, split, Row.predecessor?_of_split distinct,
        Row.successor?_of_split first]
      exact ⟨rfl, rfl⟩

theorem followsBlocks (rep : Represents k l) : Follows k.nextBlock? k.entry? l.blocks :=
  rep.entry ▸ rep.blockLinks.follows

theorem followsInsns (rep : Represents k l) (b : BlockId) :
    Follows k.nextInsn? (k.firstInsn? b) (l.insns b) :=
  rep.firstInsn b ▸ (rep.insnLinks b).follows

theorem followsInsnsRev (rep : Represents k l) (b : BlockId) :
    Follows k.prevInsn? (k.lastInsn? b) (l.insns b).reverse := by
  have back := (rep.insnLinks b).reverse.follows
  rw [List.head?_reverse] at back
  exact rep.lastInsn b ▸ back

theorem blocks_length_le (rep : Represents k l) : l.blocks.length ≤ k.blocks.size :=
  IdMap.length_le_size l.blocks_nodup rep.blocksRecorded

theorem insns_length_le (rep : Represents k l) (b : BlockId) :
    (l.insns b).length ≤ k.insns.size :=
  Nat.le_trans (l.insns_sublist_allInsns b).length_le
    (IdMap.length_le_size l.allInsns_nodup rep.insnsRecorded)

theorem iterBlocks (rep : Represents k l) : k.iterBlocks = l.blocks :=
  chain_eq_of_follows rep.followsBlocks rep.blocks_length_le

theorem iterInsns (rep : Represents k l) (b : BlockId) : k.iterInsns b = l.insns b :=
  chain_eq_of_follows (rep.followsInsns b) (rep.insns_length_le b)

theorem iterInsnsRev (rep : Represents k l) (b : BlockId) :
    k.iterInsnsRev b = (l.insns b).reverse :=
  chain_eq_of_follows (rep.followsInsnsRev b)
    (Nat.le_trans (Nat.le_of_eq List.length_reverse) (rep.insns_length_le b))

theorem agrees (rep : Represents k l) : k.Agrees l where
  entry := rep.entry
  lastBlock := rep.lastBlock
  nextBlock := rep.nextBlock
  firstInsn := rep.firstInsn
  lastInsn := rep.lastInsn
  prevInsn i := (rep.neighbours i).1
  nextInsn i := (rep.neighbours i).2
  blockOf := rep.owner
  hasBlock := rep.hasBlock_iff
  hasInsn := rep.hasInsn_iff
  followsBlocks := rep.followsBlocks
  followsInsns := rep.followsInsns
  followsInsnsRev := rep.followsInsnsRev
  iterBlocks := rep.iterBlocks
  iterInsns := rep.iterInsns
  iterInsnsRev := rep.iterInsnsRev
  blockCount := congrArg List.length rep.iterBlocks

end Represents

/-! ## One insertion -/

section Reading

variable (k : LinkedLayout) (i j : InsnId) (b c : BlockId) (before? after? : Option InsnId)

@[simp] theorem entry?_splice :
    LinkedLayout.entry? (k.splice i b before? after?) = k.entry? := by
  cases before? <;> cases after? <;> rfl

@[simp] theorem lastBlock?_splice :
    (k.splice i b before? after?).lastBlock? = k.lastBlock? := by
  cases before? <;> cases after? <;> rfl

theorem blocks_splice : (k.splice i b before? after?).blocks.get c =
    if c = b then
      { k.blocks.get b with
        first? := if before? = none then some i else (k.blocks.get b).first?
        last? := if after? = none then some i else (k.blocks.get b).last? }
    else k.blocks.get c := by
  by_cases same : c = b
  · subst same
    cases before? <;> cases after? <;> simp [splice, updateBlock, updateInsn]
  · cases before? <;> cases after? <;> simp [splice, updateBlock, updateInsn, same]

theorem insns_updateInsn (x : InsnId) (f : InsnNode → InsnNode) :
    (k.updateInsn x f).insns.get j = if some x = some j then f (k.insns.get j)
      else k.insns.get j := by
  unfold updateInsn
  rw [IdMap.get_set]
  by_cases same : j = x
  · rw [if_pos same, if_pos (congrArg some same.symm), same]
  · rw [if_neg same, if_neg fun h => same (Option.some.inj h).symm]

theorem insns_splice : (k.splice i b before? after?).insns.get j =
    if j = i then { block? := some b, prev? := before?, next? := after? }
    else
      { k.insns.get j with
        prev? := if after? = some j then some i else (k.insns.get j).prev?
        next? := if before? = some j then some i else (k.insns.get j).next? } := by
  unfold splice
  rw [IdMap.get_set]
  by_cases new : j = i
  · rw [if_pos new, if_pos new]
  · rw [if_neg new, if_neg new]
    cases before? with
    | none =>
        cases after? with
        | none => rfl
        | some after => simp only [insns_updateInsn]; split <;> rfl
    | some before =>
        cases after? with
        | none => simp only [updateBlock, insns_updateInsn]; split <;> rfl
        | some after => simp only [insns_updateInsn]; split <;> split <;> rfl

theorem records_splice {j : InsnId} (held : j = i ∨ k.insns.Records j) :
    (k.splice i b before? after?).insns.Records j := by
  refine IdMap.records_set (held.imp_right fun held => ?_)
  cases before? <;> cases after?
  · exact held
  · exact IdMap.records_set (Or.inr held)
  · exact IdMap.records_set (Or.inr held)
  · exact IdMap.records_set (Or.inr (IdMap.records_set (Or.inr held)))

theorem blocks_records_splice {c : BlockId} (held : k.blocks.Records c) :
    (k.splice i b before? after?).blocks.Records c := by
  cases before? <;> cases after?
  · exact IdMap.records_set (Or.inr (IdMap.records_set (Or.inr held)))
  · exact IdMap.records_set (Or.inr held)
  · exact IdMap.records_set (Or.inr held)
  · exact held

end Reading

/-- Two rows differ by one new instruction between the two parts of a block's list. -/
structure Gains (l l' : Layout) (i : InsnId) (b : BlockId) (front back : List InsnId) : Prop where
  fresh : ¬ i ∈ l.allInsns
  listed : b ∈ l.blocks
  here : l.insns b = front ++ back
  blocks : l'.blocks = l.blocks
  insns : ∀ c, l'.insns c = if c = b then front ++ i :: back else l.insns c
  position : ∀ j, l'.position j = if j = i then 0 else l.position j

section Splice

variable {l' : Layout} {front back : List InsnId}

theorem Gains.mem_insns_iff (gains : Gains l l' i b front back) {j : InsnId} {c : BlockId} :
    j ∈ l'.insns c ↔ j ∈ l.insns c ∨ j = i ∧ c = b := by
  rw [gains.insns c]
  by_cases same : c = b
  · subst same
    rw [if_pos rfl, gains.here, List.mem_append, List.mem_append, List.mem_cons]
    constructor
    · rintro (inFront | here | inBack)
      · exact Or.inl (Or.inl inFront)
      · exact Or.inr ⟨here, rfl⟩
      · exact Or.inl (Or.inr inBack)
    · rintro ((inFront | inBack) | ⟨here, -⟩)
      · exact Or.inl inFront
      · exact Or.inr (Or.inr inBack)
      · exact Or.inr (Or.inl here)
  · rw [if_neg same]
    exact ⟨Or.inl, fun h => h.resolve_right fun both => same both.2⟩

theorem Gains.mem_allInsns_iff (gains : Gains l l' i b front back) {j : InsnId} :
    j ∈ l'.allInsns ↔ j ∈ l.allInsns ∨ j = i := by
  rw [Layout.mem_allInsns_iff, Layout.mem_allInsns_iff]
  constructor
  · rintro ⟨c, inside⟩
    exact (gains.mem_insns_iff.mp inside).imp (fun old => ⟨c, old⟩) And.left
  · rintro (⟨c, inside⟩ | new)
    · exact ⟨c, gains.mem_insns_iff.mpr (Or.inl inside)⟩
    · exact ⟨b, gains.mem_insns_iff.mpr (Or.inr ⟨new, rfl⟩)⟩

theorem Gains.mem_allInsns (gains : Gains l l' i b front back) {j : InsnId}
    (member : j ∈ front ++ back) : j ∈ l.allInsns :=
  Layout.mem_allInsns_iff.mpr ⟨b, gains.here ▸ member⟩

theorem Gains.ends (gains : Gains l l' i b front back) {j : InsnId} (other : ¬ j ∈ l.insns b) :
    front.getLast? ≠ some j ∧ back.head? ≠ some j := by
  rw [gains.here, List.mem_append, not_or] at other
  exact ⟨fun last => other.1 (List.mem_of_getLast? last),
    fun first => other.2 (List.mem_of_head? first)⟩

theorem Represents.firstInsn?_splice (rep : Represents k l) (gains : Gains l l' i b front back)
    (c : BlockId) :
    (k.splice i b front.getLast? back.head?).firstInsn? c = l'.firstInsn? c := by
  unfold firstInsn? Layout.firstInsn?
  rw [blocks_splice, gains.insns c]
  by_cases same : c = b
  · have first : (k.blocks.get b).first? = (front ++ back).head? := gains.here ▸ rep.firstInsn b
    rw [if_pos same, if_pos same]
    cases front with
    | nil => rfl
    | cons x front => simp [first]
  · rw [if_neg same, if_neg same]
    exact rep.firstInsn c

theorem Represents.lastInsn?_splice (rep : Represents k l) (gains : Gains l l' i b front back)
    (c : BlockId) :
    (k.splice i b front.getLast? back.head?).lastInsn? c = l'.lastInsn? c := by
  unfold lastInsn? Layout.lastInsn?
  rw [blocks_splice, gains.insns c]
  by_cases same : c = b
  · have last : (k.blocks.get b).last? = (front ++ back).getLast? := gains.here ▸ rep.lastInsn b
    rw [if_pos same, if_pos same]
    cases back with
    | nil => simp
    | cons x back => simp [last]
  · rw [if_neg same, if_neg same]
    exact rep.lastInsn c

theorem Represents.insnLinks_splice (rep : Represents k l) (gains : Gains l l' i b front back)
    (c : BlockId) :
    Doubly (k.splice i b front.getLast? back.head?).prevInsn?
      (k.splice i b front.getLast? back.head?).nextInsn? (l'.insns c) := by
  have ahead : ∀ j, j ≠ i → (k.splice i b front.getLast? back.head?).nextInsn? j =
      if front.getLast? = some j then some i else k.nextInsn? j := by
    intro j other
    unfold nextInsn?
    rw [insns_splice, if_neg other]
  have behind : ∀ j, j ≠ i → (k.splice i b front.getLast? back.head?).prevInsn? j =
      if back.head? = some j then some i else k.prevInsn? j := by
    intro j other
    unfold prevInsn?
    rw [insns_splice, if_neg other]
  rw [gains.insns c]
  by_cases same : c = b
  · rw [if_pos same]
    have links := rep.insnLinks b
    have distinct := (l.insns_sublist_allInsns b).nodup l.allInsns_nodup
    rw [gains.here] at links distinct
    refine links.insert (fun inside => gains.fresh (gains.mem_allInsns inside)) distinct ?_
      ahead behind
    unfold prevInsn? nextInsn?
    rw [insns_splice, if_pos rfl]
    exact ⟨rfl, rfl⟩
  · -- the neighbours of the new instruction stand in block `b`
    rw [if_neg same]
    refine (rep.insnLinks c).congr fun j inside => ?_
    obtain ⟨notLast, notFirst⟩ := gains.ends fun here => same (Layout.block_unique inside here)
    have other : j ≠ i := fun new =>
      gains.fresh (new ▸ Layout.mem_allInsns_iff.mpr ⟨c, inside⟩)
    rw [ahead j other, behind j other, if_neg notLast, if_neg notFirst]
    exact ⟨rfl, rfl⟩

theorem Represents.blockOf?_splice (rep : Represents k l) (gains : Gains l l' i b front back)
    (j : InsnId) :
    (k.splice i b front.getLast? back.head?).blockOf? j = l'.blockOf? j := by
  unfold blockOf?
  rw [insns_splice]
  apply Option.ext
  intro c
  rw [Layout.blockOf?_eq_some_iff, gains.mem_insns_iff]
  by_cases new : j = i
  · rw [if_pos new]
    constructor
    · intro read
      exact Or.inr ⟨new, (Option.some.inj read).symm⟩
    · rintro (old | ⟨-, same⟩)
      · exact absurd (Layout.mem_allInsns_iff.mpr ⟨c, new ▸ old⟩) gains.fresh
      · exact congrArg some same.symm
  · rw [if_neg new]
    refine (Option.ext_iff.mp (rep.owner j) c).trans (Layout.blockOf?_eq_some_iff.trans ?_)
    exact ⟨Or.inl, fun h => h.resolve_right fun both => new both.1⟩

theorem Represents.splice (rep : Represents k l) (gains : Gains l l' i b front back) :
    Represents (k.splice i b front.getLast? back.head?) l' where
  entry := by
    unfold Layout.entry?
    rw [entry?_splice, gains.blocks]
    exact rep.entry
  lastBlock := by
    unfold Layout.lastBlock?
    rw [lastBlock?_splice, gains.blocks]
    exact rep.lastBlock
  firstInsn := rep.firstInsn?_splice gains
  lastInsn := rep.lastInsn?_splice gains
  blockLinks := by
    rw [gains.blocks]
    refine rep.blockLinks.congr fun c _ => ?_
    unfold prevBlock? nextBlock?
    rw [blocks_splice]
    split
    · next here => exact here ▸ ⟨rfl, rfl⟩
    · exact ⟨rfl, rfl⟩
  insnLinks := rep.insnLinks_splice gains
  owner := rep.blockOf?_splice gains
  position j := by
    unfold LinkedLayout.position
    rw [insns_splice, gains.position j]
    by_cases new : j = i
    · rw [if_pos new, if_pos new]
      rfl
    · rw [if_neg new, if_neg new]
      exact rep.position j
  blankBlock c absent := by
    rw [gains.blocks] at absent
    rw [blocks_splice, if_neg fun same : c = b => absent (same ▸ gains.listed)]
    exact rep.blankBlock c absent
  blankInsn j absent := by
    rw [gains.mem_allInsns_iff, not_or] at absent
    obtain ⟨notLast, notFirst⟩ := gains.ends fun here =>
      absent.1 (Layout.mem_allInsns_iff.mpr ⟨b, here⟩)
    rw [insns_splice, if_neg absent.2, if_neg notFirst, if_neg notLast]
    exact rep.blankInsn j absent.1
  blocksRecorded c member := by
    rw [gains.blocks] at member
    exact blocks_records_splice _ _ _ _ _ (rep.blocksRecorded c member)
  insnsRecorded j member :=
    records_splice _ _ _ _ _ ((gains.mem_allInsns_iff.mp member).symm.imp_right
      (rep.insnsRecorded j))

end Splice

/-! ## The four insertions -/

theorem gains_addToBlock {f : List InsnId → List InsnId}
    {adds : ∀ insns, (f insns).Perm (i :: insns)} {front back : List InsnId}
    (listed : b ∈ l.blocks) (fresh : ¬ i ∈ l.allInsns) (here : l.insns b = front ++ back)
    (puts : f (front ++ back) = front ++ i :: back) :
    Gains l (l.addToBlock i b f adds) i b front back where
  fresh := fresh
  listed := listed
  here := here
  blocks := l.blocks_addToBlock i b f adds
  insns c := by
    rw [Layout.insns_addToBlock]
    by_cases same : c = b
    · rw [if_pos ⟨listed, fresh, same⟩, if_pos same, here, puts]
    · rw [if_neg fun h => same h.2.2, if_neg same]
  position j := by
    unfold Layout.position Layout.addToBlock
    rw [dif_pos ⟨listed, fresh⟩]
    exact IdMap.get_set _ _ _ _

theorem gains_addBeside {f : List InsnId → List InsnId}
    {keeps : ∀ insns, ¬ anchor ∈ insns → f insns = insns}
    {adds : ∀ insns, anchor ∈ insns → (f insns).Perm (i :: insns)} {front back : List InsnId}
    (fresh : ¬ i ∈ l.allInsns) (inside : anchor ∈ l.insns b) (here : l.insns b = front ++ back)
    (puts : f (front ++ back) = front ++ i :: back) :
    Gains l (l.addBeside i anchor f keeps adds) i b front back where
  fresh := fresh
  listed := Layout.mem_blocks_of_mem_insns inside
  here := here
  blocks := l.blocks_addBeside i anchor f keeps adds
  insns c := by
    rw [Layout.insns_addBeside, if_pos ⟨Layout.mem_allInsns_iff.mpr ⟨b, inside⟩, fresh⟩]
    by_cases same : c = b
    · rw [if_pos same, same, here, puts]
    · rw [if_neg same, keeps _ fun there => same (Layout.block_unique there inside)]
  position j := by
    unfold Layout.position Layout.addBeside
    rw [dif_pos ⟨Layout.mem_allInsns_iff.mpr ⟨b, inside⟩, fresh⟩]
    exact IdMap.get_set _ _ _ _

theorem Represents.appendInsn_eq_splice (rep : Represents k l) (i : InsnId) (b : BlockId) :
    k.appendInsn i b = k.splice i b (l.insns b).getLast? none :=
  congrArg (k.splice i b · none) (rep.lastInsn b)

theorem Represents.prependInsn_eq_splice (rep : Represents k l) (i : InsnId) (b : BlockId) :
    k.prependInsn i b = k.splice i b none (l.insns b).head? :=
  congrArg (k.splice i b none) (rep.firstInsn b)

theorem Represents.insertBefore_eq_splice (rep : Represents k l) {front back : List InsnId}
    (split : l.insns b = front ++ anchor :: back) (i : InsnId) :
    k.insertBefore i anchor = k.splice i b front.getLast? (some anchor) := by
  have inside : anchor ∈ l.insns b := split ▸ List.mem_append_right front List.mem_cons_self
  have owner := (rep.owner anchor).trans (Layout.blockOf?_eq_some_iff.mpr inside)
  unfold insertBefore
  rw [owner, (rep.insnLinks b front anchor back split).1]

theorem Represents.insertAfter_eq_splice (rep : Represents k l) {front back : List InsnId}
    (split : l.insns b = front ++ anchor :: back) (i : InsnId) :
    k.insertAfter i anchor = k.splice i b (some anchor) back.head? := by
  have inside : anchor ∈ l.insns b := split ▸ List.mem_append_right front List.mem_cons_self
  have owner := (rep.owner anchor).trans (Layout.blockOf?_eq_some_iff.mpr inside)
  unfold insertAfter
  rw [owner, (rep.insnLinks b front anchor back split).2]

/-! ## A new block -/

theorem blocks_appendBlock (c : BlockId) : (k.appendBlock b).blocks.get c =
    if c = b then { prev? := k.lastBlock? }
    else
      { k.blocks.get c with
        next? := if k.lastBlock? = some c then some b else (k.blocks.get c).next? } := by
  unfold appendBlock
  cases k.lastBlock? with
  | none => exact IdMap.get_set _ _ _ _
  | some last =>
      simp only [updateBlock, IdMap.get_set]
      by_cases new : c = b
      · rw [if_pos new, if_pos new]
      · rw [if_neg new, if_neg new]
        by_cases here : c = last
        · rw [if_pos here, if_pos (congrArg some here.symm), here]
        · rw [if_neg here, if_neg fun h => here (Option.some.inj h).symm]

theorem entry?_appendBlock :
    LinkedLayout.entry? (k.appendBlock b) =
      if k.lastBlock? = none then some b else k.entry? := by
  unfold appendBlock
  cases k.lastBlock? <;> rfl

theorem insns_appendBlock : (k.appendBlock b).insns = k.insns := by
  unfold appendBlock
  cases k.lastBlock? <;> rfl

theorem records_appendBlock {c : BlockId} (held : c = b ∨ k.blocks.Records c) :
    (k.appendBlock b).blocks.Records c := by
  unfold appendBlock
  cases k.lastBlock? with
  | none => exact IdMap.records_set held
  | some last =>
      exact IdMap.records_set (held.imp_right fun held => IdMap.records_set (Or.inr held))

theorem Represents.blockLinks_appendBlock (rep : Represents k l) (fresh : ¬ b ∈ l.blocks) :
    Doubly (k.appendBlock b).prevBlock? (k.appendBlock b).nextBlock? (l.blocks ++ [b]) := by
  have whole : l.blocks ++ [] = l.blocks := List.append_nil _
  have blank : k.blocks.get b = {} := rep.blankBlock b fresh
  refine Doubly.insert (whole.symm ▸ rep.blockLinks) (whole.symm ▸ fresh)
    (whole.symm ▸ l.blocks_nodup) ?_ ?_ ?_
  · unfold prevBlock? nextBlock?
    rw [blocks_appendBlock, if_pos rfl]
    exact ⟨rep.lastBlock, rfl⟩
  · intro c other
    unfold nextBlock?
    rw [blocks_appendBlock, if_neg other, rep.lastBlock]
    rfl
  · intro c other
    unfold prevBlock?
    rw [blocks_appendBlock, if_neg other]
    rfl

theorem Represents.appendBlock (rep : Represents k l) (fresh : ¬ b ∈ l.blocks) :
    Represents (k.appendBlock b) (l.appendBlock b) := by
  have blocks : (l.appendBlock b).blocks = l.blocks ++ [b] := by
    rw [Layout.blocks_appendBlock, if_neg fresh]
  have insns : ∀ c, (l.appendBlock b).insns c = l.insns c := l.insns_appendBlock b
  have member : ∀ i, i ∈ (l.appendBlock b).allInsns ↔ i ∈ l.allInsns := fun i => by
    rw [Layout.mem_allInsns_iff, Layout.mem_allInsns_iff]
    exact exists_congr fun c => by rw [insns c]
  -- the new block has no instructions, and its node was blank
  have rows : ∀ c, (k.appendBlock b).firstInsn? c = k.firstInsn? c ∧
      (k.appendBlock b).lastInsn? c = k.lastInsn? c := by
    intro c
    unfold firstInsn? lastInsn?
    rw [blocks_appendBlock]
    by_cases new : c = b
    · rw [if_pos new, new, rep.blankBlock b fresh]
      exact ⟨rfl, rfl⟩
    · rw [if_neg new]
      exact ⟨rfl, rfl⟩
  have nodes : (k.appendBlock b).insns = k.insns := insns_appendBlock
  exact
    { entry := by
        rw [entry?_appendBlock, rep.lastBlock, rep.entry]
        unfold Layout.entry? Layout.lastBlock?
        rw [blocks]
        cases l.blocks <;> simp
      lastBlock := by
        unfold Layout.lastBlock?
        rw [blocks, List.getLast?_concat]
        unfold LinkedLayout.appendBlock
        cases k.lastBlock? <;> rfl
      firstInsn := fun c => by
        unfold Layout.firstInsn?
        rw [(rows c).1, insns c]
        exact rep.firstInsn c
      lastInsn := fun c => by
        unfold Layout.lastInsn?
        rw [(rows c).2, insns c]
        exact rep.lastInsn c
      blockLinks := by
        rw [blocks]
        exact rep.blockLinks_appendBlock fresh
      insnLinks := fun c => by
        unfold prevInsn? nextInsn?
        rw [insns c, nodes]
        exact rep.insnLinks c
      owner := fun i => by
        unfold blockOf?
        rw [nodes]
        refine (rep.owner i).trans (Option.ext fun c => ?_)
        rw [Layout.blockOf?_eq_some_iff, Layout.blockOf?_eq_some_iff, insns c]
      position := fun i => by
        unfold LinkedLayout.position Layout.position Layout.appendBlock
        rw [nodes, dif_neg fresh]
        exact rep.position i
      blankBlock := fun c absent => by
        rw [blocks, List.mem_append, List.mem_singleton, not_or] at absent
        have notLast : ¬ k.lastBlock? = some c := fun last =>
          absent.1 (List.mem_of_getLast? (rep.lastBlock.symm.trans last))
        rw [blocks_appendBlock, if_neg absent.2, if_neg notLast]
        exact rep.blankBlock c absent.1
      blankInsn := fun i absent => by
        rw [nodes]
        exact rep.blankInsn i fun old => absent ((member i).mpr old)
      blocksRecorded := fun c listed => by
        rw [blocks, List.mem_append, List.mem_singleton] at listed
        exact records_appendBlock (listed.symm.imp_right (rep.blocksRecorded c))
      insnsRecorded := fun i listed => by
        rw [nodes]
        exact rep.insnsRecorded i ((member i).mp listed) }

end LinkedLayout

end FramePlacement
