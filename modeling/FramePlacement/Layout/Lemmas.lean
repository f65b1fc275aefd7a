import FramePlacement.Layout
/-!
# What the layout operations do to the lists

A layout is seen through `blocks` and `insns`.  Each insertion changes exactly one of these lists,
and only when its anchor is there and its element is new.  An instruction stands in the one block
whose list holds it (`blockOf?_eq_some_iff`), and after `renumber` the position of an instruction is
its index in layout order (`position_renumber`).
-/

set_option autoImplicit false

namespace FramePlacement

/-- In rows of distinct blocks, the row found for a block is any row of that block. -/
theorem Row.find?_block_eq_some {rows : List Row} (distinct : (rows.map Row.block).Nodup)
    {row : Row} (member : row ∈ rows) :
    (rows.find? fun other => other.block == row.block) = some row := by
  induction rows with
  | nil => cases member
  | cons first rest ih =>
      rw [List.map_cons, List.nodup_cons] at distinct
      by_cases same : first.block = row.block
      · have here : first = row := by
          apply Classical.byContradiction
          intro other
          have later : row ∈ rest := (List.mem_cons.mp member).resolve_left (Ne.symm other)
          exact distinct.1 (same ▸ List.mem_map_of_mem later)
        subst here
        simp
      · have miss : (first.block == row.block) = false := by simpa using same
        have later : row ∈ rest :=
          (List.mem_cons.mp member).resolve_left fun here => same (here ▸ rfl)
        rw [List.find?_cons, miss]
        exact ih distinct.2 later

namespace Layout

theorem insns_of_mem_rows {l : Layout} {row : Row} (member : row ∈ l.rows) :
    l.insns row.block = row.insns := by
  unfold insns
  rw [Row.find?_block_eq_some l.blocks_distinct member]

theorem insns_of_not_mem {l : Layout} {b : BlockId} (absent : ¬ b ∈ l.blocks) :
    l.insns b = [] := by
  have none_found : (l.rows.find? fun row => row.block == b) = none := by
    rw [List.find?_eq_none]
    intro row member same
    exact absent (beq_iff_eq.mp same ▸ List.mem_map_of_mem member)
  unfold insns
  rw [none_found]

theorem rows_eq (l : Layout) :
    l.rows = l.blocks.map fun b => { block := b, insns := l.insns b } := by
  unfold blocks
  rw [List.map_map]
  refine (List.map_id l.rows).symm.trans (List.map_congr_left fun row member => ?_)
  change row = { block := row.block, insns := l.insns row.block }
  rw [insns_of_mem_rows member]

theorem allInsns_eq (l : Layout) : l.allInsns = l.blocks.flatMap l.insns := by
  unfold allInsns Row.allInsns
  conv => lhs; rw [rows_eq l]
  rw [List.flatMap_map]

theorem blocks_nodup (l : Layout) : l.blocks.Nodup := l.blocks_distinct

theorem allInsns_nodup (l : Layout) : l.allInsns.Nodup := l.insns_distinct

theorem mem_blocks_of_mem_insns {l : Layout} {b : BlockId} {i : InsnId} (member : i ∈ l.insns b) :
    b ∈ l.blocks := by
  apply Classical.byContradiction
  intro absent
  rw [insns_of_not_mem absent] at member
  cases member

theorem mem_allInsns_iff {l : Layout} {i : InsnId} : i ∈ l.allInsns ↔ ∃ b, i ∈ l.insns b := by
  rw [allInsns_eq, List.mem_flatMap]
  exact ⟨fun ⟨b, _, inside⟩ => ⟨b, inside⟩,
    fun ⟨b, inside⟩ => ⟨b, mem_blocks_of_mem_insns inside, inside⟩⟩

/-- Lists that join without a repeat share no element. -/
theorem eq_of_mem_of_nodup_flatMap {f : BlockId → List InsnId} {i : InsnId} {b c : BlockId} :
    ∀ {blocks : List BlockId}, (blocks.flatMap f).Nodup → b ∈ blocks → c ∈ blocks → i ∈ f b →
    i ∈ f c → b = c
  | first :: rest, distinct, inLeft, inRight, left, right => by
      rw [List.flatMap_cons, List.nodup_append] at distinct
      rcases List.mem_cons.mp inLeft with hereLeft | laterLeft
      · rcases List.mem_cons.mp inRight with hereRight | laterRight
        · exact hereLeft.trans hereRight.symm
        · exact absurd rfl (distinct.2.2 i (hereLeft ▸ left) i
            (List.mem_flatMap.mpr ⟨c, laterRight, right⟩))
      · rcases List.mem_cons.mp inRight with hereRight | laterRight
        · exact absurd rfl (distinct.2.2 i (hereRight ▸ right) i
            (List.mem_flatMap.mpr ⟨b, laterLeft, left⟩))
        · exact eq_of_mem_of_nodup_flatMap distinct.2.1 laterLeft laterRight left right

theorem block_unique {l : Layout} {i : InsnId} {b c : BlockId} (left : i ∈ l.insns b)
    (right : i ∈ l.insns c) : b = c :=
  eq_of_mem_of_nodup_flatMap (l.allInsns_eq ▸ l.allInsns_nodup) (mem_blocks_of_mem_insns left)
    (mem_blocks_of_mem_insns right) left right

theorem blockOf?_eq_some_iff {l : Layout} {i : InsnId} {b : BlockId} :
    l.blockOf? i = some b ↔ i ∈ l.insns b := by
  have found : ∀ {c : BlockId}, l.blockOf? i = some c → i ∈ l.insns c := by
    intro c read
    unfold blockOf? at read
    obtain ⟨row, first, rfl⟩ := Option.map_eq_some_iff.mp read
    rw [insns_of_mem_rows (List.mem_of_find?_eq_some first)]
    simpa using List.find?_some first
  constructor
  · exact found
  · intro member
    cases read : l.blockOf? i with
    | some c => rw [block_unique member (found read)]
    | none =>
        unfold blockOf? at read
        rw [Option.map_eq_none_iff, List.find?_eq_none] at read
        obtain ⟨row, inRows, rfl⟩ := List.mem_map.mp (mem_blocks_of_mem_insns member)
        rw [insns_of_mem_rows inRows] at member
        exact absurd member (by simpa using read row inRows)

/-! ## Insertions -/

@[simp] theorem blocks_appendBlock (l : Layout) (b : BlockId) :
    (l.appendBlock b).blocks = if b ∈ l.blocks then l.blocks else l.blocks ++ [b] := by
  unfold appendBlock
  split
  · rfl
  · simp [blocks]

@[simp] theorem insns_appendBlock (l : Layout) (b c : BlockId) :
    (l.appendBlock b).insns c = l.insns c := by
  unfold appendBlock
  split
  · rfl
  · simp only [insns, List.find?_append]
    cases found : l.rows.find? fun row => row.block == c with
    | some row => rfl
    | none =>
        by_cases same : b = c
        · simp [same]
        · simp [same]

theorem find?_update (rows : List Row) (b c : BlockId) (f : List InsnId → List InsnId) :
    ((Row.update b f rows).find? fun row => row.block == c) =
      (rows.find? fun row => row.block == c).map fun row =>
        if row.block = b then { row with insns := f row.insns } else row := by
  unfold Row.update
  rw [List.find?_map]
  congr 1
  refine congrArg (fun p => List.find? p rows) (funext fun row => ?_)
  change ((if row.block = b then { row with insns := f row.insns } else row).block == c) = _
  split <;> rfl

theorem find?_updateAll (rows : List Row) (b : BlockId) (f : List InsnId → List InsnId) :
    (Row.updateAll f rows).find? (fun row => row.block == b) =
      (rows.find? fun row => row.block == b).map fun row => { row with insns := f row.insns } := by
  rw [Row.updateAll, List.find?_map]
  rfl

theorem blocks_addToBlock (l : Layout) (i : InsnId) (b : BlockId) (f : List InsnId → List InsnId)
    (adds : ∀ insns, (f insns).Perm (i :: insns)) :
    (l.addToBlock i b f adds).blocks = l.blocks := by
  unfold addToBlock
  split
  · exact Row.blocks_update b f l.rows
  · rfl

theorem insns_addToBlock (l : Layout) (i : InsnId) (b c : BlockId)
    (f : List InsnId → List InsnId) (adds : ∀ insns, (f insns).Perm (i :: insns)) :
    (l.addToBlock i b f adds).insns c =
      if b ∈ l.blocks ∧ ¬ i ∈ l.allInsns ∧ c = b then f (l.insns b) else l.insns c := by
  unfold addToBlock
  by_cases allowed : b ∈ l.blocks ∧ ¬ i ∈ l.allInsns
  · rw [dif_pos allowed]
    simp only [insns, find?_update]
    by_cases same : c = b
    · subst same
      obtain ⟨row, member, block⟩ := List.mem_map.mp allowed.1
      have found := Row.find?_block_eq_some l.blocks_distinct member
      rw [block] at found
      simp [allowed, found, block]
    · have elsewhere : ¬ (b ∈ l.blocks ∧ ¬ i ∈ l.allInsns ∧ c = b) := fun h => same h.2.2
      rw [if_neg elsewhere]
      cases found : l.rows.find? fun row => row.block == c with
      | none => rfl
      | some row =>
          have block : row.block = c := by simpa using List.find?_some found
          have other : ¬ row.block = b := fun h => same (block.symm.trans h)
          simp [other]
  · rw [dif_neg allowed, if_neg fun h => allowed ⟨h.1, h.2.1⟩]

@[simp] theorem blocks_appendInsn (l : Layout) (i : InsnId) (b : BlockId) :
    (l.appendInsn i b).blocks = l.blocks := l.blocks_addToBlock i b _ _

@[simp] theorem blocks_prependInsn (l : Layout) (i : InsnId) (b : BlockId) :
    (l.prependInsn i b).blocks = l.blocks := l.blocks_addToBlock i b _ _

theorem insns_appendInsn (l : Layout) (i : InsnId) (b c : BlockId) :
    (l.appendInsn i b).insns c =
      if b ∈ l.blocks ∧ ¬ i ∈ l.allInsns ∧ c = b then l.insns b ++ [i] else l.insns c :=
  l.insns_addToBlock i b c _ _

theorem insns_prependInsn (l : Layout) (i : InsnId) (b c : BlockId) :
    (l.prependInsn i b).insns c =
      if b ∈ l.blocks ∧ ¬ i ∈ l.allInsns ∧ c = b then i :: l.insns b else l.insns c :=
  l.insns_addToBlock i b c _ _

theorem blocks_addBeside (l : Layout) (i anchor : InsnId) (f : List InsnId → List InsnId)
    (keeps : ∀ insns, ¬ anchor ∈ insns → f insns = insns)
    (adds : ∀ insns, anchor ∈ insns → (f insns).Perm (i :: insns)) :
    (l.addBeside i anchor f keeps adds).blocks = l.blocks := by
  unfold addBeside
  split
  · exact Row.blocks_updateAll f l.rows
  · rfl

theorem insns_addBeside (l : Layout) (i anchor : InsnId) (c : BlockId)
    (f : List InsnId → List InsnId) (keeps : ∀ insns, ¬ anchor ∈ insns → f insns = insns)
    (adds : ∀ insns, anchor ∈ insns → (f insns).Perm (i :: insns)) :
    (l.addBeside i anchor f keeps adds).insns c =
      if anchor ∈ l.allInsns ∧ ¬ i ∈ l.allInsns then f (l.insns c) else l.insns c := by
  unfold addBeside
  by_cases allowed : anchor ∈ l.allInsns ∧ ¬ i ∈ l.allInsns
  · rw [dif_pos allowed, if_pos allowed]
    simp only [insns, find?_updateAll]
    cases l.rows.find? fun row => row.block == c with
    | none => exact (keeps [] (by simp)).symm
    | some row => rfl
  · rw [dif_neg allowed, if_neg allowed]

/-- An allowed insertion into a block adds its instruction and no other. -/
theorem allInsns_addToBlock_perm {l : Layout} {i : InsnId} {b : BlockId}
    {f : List InsnId → List InsnId} {adds : ∀ insns, (f insns).Perm (i :: insns)}
    (listed : b ∈ l.blocks) (fresh : ¬ i ∈ l.allInsns) :
    (l.addToBlock i b f adds).allInsns.Perm (i :: l.allInsns) := by
  unfold addToBlock
  rw [dif_pos ⟨listed, fresh⟩]
  exact Row.allInsns_update_perm adds l.blocks_distinct listed

theorem allInsns_addBeside_perm {l : Layout} {i anchor : InsnId} {f : List InsnId → List InsnId}
    {keeps : ∀ insns, ¬ anchor ∈ insns → f insns = insns}
    {adds : ∀ insns, anchor ∈ insns → (f insns).Perm (i :: insns)}
    (listed : anchor ∈ l.allInsns) (fresh : ¬ i ∈ l.allInsns) :
    (l.addBeside i anchor f keeps adds).allInsns.Perm (i :: l.allInsns) := by
  unfold addBeside
  rw [dif_pos ⟨listed, fresh⟩]
  exact Row.allInsns_updateAll_perm keeps adds l.insns_distinct listed

theorem mem_allInsns_addToBlock {l : Layout} {i x : InsnId} {b : BlockId}
    {f : List InsnId → List InsnId} {adds : ∀ insns, (f insns).Perm (i :: insns)}
    (member : x ∈ (l.addToBlock i b f adds).allInsns) : x ∈ l.allInsns ∨ x = i := by
  by_cases allowed : b ∈ l.blocks ∧ ¬ i ∈ l.allInsns
  · have perm := @allInsns_addToBlock_perm l i b f adds allowed.1 allowed.2
    exact (List.mem_cons.mp (perm.subset member)).symm
  · unfold addToBlock at member
    rw [dif_neg allowed] at member
    exact Or.inl member

theorem mem_allInsns_addBeside {l : Layout} {i anchor x : InsnId} {f : List InsnId → List InsnId}
    {keeps : ∀ insns, ¬ anchor ∈ insns → f insns = insns}
    {adds : ∀ insns, anchor ∈ insns → (f insns).Perm (i :: insns)}
    (member : x ∈ (l.addBeside i anchor f keeps adds).allInsns) : x ∈ l.allInsns ∨ x = i := by
  by_cases allowed : anchor ∈ l.allInsns ∧ ¬ i ∈ l.allInsns
  · have perm := @allInsns_addBeside_perm l i anchor f keeps adds allowed.1 allowed.2
    exact (List.mem_cons.mp (perm.subset member)).symm
  · unfold addBeside at member
    rw [dif_neg allowed] at member
    exact Or.inl member

@[simp] theorem blocks_insertBefore (l : Layout) (i anchor : InsnId) :
    (l.insertBefore i anchor).blocks = l.blocks := l.blocks_addBeside i anchor _ _ _

@[simp] theorem blocks_insertAfter (l : Layout) (i anchor : InsnId) :
    (l.insertAfter i anchor).blocks = l.blocks := l.blocks_addBeside i anchor _ _ _

theorem mem_allInsns_prependInsn {l : Layout} {i x : InsnId} {b : BlockId}
    (member : x ∈ (l.prependInsn i b).allInsns) : x ∈ l.allInsns ∨ x = i :=
  mem_allInsns_addToBlock member

theorem mem_allInsns_insertBefore {l : Layout} {i anchor x : InsnId}
    (member : x ∈ (l.insertBefore i anchor).allInsns) : x ∈ l.allInsns ∨ x = i :=
  mem_allInsns_addBeside member

theorem mem_allInsns_insertAfter {l : Layout} {i anchor x : InsnId}
    (member : x ∈ (l.insertAfter i anchor).allInsns) : x ∈ l.allInsns ∨ x = i :=
  mem_allInsns_addBeside member

theorem allInsns_prependInsn_perm {l : Layout} {i : InsnId} {b : BlockId} (listed : b ∈ l.blocks)
    (fresh : ¬ i ∈ l.allInsns) : (l.prependInsn i b).allInsns.Perm (i :: l.allInsns) :=
  allInsns_addToBlock_perm listed fresh

theorem allInsns_insertBefore_perm {l : Layout} {i anchor : InsnId} (listed : anchor ∈ l.allInsns)
    (fresh : ¬ i ∈ l.allInsns) : (l.insertBefore i anchor).allInsns.Perm (i :: l.allInsns) :=
  allInsns_addBeside_perm listed fresh

theorem allInsns_insertAfter_perm {l : Layout} {i anchor : InsnId} (listed : anchor ∈ l.allInsns)
    (fresh : ¬ i ∈ l.allInsns) : (l.insertAfter i anchor).allInsns.Perm (i :: l.allInsns) :=
  allInsns_addBeside_perm listed fresh

theorem insns_insertBefore (l : Layout) (i anchor : InsnId) (c : BlockId) :
    (l.insertBefore i anchor).insns c =
      if anchor ∈ l.allInsns ∧ ¬ i ∈ l.allInsns then Row.insertBefore i anchor (l.insns c)
      else l.insns c :=
  l.insns_addBeside i anchor c _ _ _

theorem insns_insertAfter (l : Layout) (i anchor : InsnId) (c : BlockId) :
    (l.insertAfter i anchor).insns c =
      if anchor ∈ l.allInsns ∧ ¬ i ∈ l.allInsns then Row.insertAfter i anchor (l.insns c)
      else l.insns c :=
  l.insns_addBeside i anchor c _ _ _

/-! ## Renumbering -/

@[simp] theorem blocks_renumber (l : Layout) : l.renumber.blocks = l.blocks := rfl

@[simp] theorem insns_renumber (l : Layout) (b : BlockId) : l.renumber.insns b = l.insns b := rfl

theorem lookup_zipIdx {l : List Nat} (distinct : l.Nodup) {k start i : Nat}
    (read : l[k]? = some i) :
    (l.zipIdx start).lookup i = some (start + k) := by
  induction l generalizing k start with
  | nil => cases read
  | cons first rest ih =>
      rw [List.nodup_cons] at distinct
      cases k with
      | zero =>
          rw [List.getElem?_cons_zero, Option.some.injEq] at read
          subst read
          simp
      | succ k =>
          rw [List.getElem?_cons_succ] at read
          have other : i ≠ first := fun same => distinct.1 (same ▸ List.mem_of_getElem? read)
          have miss : (i == first) = false := by simpa using other
          rw [List.zipIdx_cons, List.lookup_cons, miss]
          simp only
          rw [ih distinct.2 read]
          congr 1
          omega

/-- Positions count the instructions in layout order from zero. -/
theorem position_renumber {l : Layout} {k : Nat} {i : InsnId} (read : l.allInsns[k]? = some i) :
    l.renumber.position i = k := by
  unfold position renumber IdMap.get IdMap.ofPairs
  rw [lookup_zipIdx l.allInsns_nodup read]
  simp

theorem renumber_ascending (l : Layout) :
    l.allInsns.Pairwise fun i j => l.renumber.position i < l.renumber.position j := by
  refine List.pairwise_iff_getElem.mpr fun k m inside also less => ?_
  rw [position_renumber (List.getElem?_eq_getElem inside),
    position_renumber (List.getElem?_eq_getElem also)]
  exact less

theorem insns_sublist_allInsns (l : Layout) (b : BlockId) : (l.insns b).Sublist l.allInsns := by
  by_cases listed : b ∈ l.blocks
  · obtain ⟨before, after, split⟩ := List.append_of_mem listed
    rw [allInsns_eq, split, List.flatMap_append, List.flatMap_cons]
    exact (List.sublist_append_left _ _).trans (List.sublist_append_right _ _)
  · rw [insns_of_not_mem listed]
    exact List.nil_sublist _

theorem renumber_renumber (l : Layout) : l.renumber.renumber = l.renumber := rfl

end Layout

end FramePlacement
