import FramePlacement.Insn
/-!
# Rows of a layout

A row is a block with its instructions in order.  This module puts one more instruction beside an
anchor or into the row of a block, and shows that each insertion adds exactly that instruction to
the layout order (`allInsns_update_perm`, `allInsns_updateAll_perm`).
-/

set_option autoImplicit false

namespace FramePlacement

structure Row where
  block : BlockId
  insns : List InsnId
deriving DecidableEq

namespace Row

def allInsns (rows : List Row) : List InsnId := rows.flatMap Row.insns

/-! ## Insertion into a list and into rows -/

/-- `x` right before the first `anchor`. -/
def insertBefore (x anchor : Nat) : List Nat → List Nat
  | [] => []
  | y :: rest => if y = anchor then x :: y :: rest else y :: insertBefore x anchor rest

def insertAfter (x anchor : Nat) : List Nat → List Nat
  | [] => []
  | y :: rest => if y = anchor then y :: x :: rest else y :: insertAfter x anchor rest

/-- The element right before the first `x`. -/
def predecessor? (x : Nat) : List Nat → Option Nat
  | [] => none
  | [_] => none
  | y :: z :: rest => if z = x then some y else predecessor? x (z :: rest)

def successor? (x : Nat) : List Nat → Option Nat
  | [] => none
  | y :: rest => if y = x then rest.head? else successor? x rest

theorem insertBefore_of_not_mem {x anchor : Nat} : ∀ {l : List Nat}, ¬ anchor ∈ l →
    insertBefore x anchor l = l
  | [], _ => rfl
  | y :: rest, absent => by
      rw [List.mem_cons, not_or] at absent
      rw [insertBefore, if_neg (Ne.symm absent.1), insertBefore_of_not_mem absent.2]

theorem insertAfter_of_not_mem {x anchor : Nat} : ∀ {l : List Nat}, ¬ anchor ∈ l →
    insertAfter x anchor l = l
  | [], _ => rfl
  | y :: rest, absent => by
      rw [List.mem_cons, not_or] at absent
      rw [insertAfter, if_neg (Ne.symm absent.1), insertAfter_of_not_mem absent.2]

theorem insertBefore_perm {x anchor : Nat} : ∀ {l : List Nat}, anchor ∈ l →
    (insertBefore x anchor l).Perm (x :: l)
  | y :: rest, present => by
      rw [insertBefore]
      split
      · exact List.Perm.refl _
      · next other =>
          have later : anchor ∈ rest := (List.mem_cons.mp present).resolve_left (Ne.symm other)
          exact ((insertBefore_perm later).cons y).trans (List.Perm.swap x y rest)

theorem insertAfter_perm {x anchor : Nat} : ∀ {l : List Nat}, anchor ∈ l →
    (insertAfter x anchor l).Perm (x :: l)
  | y :: rest, present => by
      rw [insertAfter]
      split
      · exact List.Perm.swap x y rest
      · next other =>
          have later : anchor ∈ rest := (List.mem_cons.mp present).resolve_left (Ne.symm other)
          exact ((insertAfter_perm later).cons y).trans (List.Perm.swap x y rest)

def update (block : BlockId) (f : List InsnId → List InsnId) (rows : List Row) : List Row :=
  rows.map fun row => if row.block = block then { row with insns := f row.insns } else row

def updateAll (f : List InsnId → List InsnId) (rows : List Row) : List Row :=
  rows.map fun row => { row with insns := f row.insns }

theorem blocks_update (block : BlockId) (f : List InsnId → List InsnId) (rows : List Row) :
    (update block f rows).map Row.block = rows.map Row.block := by
  rw [update, List.map_map]
  refine List.map_congr_left fun row _ => ?_
  change (if row.block = block then { row with insns := f row.insns } else row).block = row.block
  split <;> rfl

theorem blocks_updateAll (f : List InsnId → List InsnId) (rows : List Row) :
    (updateAll f rows).map Row.block = rows.map Row.block := by
  rw [updateAll, List.map_map]
  rfl

theorem update_of_not_mem {block : BlockId} {f : List InsnId → List InsnId} {rows : List Row}
    (absent : ¬ block ∈ rows.map Row.block) : update block f rows = rows := by
  rw [update]
  refine (List.map_congr_left fun row member => ?_).trans (List.map_id rows)
  have other : row.block ≠ block := fun same => absent (List.mem_map.mpr ⟨row, member, same⟩)
  rw [if_neg other]
  rfl

/-- Adding one instruction to the row of a block adds it to the layout order. -/
theorem allInsns_update_perm {x : InsnId} {block : BlockId} {f : List InsnId → List InsnId}
    (adds : ∀ l, (f l).Perm (x :: l)) : ∀ {rows : List Row}, (rows.map Row.block).Nodup →
    block ∈ rows.map Row.block → (allInsns (update block f rows)).Perm (x :: allInsns rows)
  | row :: rest, distinct, present => by
      rw [List.map_cons, List.nodup_cons] at distinct
      by_cases same : row.block = block
      · have absent : ¬ block ∈ rest.map Row.block := same ▸ distinct.1
        have step : update block f (row :: rest) = { row with insns := f row.insns } :: rest := by
          have tail := update_of_not_mem (f := f) absent
          unfold update at tail ⊢
          rw [List.map_cons, tail, if_pos same]
        rw [step]
        exact (adds row.insns).append_right (allInsns rest)
      · have later : block ∈ rest.map Row.block :=
          (List.mem_cons.mp present).resolve_left (Ne.symm same)
        have step : update block f (row :: rest) = row :: update block f rest := by
          unfold update
          rw [List.map_cons, if_neg same]
        rw [step]
        exact ((allInsns_update_perm adds distinct.2 later).append_left row.insns).trans
          List.perm_middle

theorem allInsns_updateAll_perm {x anchor : InsnId} {f : List InsnId → List InsnId}
    (keeps : ∀ l, ¬ anchor ∈ l → f l = l) (adds : ∀ l, anchor ∈ l → (f l).Perm (x :: l)) :
    ∀ {rows : List Row}, (allInsns rows).Nodup → anchor ∈ allInsns rows →
    (allInsns (updateAll f rows)).Perm (x :: allInsns rows)
  | row :: rest, distinct, present => by
      have parts : (row.insns ++ allInsns rest).Nodup := distinct
      rw [List.nodup_append] at parts
      by_cases here : anchor ∈ row.insns
      · have absent : ¬ anchor ∈ allInsns rest :=
          fun later => parts.2.2 anchor here anchor later rfl
        have tail : updateAll f rest = rest := by
          refine (List.map_congr_left fun other member => ?_).trans (List.map_id rest)
          change ({ other with insns := f other.insns } : Row) = other
          rw [keeps other.insns fun inside => absent (List.mem_flatMap.mpr ⟨other, member, inside⟩)]
        change (f row.insns ++ allInsns (updateAll f rest)).Perm _
        rw [tail]
        exact (adds row.insns here).append_right (allInsns rest)
      · have later : anchor ∈ allInsns rest :=
          (List.mem_append.mp
            (show anchor ∈ row.insns ++ allInsns rest from present)).resolve_left here
        change (f row.insns ++ allInsns (updateAll f rest)).Perm _
        rw [keeps row.insns here]
        exact ((allInsns_updateAll_perm keeps adds parts.2.1 later).append_left row.insns).trans
          List.perm_middle

end Row

end FramePlacement
