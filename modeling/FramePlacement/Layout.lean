import FramePlacement.IdMap
import FramePlacement.Layout.Row
/-!
# Layout of a scope

A layout orders the blocks of a scope and the instructions of each block.  Blocks and instructions
are named by identifiers from arenas of their own, so inserting one never renames another.  A block
stands in at most one row and an instruction in at most one place; both are part of the type, and an
insertion whose anchor is missing or whose element already stands somewhere leaves the layout alone.

The `rows` are the whole content besides the position counters, which only `renumber` sets.
-/

set_option autoImplicit false

namespace FramePlacement

structure Layout where
  rows : List Row := []
  /-- Counters set by `renumber`; an instruction inserted since then has position zero. -/
  positions : IdMap Nat := IdMap.const 0
  blocks_distinct : (rows.map Row.block).Nodup := by exact List.nodup_nil
  insns_distinct : (Row.allInsns rows).Nodup := by exact List.nodup_nil
deriving DecidableEq

namespace Layout

instance : Inhabited Layout := ⟨{}⟩

def blocks (l : Layout) : List BlockId := l.rows.map Row.block

def allInsns (l : Layout) : List InsnId := Row.allInsns l.rows

/-- The instructions of a block in order; none for a block outside the layout. -/
def insns (l : Layout) (b : BlockId) : List InsnId :=
  match l.rows.find? fun row => row.block == b with
  | some row => row.insns
  | none => []

def hasBlock (l : Layout) (b : BlockId) : Bool := l.blocks.contains b

def hasInsn (l : Layout) (i : InsnId) : Bool := l.allInsns.contains i

def entry? (l : Layout) : Option BlockId := l.blocks.head?

def lastBlock? (l : Layout) : Option BlockId := l.blocks.getLast?

/-- The block control falls into from the end of `b`. -/
def nextBlock? (l : Layout) (b : BlockId) : Option BlockId := Row.successor? b l.blocks

def firstInsn? (l : Layout) (b : BlockId) : Option InsnId := (l.insns b).head?

def lastInsn? (l : Layout) (b : BlockId) : Option InsnId := (l.insns b).getLast?

def blockOf? (l : Layout) (i : InsnId) : Option BlockId :=
  (l.rows.find? fun row => row.insns.contains i).map Row.block

def prevInsn? (l : Layout) (i : InsnId) : Option InsnId :=
  (l.blockOf? i).bind fun b => Row.predecessor? i (l.insns b)

def nextInsn? (l : Layout) (i : InsnId) : Option InsnId :=
  (l.blockOf? i).bind fun b => Row.successor? i (l.insns b)

def position (l : Layout) (i : InsnId) : Nat := l.positions.get i

def renumber (l : Layout) : Layout :=
  { l with positions := IdMap.ofPairs 0 l.allInsns.zipIdx }

theorem nodup_of_perm {x : InsnId} {old new : List InsnId} (distinct : old.Nodup)
    (fresh : ¬ x ∈ old) (perm : new.Perm (x :: old)) : new.Nodup :=
  perm.nodup_iff.mpr (List.nodup_cons.mpr ⟨fresh, distinct⟩)

def appendBlock (l : Layout) (b : BlockId) : Layout :=
  if fresh : b ∈ l.blocks then l
  else
    { rows := l.rows ++ [{ block := b, insns := [] }]
      positions := l.positions
      blocks_distinct := by
        rw [List.map_append, List.map_singleton]
        exact ((List.perm_append_singleton b _).nodup_iff).mpr
          (List.nodup_cons.mpr ⟨fresh, l.blocks_distinct⟩)
      insns_distinct := by
        have same : Row.allInsns (l.rows ++ [{ block := b, insns := [] }]) =
            Row.allInsns l.rows := by
          simp [Row.allInsns]
        rw [same]
        exact l.insns_distinct }

/-- The layout with one more instruction in the row of `b`, put there by `f`. -/
def addToBlock (l : Layout) (i : InsnId) (b : BlockId) (f : List InsnId → List InsnId)
    (adds : ∀ insns, (f insns).Perm (i :: insns)) : Layout :=
  if allowed : b ∈ l.blocks ∧ ¬ i ∈ l.allInsns then
    { rows := Row.update b f l.rows
      positions := l.positions.set i 0
      blocks_distinct := by
        rw [Row.blocks_update]
        exact l.blocks_distinct
      insns_distinct := nodup_of_perm l.insns_distinct allowed.2
        (Row.allInsns_update_perm adds l.blocks_distinct allowed.1) }
  else l

def appendInsn (l : Layout) (i : InsnId) (b : BlockId) : Layout :=
  l.addToBlock i b (· ++ [i]) fun insns => List.perm_append_singleton i insns

def prependInsn (l : Layout) (i : InsnId) (b : BlockId) : Layout :=
  l.addToBlock i b (i :: ·) fun _ => List.Perm.refl _

/-- The layout with one more instruction beside an anchor, put there by `f`. -/
def addBeside (l : Layout) (i anchor : InsnId) (f : List InsnId → List InsnId)
    (keeps : ∀ insns, ¬ anchor ∈ insns → f insns = insns)
    (adds : ∀ insns, anchor ∈ insns → (f insns).Perm (i :: insns)) : Layout :=
  if allowed : anchor ∈ l.allInsns ∧ ¬ i ∈ l.allInsns then
    { rows := Row.updateAll f l.rows
      positions := l.positions.set i 0
      blocks_distinct := by
        rw [Row.blocks_updateAll]
        exact l.blocks_distinct
      insns_distinct := nodup_of_perm l.insns_distinct allowed.2
        (Row.allInsns_updateAll_perm keeps adds l.insns_distinct allowed.1) }
  else l

def insertBefore (l : Layout) (i anchor : InsnId) : Layout :=
  l.addBeside i anchor (Row.insertBefore i anchor)
    (fun _ => Row.insertBefore_of_not_mem) (fun _ => Row.insertBefore_perm)

def insertAfter (l : Layout) (i anchor : InsnId) : Layout :=
  l.addBeside i anchor (Row.insertAfter i anchor)
    (fun _ => Row.insertAfter_of_not_mem) (fun _ => Row.insertAfter_perm)

end Layout

end FramePlacement
