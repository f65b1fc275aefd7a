import FramePlacement.Layout
/-!
# Linked layouts

A layout is kept in two tables, one node for each block and one for each instruction, with the first
and the last block beside them.  The blocks form one doubly linked list, and the instructions of a
block another one, so an insertion only changes the nodes next to it.  A node that was never touched
is the empty one, and that is all that tells an inserted block or instruction from others.
-/

set_option autoImplicit false

namespace FramePlacement

structure BlockNode where
  prev? : Option BlockId := none
  next? : Option BlockId := none
  first? : Option InsnId := none
  last? : Option InsnId := none
deriving DecidableEq

structure InsnNode where
  block? : Option BlockId := none
  prev? : Option InsnId := none
  next? : Option InsnId := none
  position : UInt32 := 0
deriving DecidableEq

/-- The nodes of all blocks and instructions, and the ends of the list of blocks. -/
structure LinkedLayout where
  blocks : IdMap BlockNode := IdMap.const {}
  insns : IdMap InsnNode := IdMap.const {}
  entry? : Option BlockId := none
  lastBlock? : Option BlockId := none
deriving DecidableEq

/-- The elements that the links lead to from some start, at most `limit` of them. -/
def chain (next : Nat → Option Nat) : Nat → Option Nat → List Nat
  | 0, _ => []
  | _ + 1, none => []
  | limit + 1, some i => i :: chain next limit (next i)

namespace LinkedLayout

instance : Inhabited LinkedLayout := ⟨{}⟩

/-! ## Reading -/

def nextBlock? (k : LinkedLayout) (b : BlockId) : Option BlockId := (k.blocks.get b).next?

/-- The first block has an empty node as long as it is alone and has no instructions. -/
def hasBlock (k : LinkedLayout) (b : BlockId) : Bool :=
  k.entry? == some b || k.blocks.get b != {}

def firstInsn? (k : LinkedLayout) (b : BlockId) : Option InsnId := (k.blocks.get b).first?

def lastInsn? (k : LinkedLayout) (b : BlockId) : Option InsnId := (k.blocks.get b).last?

def prevInsn? (k : LinkedLayout) (i : InsnId) : Option InsnId := (k.insns.get i).prev?

def nextInsn? (k : LinkedLayout) (i : InsnId) : Option InsnId := (k.insns.get i).next?

def blockOf? (k : LinkedLayout) (i : InsnId) : Option BlockId := (k.insns.get i).block?

def hasInsn (k : LinkedLayout) (i : InsnId) : Bool := (k.blockOf? i).isSome

def position (k : LinkedLayout) (i : InsnId) : UInt32 := (k.insns.get i).position

/-- The blocks in order.  A list without circles has at most one element for each node. -/
def iterBlocks (k : LinkedLayout) : List BlockId := chain k.nextBlock? k.blocks.size k.entry?

def iterInsns (k : LinkedLayout) (b : BlockId) : List InsnId :=
  chain k.nextInsn? k.insns.size (k.firstInsn? b)

def iterInsnsRev (k : LinkedLayout) (b : BlockId) : List InsnId :=
  chain k.prevInsn? k.insns.size (k.lastInsn? b)

def blockCount (k : LinkedLayout) : Nat := k.iterBlocks.length

/-! ## Changing -/

def updateBlock (k : LinkedLayout) (b : BlockId) (f : BlockNode → BlockNode) : LinkedLayout :=
  { k with blocks := k.blocks.set b (f (k.blocks.get b)) }

def updateInsn (k : LinkedLayout) (i : InsnId) (f : InsnNode → InsnNode) : LinkedLayout :=
  { k with insns := k.insns.set i (f (k.insns.get i)) }

def appendBlock (k : LinkedLayout) (b : BlockId) : LinkedLayout :=
  match k.lastBlock? with
  | some last =>
      let linked := k.updateBlock last fun node => { node with next? := some b }
      { linked with blocks := linked.blocks.set b { prev? := some last }, lastBlock? := some b }
  | none => { k with blocks := k.blocks.set b {}, entry? := some b, lastBlock? := some b }

/-- The layout with `i` in block `b` between two neighbours; where there is none, `i` becomes an end
of the row. -/
def splice (k : LinkedLayout) (i : InsnId) (b : BlockId) (before? after? : Option InsnId) :
    LinkedLayout :=
  let behind := match before? with
    | some before => k.updateInsn before fun node => { node with next? := some i }
    | none => k.updateBlock b fun node => { node with first? := some i }
  let between := match after? with
    | some after => behind.updateInsn after fun node => { node with prev? := some i }
    | none => behind.updateBlock b fun node => { node with last? := some i }
  { between with
    insns := between.insns.set i { block? := some b, prev? := before?, next? := after? } }

def appendInsn (k : LinkedLayout) (i : InsnId) (b : BlockId) : LinkedLayout :=
  k.splice i b (k.lastInsn? b) none

def prependInsn (k : LinkedLayout) (i : InsnId) (b : BlockId) : LinkedLayout :=
  k.splice i b none (k.firstInsn? b)

def insertBefore (k : LinkedLayout) (i anchor : InsnId) : LinkedLayout :=
  match k.blockOf? anchor with
  | some b => k.splice i b (k.prevInsn? anchor) (some anchor)
  | none => k

def insertAfter (k : LinkedLayout) (i anchor : InsnId) : LinkedLayout :=
  match k.blockOf? anchor with
  | some b => k.splice i b (some anchor) (k.nextInsn? anchor)
  | none => k

/-! ## Renumbering -/

/-- Counts the instructions of a row from `position` on, at most `limit` of them. -/
def numberRow : Nat → IdMap InsnNode → UInt32 → Option InsnId → IdMap InsnNode × UInt32
  | 0, insns, position, _ => (insns, position)
  | _ + 1, insns, position, none => (insns, position)
  | limit + 1, insns, position, some i =>
      let node := { insns.get i with position }
      numberRow limit (insns.set i node) (position + 1) node.next?

def numberRows (k : LinkedLayout) : Nat → IdMap InsnNode → UInt32 → Option BlockId → IdMap InsnNode
  | 0, insns, _, _ => insns
  | _ + 1, insns, _, none => insns
  | limit + 1, insns, position, some b =>
      let (insns, position) := numberRow k.insns.size insns position (k.firstInsn? b)
      numberRows k limit insns position (k.nextBlock? b)

def renumber (k : LinkedLayout) : LinkedLayout :=
  { k with insns := k.numberRows k.blocks.size k.insns 0 k.entry? }

end LinkedLayout

/-! ## Steps -/

inductive LayoutStep where
  | appendBlock (b : BlockId)
  | appendInsn (i : InsnId) (b : BlockId)
  | prependInsn (i : InsnId) (b : BlockId)
  | insertBefore (i anchor : InsnId)
  | insertAfter (i anchor : InsnId)
  | renumber
deriving DecidableEq

namespace LayoutStep

def onRows (l : Layout) : LayoutStep → Layout
  | appendBlock b => l.appendBlock b
  | appendInsn i b => l.appendInsn i b
  | prependInsn i b => l.prependInsn i b
  | insertBefore i anchor => l.insertBefore i anchor
  | insertAfter i anchor => l.insertAfter i anchor
  | renumber => l.renumber

def onLinks (k : LinkedLayout) : LayoutStep → LinkedLayout
  | appendBlock b => k.appendBlock b
  | appendInsn i b => k.appendInsn i b
  | prependInsn i b => k.prependInsn i b
  | insertBefore i anchor => k.insertBefore i anchor
  | insertAfter i anchor => k.insertAfter i anchor
  | renumber => k.renumber

def newBlock? : LayoutStep → Option BlockId
  | appendBlock b => some b
  | _ => none

def newInsn? : LayoutStep → Option InsnId
  | appendInsn i _ | prependInsn i _ | insertBefore i _ | insertAfter i _ => some i
  | _ => none

end LayoutStep

namespace LinkedLayout

/-- What a step asserts: the block or the anchor it names is there, and its element is not yet. -/
def admits (k : LinkedLayout) : LayoutStep → Bool
  | .appendBlock b => !k.hasBlock b
  | .appendInsn i b | .prependInsn i b => k.hasBlock b && !k.hasInsn i
  | .insertBefore i anchor | .insertAfter i anchor => k.hasInsn anchor && !k.hasInsn i
  | .renumber => true

def admitsAll : LinkedLayout → List LayoutStep → Bool
  | _, [] => true
  | k, step :: rest => k.admits step && admitsAll (step.onLinks k) rest

end LinkedLayout

end FramePlacement
