import FramePlacement.Checked
import FramePlacement.Proofs.Exposure
import FramePlacement.Proofs.Links
import FramePlacement.Verifier.Walk
/-!
# The walk of the verifier stops at the first finding

A check reports some findings if it stops at the first of them, and otherwise goes on with what it
has remembered (`Finding.Reports`).  Checks made one after the other report their findings one after
the other, so the walk is followed instruction by instruction and block by block.  What it remembers
is told by the code it has passed (`Walk.Recalls`).
-/

set_option autoImplicit false

namespace FramePlacement

namespace Finding

/-- The check stops at the first of the findings; if there is none, it has a result with the
property. -/
def Reports {α : Type} (found : List Finding) (holds : α → Prop) (check : Except Finding α) :
    Prop :=
  match found with
  | [] => ∃ a, check = .ok a ∧ holds a
  | first :: _ => check = .error first

namespace Reports

variable {α β : Type} {first second : List Finding} {holds : α → Prop} {ends : β → Prop}

theorem ok {a : α} (result : holds a) : Reports [] holds (.ok a) := ⟨a, rfl, result⟩

theorem bind {check : Except Finding α} {next : α → Except Finding β}
    (now : Reports first holds check) (later : ∀ a, holds a → Reports second ends (next a)) :
    Reports (first ++ second) ends (check >>= next) := by
  cases first with
  | nil =>
      obtain ⟨a, rfl, result⟩ := now
      exact later a result
  | cons finding rest =>
      have stopped : check = .error finding := now
      rw [stopped]
      rfl

theorem stopIf (broken : Bool) (cause : Violation) :
    Reports (ifBroken broken cause) (fun _ => broken = false) (Finding.stopIf broken cause) := by
  cases broken with
  | true => rfl
  | false => exact ⟨(), rfl, rfl⟩

theorem weaken {check : Except Finding α} (reports : Reports first holds check) :
    Reports first (fun _ => True) check := by
  cases first with
  | nil =>
      obtain ⟨a, result, _⟩ := reports
      exact ⟨a, result, trivial⟩
  | cons _ _ => exact reports

theorem ok_iff {check : Except Finding Unit} (reports : Reports first (fun _ => True) check) :
    check = .ok () ↔ first = [] := by
  cases first with
  | nil =>
      obtain ⟨_, rfl, _⟩ := reports
      exact ⟨fun _ => rfl, fun _ => rfl⟩
  | cons finding rest =>
      have stopped : check = .error finding := reports
      rw [stopped]
      exact ⟨fun h => (nomatch h), fun h => (nomatch h)⟩

end Reports

end Finding

theorem Layout.nextInsn?_of_split {l : Layout} {b : BlockId} {i : InsnId}
    {front back : List InsnId} (split : l.insns b = front ++ i :: back) :
    l.nextInsn? i = back.head? := by
  have inside : i ∈ l.insns b := split ▸ List.mem_append_right front List.mem_cons_self
  unfold Layout.nextInsn?
  rw [Layout.blockOf?_eq_some_iff.mpr inside, Option.bind_some, split,
    Row.successor?_of_split (l.not_mem_front_of_split split)]

/-! ## What the walk remembers -/

namespace Walk

/-- The walk remembers the code it has passed: `top` of the entry block, and `all` altogether. -/
structure Recalls (s : Body) (top all : Code) (walk : Walk) : Prop where
  alloc : walk.alloc? =
    (top.find? fun entry => entry.2.isAlloc).map fun entry => s.layout.position entry.1
  needsAlloc : walk.needsAlloc = all.any fun entry => s.movesOwn entry.2
  entryMoves : walk.entryMoves =
    (top.filter fun entry => s.movesOwn entry.2).map fun entry => s.layout.position entry.1

/-- What has been passed of the entry block inside a block `b`: the code of `b` itself, if that is
the entry block, and otherwise the code passed before `b`. -/
def topIn (s : Body) (b : BlockId) (before earlier : Code) : Code :=
  if s.layout.entry? = some b then earlier else before

namespace Recalls

variable {s : Body} {b : BlockId} {before earlier all : Code} {walk : Walk} {entry : InsnId × Insn}

theorem nothing (s : Body) : Recalls s [] [] {} := ⟨rfl, rfl, rfl⟩

theorem plain (recalls : Recalls s (topIn s b before earlier) all walk)
    (noAlloc : entry.2.isAlloc = false) (stays : s.movesOwn entry.2 = false) :
    Recalls s (topIn s b before (earlier ++ [entry])) (all ++ [entry]) walk := by
  obtain ⟨alloc, needsAlloc, entryMoves⟩ := recalls
  unfold topIn at *
  refine ⟨?_, ?_, ?_⟩
  · rw [alloc]
    split <;> simp [noAlloc]
  · rw [needsAlloc]
    simp [stays]
  · rw [entryMoves]
    split <;> simp [stays]

theorem move (recalls : Recalls s (topIn s b before earlier) all walk)
    (noAlloc : entry.2.isAlloc = false) (own : s.movesOwn entry.2 = true) :
    Recalls s (topIn s b before (earlier ++ [entry])) (all ++ [entry])
      (walk.moveAt (s.layout.entry? == some b) (s.layout.position entry.1)) := by
  obtain ⟨alloc, needsAlloc, entryMoves⟩ := recalls
  unfold topIn at *
  refine ⟨?_, ?_, ?_⟩
  · rw [moveAt, alloc]
    split <;> simp [noAlloc]
  · simp [moveAt, own]
  · rw [moveAt, entryMoves]
    by_cases first : s.layout.entry? = some b <;> simp [first, own]

theorem isSome_alloc? (recalls : Recalls s (topIn s b before earlier) all walk)
    (first : s.layout.entry? = some b) :
    walk.alloc?.isSome = earlier.any fun entry => entry.2.isAlloc := by
  rw [recalls.alloc, topIn, if_pos first, Option.isSome_map, List.isSome_find?]

theorem allocate (recalls : Recalls s (topIn s b before earlier) all walk)
    (first : s.layout.entry? = some b) (alloc : entry.2 = .allocFrame)
    (fresh : walk.alloc?.isSome = false) :
    Recalls s (topIn s b before (earlier ++ [entry])) (all ++ [entry])
      (walk.allocateAt (s.layout.position entry.1)) := by
  have allocates : entry.2.isAlloc = true := by rw [alloc]; rfl
  have stays : s.movesOwn entry.2 = false := by rw [alloc]; rfl
  have unallocated : (earlier.find? fun entry => entry.2.isAlloc) = none := by
    rw [recalls.isSome_alloc? first, List.any_eq_false] at fresh
    exact List.find?_eq_none.mpr fresh
  have entryMoves := recalls.entryMoves
  unfold topIn at entryMoves ⊢
  rw [if_pos first] at entryMoves ⊢
  refine ⟨?_, ?_, ?_⟩
  · rw [List.find?_append, unallocated]
    simp [allocateAt, allocates]
  · simp [allocateAt, recalls.needsAlloc, stays]
  · simp [allocateAt, entryMoves, stays]

end Recalls

end Walk

namespace Body

open Finding (Reports)
open Walk (Recalls topIn)

variable {s : Body} {b : BlockId} {before earlier all : Code} {walk : Walk}

/-! ## One instruction -/

theorem passMove_reports {entry : InsnId × Insn} {v : VarId}
    (recalls : Recalls s (topIn s b before earlier) all walk)
    (moves : entry.2.movedVar? = some v) (noAlloc : entry.2.isAlloc = false) :
    Reports (s.movedFindings v)
      (Recalls s (topIn s b before (earlier ++ [entry])) (all ++ [entry]))
      (s.passMove b (s.layout.position entry.1) walk v) := by
  have own : s.movesOwn entry.2 = (s.vars.var? v).any Variable.isOwn := by
    rw [movesOwn, moves]
    rfl
  unfold movedFindings passMove
  cases read : s.vars.var? v with
  | none => rfl
  | some x =>
      rw [read] at own
      cases x with
      | temporary index => rfl
      | named name depth =>
          cases depth with
          | zero => exact Reports.ok (recalls.move noAlloc own)
          | succ depth => exact Reports.ok (recalls.plain noAlloc own)

theorem passFrame_reports (entry : InsnId × Insn)
    (recalls : Recalls s (topIn s b before earlier) all walk) :
    Reports ((if entry.2.isAlloc then s.allocFindings b earlier else []) ++
        entry.2.movedVar?.elim [] s.movedFindings)
      (Recalls s (topIn s b before (earlier ++ [entry])) (all ++ [entry]))
      (s.passFrame b (s.layout.position entry.1) walk entry.2) := by
  obtain ⟨i, insn⟩ := entry
  cases insn with
  | allocFrame =>
      change Reports (s.allocFindings b earlier ++ []) _ _
      unfold allocFindings passFrame
      rw [List.append_assoc]
      refine (Reports.stopIf _ _).bind fun _ inside => ?_
      have first : s.layout.entry? = some b := by simpa using inside
      rw [← recalls.isSome_alloc? first]
      refine (Reports.stopIf _ _).bind fun _ fresh => ?_
      exact Reports.ok (recalls.allocate first rfl fresh)
  | storeFrame v => exact passMove_reports recalls rfl rfl
  | loadFrame v => exact passMove_reports recalls rfl rfl
  | _ => exact Reports.ok (recalls.plain rfl rfl)

theorem insnFindings_eq (s : Body) (b : BlockId) (earlier : Code) (i : InsnId) (insn : Insn)
    (followed : Bool) :
    s.insnFindings b earlier i insn followed =
      Finding.ifBroken
          (earlier.getLast?.any fun last => s.layout.position i ≤ s.layout.position last.1)
          (.positionNotIncreasing b) ++
        (Finding.ifBroken (insn.isTerminator && followed) (.terminatorNotLast b) ++
          (Finding.ifBroken (insn.targets.any fun target => !s.layout.hasBlock target)
              (.branchToMissingBlock b) ++
            ((if insn.isAlloc then s.allocFindings b earlier else []) ++
              insn.movedVar?.elim [] s.movedFindings))) := by
  unfold insnFindings
  rw [List.append_assoc, List.append_assoc, List.append_assoc]
  cases earlier.getLast? <;> cases insn.movedVar? <;> rfl

theorem passInsn_reports {i : InsnId} {insn : Insn} {followed : Bool} {last? : Option Nat}
    (recalls : Recalls s (topIn s b before earlier) all walk) (read : s.insn? i = some insn)
    (next : (s.layout.nextInsn? i).isSome = followed)
    (last : last? = earlier.getLast?.map fun entry => s.layout.position entry.1) :
    Reports (s.insnFindings b earlier i insn followed)
      (Recalls s (topIn s b before (earlier ++ [(i, insn)])) (all ++ [(i, insn)]))
      (s.passInsn b last? i walk) := by
  have notAfter : (last?.any fun last => s.layout.position i ≤ last) =
      earlier.getLast?.any fun last => s.layout.position i ≤ s.layout.position last.1 := by
    rw [last, Option.any_map]
  rw [insnFindings_eq]
  unfold passInsn
  dsimp only
  rw [read, next, notAfter]
  refine (Reports.stopIf _ _).bind fun _ _ => ?_
  refine (Reports.stopIf _ _).bind fun _ _ => ?_
  refine (Reports.stopIf _ _).bind fun _ _ => ?_
  exact passFrame_reports (i, insn) recalls

/-! ## A block, and all blocks -/

def codeOf (s : Body) (row : List InsnId) : Code :=
  row.filterMap fun i => (s.insn? i).map fun insn => (i, insn)

theorem codeOf_cons {i : InsnId} {insn : Insn} (read : s.insn? i = some insn) (rest : List InsnId) :
    s.codeOf (i :: rest) = (i, insn) :: s.codeOf rest := by
  unfold codeOf
  rw [List.filterMap_cons_some (by rw [read]; rfl)]

theorem passInsns_reports {done rest : List InsnId} {last? : Option Nat}
    (row : s.layout.insns b = done ++ rest)
    (recalls : Recalls s (topIn s b before earlier) all walk)
    (last : last? = earlier.getLast?.map fun entry => s.layout.position entry.1) :
    Reports (s.codeFindings b earlier rest)
      (Recalls s (topIn s b before (earlier ++ s.codeOf rest)) (all ++ s.codeOf rest))
      (s.passInsns b last? rest walk) := by
  induction rest generalizing done earlier all last? walk with
  | nil =>
      rw [codeOf, List.filterMap_nil, List.append_nil, List.append_nil]
      exact Reports.ok recalls
  | cons i rest ih =>
      rw [codeFindings, passInsns]
      cases read : s.insn? i with
      | none =>
          unfold passInsn
          rw [read]
          rfl
      | some insn =>
          have next : (s.layout.nextInsn? i).isSome = !rest.isEmpty := by
            rw [Layout.nextInsn?_of_split row]
            cases rest <;> rfl
          refine (passInsn_reports recalls read next last).bind fun after passed => ?_
          rw [codeOf_cons read, List.append_cons earlier _ (s.codeOf rest),
            List.append_cons all _ (s.codeOf rest)]
          have last : some (s.layout.position i) = (earlier ++ [(i, insn)]).getLast?.map
              fun entry => s.layout.position entry.1 := by
            rw [List.getLast?_concat]
            rfl
          exact ih (row.trans (List.append_cons done i rest)) passed last

theorem passBlock_reports (recalls : Recalls s (topIn s b before []) all walk) :
    Reports (s.blockFindings b)
      (Recalls s (topIn s b before (s.code b)) (all ++ s.code b)) (s.passBlock walk b) := by
  have rows := passInsns_reports (List.nil_append _).symm recalls rfl
  unfold blockFindings handlerFindings passBlock
  cases s.handlers[b]? with
  | none => rfl
  | some handler? =>
      cases handler? with
      | none => exact rows
      | some handler => exact (Reports.stopIf _ _).bind fun _ _ => rows

theorem passBlocks_reports {blocks : List BlockId} (below : ∀ b ∈ blocks, s.layout.entry? ≠ some b)
    (recalls : Recalls s before all walk) :
    Reports (blocks.flatMap s.blockFindings)
      (Recalls s before (all ++ blocks.flatMap s.code)) (blocks.foldlM s.passBlock walk) := by
  induction blocks generalizing all walk with
  | nil =>
      rw [List.flatMap_nil, List.flatMap_nil, List.append_nil]
      exact Reports.ok recalls
  | cons b rest ih =>
      obtain ⟨here, later⟩ := List.forall_mem_cons.mp below
      have outside : ∀ code, topIn s b before code = before := fun code => if_neg here
      have start : Recalls s (topIn s b before []) all walk := (outside []).symm ▸ recalls
      have now := passBlock_reports start
      rw [outside] at now
      rw [List.foldlM_cons, List.flatMap_cons, List.flatMap_cons, ← List.append_assoc]
      exact now.bind fun after passed => ih later passed

theorem settle_reports
    (recalls : Recalls s ((s.layout.entry?.map s.code).getD []) s.allCode walk) :
    Reports s.allocationFindings (fun _ => True) walk.settle := by
  obtain ⟨alloc, needsAlloc, entryMoves⟩ := recalls
  unfold allocationFindings Walk.settle
  dsimp only
  rw [alloc, needsAlloc, entryMoves]
  cases ((s.layout.entry?.map s.code).getD []).find? fun entry => entry.2.isAlloc with
  | none => exact (Reports.stopIf _ _).weaken
  | some entry =>
      dsimp only [Option.map_some]
      rw [List.any_map, List.any_filter]
      exact (Reports.stopIf _ _).weaken

theorem walk_reports (s : Body) : Reports s.findings (fun _ => True) s.walk := by
  unfold findings walk
  refine Reports.bind ?_ fun _ => settle_reports
  unfold allCode
  -- the entry block comes first, and no later block is the entry block
  cases blocks : s.layout.blocks with
  | nil =>
      have none : s.layout.entry? = none := by rw [Layout.entry?, blocks]; rfl
      rw [none]
      exact Reports.ok (Recalls.nothing s)
  | cons top rest =>
      have first : s.layout.entry? = some top := by rw [Layout.entry?, blocks]; rfl
      have distinct := s.layout.blocks_nodup
      rw [blocks, List.nodup_cons] at distinct
      have below : ∀ b ∈ rest, s.layout.entry? ≠ some b := by
        rintro b member same
        rw [first] at same
        exact distinct.1 (Option.some.inj same ▸ member)
      have inTop : ∀ code, topIn s top [] code = code := fun code => if_pos first
      have start : Recalls s (topIn s top [] []) [] {} := (inTop []).symm ▸ Recalls.nothing s
      have now := passBlock_reports start
      rw [inTop, List.nil_append] at now
      rw [first, List.foldlM_cons, List.flatMap_cons, List.flatMap_cons]
      exact now.bind fun after passed => passBlocks_reports below passed

/-- The outcome of the walk is the answer of the verifier. -/
theorem checkInvariants_eq_walkAnswer (s : Body) : Checked.checkInvariants s = s.walkAnswer := by
  have reports := s.walk_reports
  unfold Checked.checkInvariants walkAnswer checkInvariants verify violation? verifyDangles
  cases found : s.findings with
  | nil =>
      rw [found] at reports
      obtain ⟨_, walked, _⟩ := reports
      rw [walked]
      rfl
  | cons finding rest =>
      rw [found] at reports
      have stopped : s.walk = .error finding := reports
      rw [stopped]
      cases finding <;> rfl

theorem checkInvariants_ok_iff (s : Body) :
    Checked.checkInvariants s = .ok (.ok ()) ↔ s.findings = [] := by
  rw [checkInvariants_eq_walkAnswer, ← s.walk_reports.ok_iff, walkAnswer]
  split
  · next walked => rw [walked]; exact ⟨fun _ => rfl, fun _ => rfl⟩
  · next walked => rw [walked]; exact ⟨fun h => (nomatch h), fun h => (nomatch h)⟩
  · next walked => rw [walked]; exact ⟨fun h => (nomatch h), fun h => (nomatch h)⟩

end Body

end FramePlacement
