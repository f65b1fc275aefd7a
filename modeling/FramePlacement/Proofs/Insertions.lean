import FramePlacement.Proofs.Soundness
/-!
# What a placement inserts

A placement makes new frame instructions, puts each of them in one place of the layout and touches
nothing else (`Body.Inserts`).  The three rounds of stores, loads and stores weave around the old
instructions: the loads of a read stand before it, and at most one store stands behind a write,
since a write that has its store is not due another one.

No analysis notices: the graph, the captures and the effects of the result are those of the scope
before (`Scope.runAlone_inserts`).
-/

set_option autoImplicit false

namespace FramePlacement

/-! ## New instructions, each in one place -/

/-- `t` has the instructions `made` more than `s`, and each of them stands in one place. -/
structure Body.Grown (s t : Body) (made : List Insn) : Prop where
  arena : t.insns.toList = s.insns.toList ++ made
  once : t.layout.allInsns.Perm (s.layout.allInsns ++ List.range' s.insns.size made.length)

namespace Body.Grown

variable {s t u : Body} {made more : List Insn}

theorem refl (s : Body) : s.Grown s [] where
  arena := (List.append_nil _).symm
  once := by
    rw [List.length_nil, List.range'_zero, List.append_nil]

theorem size (grown : s.Grown t made) : t.insns.size = s.insns.size + made.length := by
  rw [← Array.length_toList, grown.arena, List.length_append, Array.length_toList]

theorem trans (first : s.Grown t made) (second : t.Grown u more) : s.Grown u (made ++ more) where
  arena := by rw [second.arena, first.arena, List.append_assoc]
  once := by
    have all := second.once.trans (first.once.append_right _)
    rw [List.append_assoc, first.size, List.range'_append_1] at all
    rw [List.length_append]
    exact all

theorem of_added {new : Insn} (insns : t.insns = s.insns.push new)
    (once : t.layout.allInsns.Perm (s.insns.size :: s.layout.allInsns)) : s.Grown t [new] where
  arena := by rw [insns, Array.toList_push]
  once := once.trans (List.perm_append_singleton _ _).symm

theorem addBeside (known : s.insnsKnown = true) (side : Side) (new : Insn) {anchor : InsnId}
    (listed : anchor ∈ s.layout.allInsns) : s.Grown (s.addBeside side new anchor) [new] := by
  refine of_added (by rw [(s.addBeside_frame side new anchor).1]) ?_
  cases side with
  | before => exact Layout.allInsns_insertBefore_perm listed (fresh_insn known)
  | behind => exact Layout.allInsns_insertAfter_perm listed (fresh_insn known)

theorem insertBeside (known : s.insnsKnown = true) (side : Side) (move : VarId → Insn)
    {marks : List Mark} (listed : ∀ mark ∈ marks, mark.1 ∈ s.layout.allInsns) :
    s.Grown (s.insertBeside side move marks) (marks.map fun mark => move mark.2) := by
  induction marks generalizing s with
  | nil => exact refl s
  | cons mark marks ih =>
      have first := addBeside known side (move mark.2) (listed mark List.mem_cons_self)
      obtain ⟨shape, _, added⟩ := s.addBeside_frame side (move mark.2) mark.1
      have stillKnown := insnsKnown_of_added known (congrArg Body.insns shape) added
      have rest := ih stillKnown fun other member => first.once.symm.subset
        (List.mem_append_left _ (listed other (List.mem_cons_of_mem mark member)))
      exact first.trans rest

theorem prepend (known : s.insnsKnown = true) (new : Insn) {top : BlockId}
    (listed : top ∈ s.layout.blocks) : s.Grown (s.prepend new top) [new] :=
  of_added rfl (Layout.allInsns_prependInsn_perm listed (fresh_insn known))

theorem insn?_eq (grown : s.Grown t made) {i : InsnId} (old : i < s.insns.size) :
    t.insn? i = s.insn? i := by
  unfold insn?
  rw [← Array.getElem?_toList, grown.arena, List.getElem?_append_left, Array.getElem?_toList]
  exact old

theorem count_eq_one (grown : s.Grown t made) {i : InsnId} (new : s.insns.size ≤ i)
    (old : i < t.insns.size) : t.layout.allInsns.count i = 1 := by
  rw [grown.size] at old
  have member : i ∈ t.layout.allInsns := grown.once.symm.subset
    (List.mem_append_right _ (List.mem_range'_1.mpr ⟨new, old⟩))
  exact List.count_eq_one_of_mem t.layout.allInsns_nodup member

end Body.Grown

/-! ## Where the moves stand -/

theorem Body.Woven.trans {s t u : Body} {before behind more after : InsnId → Code}
    (first : s.Woven t before behind) (second : t.Woven u more after)
    (old : ∀ i, s.insns.size ≤ i → more i = [] ∧ after i = []) :
    s.Woven u (fun i => before i ++ more i) (fun i => after i ++ behind i) where
  same := by
    have middle := first.same
    have last := second.same
    rw [middle] at last
    exact last
  blocks := second.blocks.trans first.blocks
  code b := by
    rw [second.code, first.code, weave_weave]
    intro i entry member
    exact old entry.1 (Nat.le_of_not_lt (of_decide_eq_false (first.fresh i entry member).1))
  fresh i entry member := by
    have outer : entry ∈ more i ++ after i → s.owns entry = false ∧ entry.2.isFrameInsn = true := by
      intro inside
      obtain ⟨foreign, frame⟩ := second.fresh i entry inside
      exact ⟨decide_eq_false fun own => of_decide_eq_false foreign
        (Nat.lt_of_lt_of_le own first.grows), frame⟩
    rcases List.mem_append.mp member with front | back
    · rcases List.mem_append.mp front with inner | new
      · exact first.fresh i entry (List.mem_append_left _ inner)
      · exact outer (List.mem_append_left _ new)
    · rcases List.mem_append.mp back with new | inner
      · exact outer (List.mem_append_right _ new)
      · exact first.fresh i entry (List.mem_append_right _ inner)
  grows := Nat.le_trans first.grows second.grows
  known := second.known

theorem Body.Woven.locate {s t : Body} {before behind : InsnId → Code}
    (woven : s.Woven t before behind) {b : BlockId} {above rest : Code} {entry : InsnId × Insn}
    (code : t.code b = above ++ entry :: rest) (new : s.owns entry = false) :
    ∃ front old back, s.code b = front ++ old :: back ∧
      ((∃ far near, before old.1 = far ++ entry :: near ∧
          rest = near ++ old :: (behind old.1 ++ weave Prod.fst before behind back)) ∨
        ∃ near far, behind old.1 = near ++ entry :: far ∧
          above = weave Prod.fst before behind front ++ before old.1 ++ old :: near) := by
  have member : entry ∈ t.code b := Body.mem_code_of_split code
  rw [woven.code] at member
  obtain ⟨old, among, here⟩ := List.mem_flatMap.mp member
  obtain ⟨front, back, split⟩ := List.append_of_mem among
  have whole : t.code b = weave Prod.fst before behind front ++
      (before old.1 ++ old :: behind old.1 ++ weave Prod.fst before behind back) := by
    rw [woven.code, split, weave_append, weave_cons]
  refine ⟨front, old, back, split, ?_⟩
  rcases List.mem_append.mp here with ahead | later
  · obtain ⟨far, near, parts⟩ := List.append_of_mem ahead
    have other : t.code b = (weave Prod.fst before behind front ++ far) ++ entry ::
        (near ++ old :: (behind old.1 ++ weave Prod.fst before behind back)) := by
      rw [whole, parts]
      simp only [List.append_assoc, List.cons_append]
    exact Or.inl ⟨far, near, parts, (code_split_unique code other).2⟩
  · rcases List.mem_cons.mp later with rfl | later
    · have own : s.owns entry = true := decide_eq_true (lt_size_of_mem_code among)
      rw [own] at new
      cases new
    · obtain ⟨near, far, parts⟩ := List.append_of_mem later
      have other : t.code b = (weave Prod.fst before behind front ++ before old.1 ++ old :: near) ++
          entry :: (far ++ weave Prod.fst before behind back) := by
        rw [whole, parts]
        simp only [List.append_assoc, List.cons_append]
      exact Or.inr ⟨near, far, parts, (code_split_unique code other).1⟩

namespace Body

variable {s t : Body} {before behind : InsnId → Code}

def StoresFollowWrites (s t : Body) : Prop :=
  ∀ b above rest j v, t.code b = above ++ (j, .storeFrame v) :: rest →
    s.owns (j, .storeFrame v) = false →
    ∃ front write, above = front ++ [write] ∧ s.owns write = true ∧ write.2.writesSlot v = true

/-- Every new load stands before an old instruction that uses its variable, with nothing but new
loads between them. -/
def LoadsPrecedeReads (s t : Body) : Prop :=
  ∀ b above rest j v, t.code b = above ++ (j, .loadFrame v) :: rest →
    s.owns (j, .loadFrame v) = false →
    ∃ loads read back, rest = loads ++ read :: back ∧
      (∀ load ∈ loads, s.owns load = false ∧ load.2.isLoad = true) ∧
      s.owns read = true ∧ read.2.isFrameInsn = false ∧ v ∈ read.2.usedVars

def AllocsOpen (s t : Body) : Prop :=
  ∀ b above rest j, t.code b = above ++ (j, .allocFrame) :: rest →
    s.owns (j, .allocFrame) = false → t.layout.entry? = some b ∧ above = []

def LoadsAhead (s : Body) (before : InsnId → Code) : Prop :=
  ∀ b, ∀ read ∈ s.code b, ∀ entry ∈ before read.1,
    ∃ v, entry.2 = .loadFrame v ∧ read.2.isFrameInsn = false ∧ v ∈ read.2.usedVars

def StoreBehind (s : Body) (behind : InsnId → Code) : Prop :=
  ∀ b, ∀ write ∈ s.code b, behind write.1 = [] ∨
    ∃ j v, behind write.1 = [(j, .storeFrame v)] ∧ write.2.writesSlot v = true

namespace Woven

theorem store_place (woven : s.Woven t before behind) (loads : s.LoadsAhead before)
    (stores : s.StoreBehind behind) {b : BlockId} {above rest : Code} {j : InsnId} {v : VarId}
    (code : t.code b = above ++ (j, .storeFrame v) :: rest)
    (new : s.owns (j, .storeFrame v) = false) :
    ∃ front write, above = front ++ [write] ∧ write ∈ s.code b ∧
      write.2.writesSlot v = true ∧ (j, .storeFrame v) ∈ behind write.1 := by
  obtain ⟨front, old, back, split, place⟩ := woven.locate code new
  have member : old ∈ s.code b := Body.mem_code_of_split split
  rcases place with ⟨far, near, parts, _⟩ | ⟨near, far, parts, same⟩
  · obtain ⟨x, load, _⟩ := loads b old member (j, .storeFrame v) (by rw [parts]; simp)
    cases load
  · have inside : (j, Insn.storeFrame v) ∈ behind old.1 := by rw [parts]; simp
    rcases stores b old member with none | ⟨k, x, one, writes⟩
    · rw [none] at inside
      cases inside
    · rw [one] at parts
      cases near with
      | cons _ near => cases near <;> cases parts
      | nil =>
          cases parts
          exact ⟨_, old, same, member, writes, inside⟩

theorem load_place (woven : s.Woven t before behind) (stores : s.StoreBehind behind) {b : BlockId}
    {above rest : Code} {j : InsnId} {v : VarId}
    (code : t.code b = above ++ (j, .loadFrame v) :: rest)
    (new : s.owns (j, .loadFrame v) = false) :
    ∃ far near read back, read ∈ s.code b ∧ before read.1 = far ++ (j, .loadFrame v) :: near ∧
      rest = near ++ read :: back := by
  obtain ⟨front, old, back, split, place⟩ := woven.locate code new
  have member : old ∈ s.code b := Body.mem_code_of_split split
  rcases place with ⟨far, near, parts, same⟩ | ⟨near, far, parts, _⟩
  · exact ⟨far, near, old, _, member, parts, same⟩
  · have inside : (j, Insn.loadFrame v) ∈ behind old.1 := by rw [parts]; simp
    rcases stores b old member with none | ⟨k, x, one, _⟩
    · rw [none] at inside
      cases inside
    · rw [one, List.mem_singleton] at inside
      cases inside

theorem storesFollowWrites (woven : s.Woven t before behind) (loads : s.LoadsAhead before)
    (stores : s.StoreBehind behind) : s.StoresFollowWrites t := by
  intro b above rest j v code new
  obtain ⟨front, write, same, member, writes, _⟩ := woven.store_place loads stores code new
  exact ⟨front, write, same, decide_eq_true (lt_size_of_mem_code member), writes⟩

theorem loadsPrecedeReads (woven : s.Woven t before behind) (loads : s.LoadsAhead before)
    (stores : s.StoreBehind behind) : s.LoadsPrecedeReads t := by
  intro b above rest j v code new
  obtain ⟨far, near, read, back, member, parts, same⟩ := woven.load_place stores code new
  obtain ⟨x, load, plain, used⟩ := loads b read member (j, .loadFrame v) (by rw [parts]; simp)
  cases load
  refine ⟨near, read, back, same, fun other inside => ?_,
    decide_eq_true (lt_size_of_mem_code member), plain, used⟩
  have ahead : other ∈ before read.1 := by rw [parts]; simp [inside]
  obtain ⟨y, load, _⟩ := loads b read member other ahead
  refine ⟨(woven.fresh read.1 other (List.mem_append_left _ ahead)).1, ?_⟩
  rw [load]
  rfl

theorem isAlloc_eq_false (woven : s.Woven t before behind) (loads : s.LoadsAhead before)
    (stores : s.StoreBehind behind) {b : BlockId} {entry : InsnId × Insn}
    (member : entry ∈ t.code b) (new : s.owns entry = false) : entry.2.isAlloc = false := by
  obtain ⟨above, rest, code⟩ := List.append_of_mem member
  obtain ⟨front, old, back, split, place⟩ := woven.locate code new
  have among : old ∈ s.code b := Body.mem_code_of_split split
  rcases place with ⟨far, near, parts, _⟩ | ⟨near, far, parts, _⟩
  · obtain ⟨x, load, _⟩ := loads b old among entry (by rw [parts]; simp)
    rw [load]
    rfl
  · have inside : entry ∈ behind old.1 := by rw [parts]; simp
    rcases stores b old among with none | ⟨k, x, one, _⟩
    · rw [none] at inside
      cases inside
    · rw [one] at inside
      rw [List.mem_singleton.mp inside]
      rfl

end Woven

end Body

/-! ## The rounds of a placement -/

section Rounds

variable {s : Body} {e : Effects} {first loads second : List Mark} {v : VarId}

theorem uses_of_staleRead {b : BlockId} {entry : InsnId × Insn}
    (stale : e.StaleRead s entry.1 v) (member : entry ∈ s.code b) :
    entry.2.isFrameInsn = false ∧ v ∈ entry.2.usedVars := by
  obtain ⟨c, above, insn, rest, code, plain, used, _⟩ := stale
  rw [Body.insn_unique member (Body.mem_code_of_split code)]
  exact ⟨plain, used⟩

theorem Insn.writesSlot_unique {insn : Insn} {x y : VarId} (one : insn.writesSlot x = true)
    (other : insn.writesSlot y = true) : x = y := by
  unfold Insn.writesSlot at one other
  rw [Bool.and_eq_true, beq_iff_eq] at one other
  exact Option.some.inj (one.2.symm.trans other.2)

theorem not_dueStore_of_stored {t : Body} {before behind : InsnId → Code} {w : InsnId} {x y : VarId}
    (woven : s.Woven t before behind) (stores : ∀ entry ∈ behind w, entry.2.isStore = true)
    (placed : ∃ j, (j, Insn.storeFrame x) ∈ behind w) (due : e.DueStore s w x) :
    ¬ e.DueStore t w y := by
  intro again
  obtain ⟨b, above, insn, rest, _, code, writes, _, _⟩ := id again
  have old := lt_size_of_dueStore due
  obtain ⟨front, back, here, _, _⟩ := woven.split code (decide_eq_true old)
  have member : (w, insn) ∈ s.code b := Body.mem_code_of_split here
  have same : x = y := Insn.writesSlot_unique (writesSlot_of_dueStore due member) writes
  subst same
  exact not_dueStore_of_behind woven stores placed old again

variable (known : s.insnsKnown = true) (due : ∀ w v, (w, v) ∈ first ↔ e.DueStore s w v)
  (stale : ∀ r v, (r, v) ∈ loads ↔ e.StaleRead (s.withStores first) r v)
include known due stale

theorem Body.woven_twoRounds : s.Woven ((s.withStores first).withLoads loads)
    (fun i => movesAt .loadFrame i (s.withStores first).insns.size loads)
    (fun i => (movesAt .storeFrame i s.insns.size first).reverse) := by
  obtain ⟨stored, storedKnown, _⟩ := withStores_settles known due
  have one : s.Woven (s.withStores first) (fun _ => [])
      (fun i => (movesAt .storeFrame i s.insns.size first).reverse) :=
    woven_movesAt known .behind (fun _ => rfl)
      fun mark member => lt_size_of_dueStore ((due mark.1 mark.2).mp member)
  have two : (s.withStores first).Woven ((s.withStores first).withLoads loads)
      (fun i => movesAt .loadFrame i (s.withStores first).insns.size loads) (fun _ => []) :=
    woven_movesAt storedKnown .before (fun _ => rfl)
      fun mark member => lt_size_of_staleRead ((stale mark.1 mark.2).mp member)
  -- the second round marks instructions that are no frame instructions, hence old ones
  have readOld : ∀ r v, (r, v) ∈ loads → r < s.insns.size := by
    intro r v marked
    obtain ⟨b, above, insn, rest, code, plain, _, _⟩ := (stale r v).mp marked
    exact of_decide_eq_true (stored.owns_of_plain code plain)
  exact one.trans two fun i new =>
    ⟨movesAt_of_unmarked _ fun v marked => Nat.not_lt_of_le new (readOld i v marked), rfl⟩

variable (again : ∀ w v, (w, v) ∈ second ↔
  e.DueStore ((s.withStores first).withLoads loads) w v)
include again

theorem Body.grown_rounds :
    s.Grown (((s.withStores first).withLoads loads).withStores second)
      (first.map (fun mark => .storeFrame mark.2) ++ loads.map (fun mark => .loadFrame mark.2) ++
        second.map fun mark => .storeFrame mark.2) := by
  obtain ⟨_, storedKnown, _⟩ := withStores_settles known due
  obtain ⟨_, loadedKnown, _⟩ := withLoads_settles storedKnown stale
  have one : s.Grown (s.withStores first) _ :=
    Grown.insertBeside known .behind .storeFrame
      fun mark member => mem_allInsns_of_dueStore ((due mark.1 mark.2).mp member)
  have two : (s.withStores first).Grown ((s.withStores first).withLoads loads) _ :=
    Grown.insertBeside storedKnown .before .loadFrame
      fun mark member => mem_allInsns_of_staleRead ((stale mark.1 mark.2).mp member)
  have three : ((s.withStores first).withLoads loads).Grown
      (((s.withStores first).withLoads loads).withStores second) _ :=
    Grown.insertBeside loadedKnown .behind .storeFrame
      fun mark member => mem_allInsns_of_dueStore ((again mark.1 mark.2).mp member)
  exact (one.trans two).trans three

/-- A write with a store of the first round gets no other one in the third. -/
theorem Body.unmarked_again {w : InsnId} {x : VarId} {j : InsnId} (marked : (w, x) ∈ first)
    (store : movesAt .storeFrame w s.insns.size first = [(j, .storeFrame x)]) (y : VarId) :
    ¬ (w, y) ∈ second := by
  intro markedAgain
  have both := woven_twoRounds known due stale
  refine not_dueStore_of_stored both ?_ ⟨j, ?_⟩ ((due w x).mp marked) ((again w y).mp markedAgain)
  · intro entry member
    rw [store, List.reverse_singleton, List.mem_singleton] at member
    rw [member]
    rfl
  · rw [store]
    exact List.mem_singleton_self _

/-- The third round weaves its stores between the old instructions and the stores behind them. -/
theorem Body.woven_threeRounds :
    ((s.withStores first).withLoads loads).Woven
        (((s.withStores first).withLoads loads).withStores second) (fun _ => [])
        (fun i => (movesAt .storeFrame i ((s.withStores first).withLoads loads).insns.size
          second).reverse) ∧
      s.Woven (((s.withStores first).withLoads loads).withStores second)
        (fun i => movesAt .loadFrame i (s.withStores first).insns.size loads)
        (fun i => (movesAt .storeFrame i ((s.withStores first).withLoads loads).insns.size
          second).reverse ++ (movesAt .storeFrame i s.insns.size first).reverse) := by
  obtain ⟨stored, storedKnown, _⟩ := withStores_settles known due
  obtain ⟨loaded, loadedKnown, _⟩ := withLoads_settles storedKnown stale
  have extend := stored.trans loaded
  have three : ((s.withStores first).withLoads loads).Woven
      (((s.withStores first).withLoads loads).withStores second) (fun _ => [])
      (fun i =>
        (movesAt .storeFrame i ((s.withStores first).withLoads loads).insns.size
          second).reverse) :=
    woven_movesAt loadedKnown .behind (fun _ => rfl)
      fun mark member => lt_size_of_dueStore ((again mark.1 mark.2).mp member)
  -- the third round marks instructions that are no frame instructions either
  have writeOld : ∀ w v, (w, v) ∈ second → w < s.insns.size := by
    intro w v marked
    obtain ⟨b, above, insn, rest, _, code, writes, _, _⟩ := (again w v).mp marked
    exact of_decide_eq_true (extend.owns_of_plain code (plain_of_writesSlot writes).1)
  have all := (woven_twoRounds known due stale).trans three fun i new => by
    rw [movesAt_of_unmarked _ fun v marked => Nat.not_lt_of_le new (writeOld i v marked)]
    exact ⟨rfl, rfl⟩
  simp only [List.append_nil] at all
  exact ⟨three, all⟩

/-- The three rounds weave loads before the stale reads, and behind every write at most one store of
what it writes. -/
theorem Body.woven_rounds (ascending : first.Pairwise fun a b => a.1 < b.1)
    (ascendingAgain : second.Pairwise fun a b => a.1 < b.1) :
    s.LoadsAhead (fun i => movesAt .loadFrame i (s.withStores first).insns.size loads) ∧
      s.StoreBehind (fun i =>
        (movesAt .storeFrame i ((s.withStores first).withLoads loads).insns.size
          second).reverse ++ (movesAt .storeFrame i s.insns.size first).reverse) := by
  obtain ⟨stored, storedKnown, _⟩ := withStores_settles known due
  obtain ⟨loaded, _, _⟩ := withLoads_settles storedKnown stale
  have extend := stored.trans loaded
  refine ⟨?_, ?_⟩
  · intro b read inside entry member
    obtain ⟨v, load, marked⟩ := marked_of_mem_movesAt member
    exact ⟨v, load, uses_of_staleRead ((stale _ _).mp marked) (stored.mem_code inside)⟩
  · intro b write inside
    dsimp only
    rcases movesAt_of_ascending s.insns.size ascending with none | ⟨j, x, store, marked⟩
    · rw [none]
      rcases movesAt_of_ascending ((s.withStores first).withLoads loads).insns.size
        ascendingAgain with none | ⟨k, y, store, markedAgain⟩
      · rw [none]
        exact Or.inl rfl
      · rw [store]
        exact Or.inr ⟨k, y, rfl, writesSlot_of_dueStore ((again _ _).mp markedAgain)
          (extend.mem_code inside)⟩
    · rw [movesAt_of_unmarked _ (unmarked_again known due stale again marked store), store]
      exact Or.inr ⟨j, x, rfl, writesSlot_of_dueStore ((due _ _).mp marked) inside⟩

end Rounds

/-! ## The result of a placement -/

namespace Body

def makes (s t : Body) (i : InsnId) : Bool :=
  decide (s.insns.size ≤ i) && decide (i < t.insns.size)

def madeIn (s t : Body) : List Insn := t.insns.toList.drop s.insns.size

theorem makes_self (s : Body) (i : InsnId) : s.makes s i = false := by
  unfold makes
  rw [Bool.and_eq_false_iff, decide_eq_false_iff_not, decide_eq_false_iff_not]
  exact (Nat.lt_or_ge i s.insns.size).imp Nat.not_le_of_lt Nat.not_lt_of_le

end Body

/-- The made instructions manage frames, and `stats` counts them by kind. -/
structure Stats.Counts (stats : Stats) (made : List Insn) : Prop where
  frame : ∀ insn ∈ made, insn.isFrameInsn = true
  allocs : made.countP Insn.isAlloc = stats.allocs
  stores : made.countP Insn.isStore = stats.stores
  loads : made.countP Insn.isLoad = stats.loads

namespace Stats.Counts

variable {stats other : Stats} {made more : List Insn}

theorem append (first : stats.Counts made) (second : other.Counts more) :
    (stats + other).Counts (made ++ more) where
  frame insn member := by
    rcases List.mem_append.mp member with inside | inside
    · exact first.frame insn inside
    · exact second.frame insn inside
  allocs := by rw [List.countP_append, first.allocs, second.allocs]; rfl
  stores := by rw [List.countP_append, first.stores, second.stores]; rfl
  loads := by rw [List.countP_append, first.loads, second.loads]; rfl

theorem of_allocs (n : Nat) : ({ allocs := n } : Stats).Counts (List.replicate n .allocFrame) where
  frame insn member := by rw [List.eq_of_mem_replicate member]; rfl
  allocs := by rw [List.countP_replicate]; rfl
  stores := by rw [List.countP_replicate]; rfl
  loads := by rw [List.countP_replicate]; rfl

theorem of_moves {first loads second : List Mark}
    (counts : stats.CountsMoves (first.length + second.length) loads.length) :
    stats.Counts (first.map (fun mark => .storeFrame mark.2) ++
      loads.map (fun mark => .loadFrame mark.2) ++ second.map fun mark => .storeFrame mark.2) := by
  have count : ∀ (p : Insn → Bool) (store load : Bool), (∀ v, p (.storeFrame v) = store) →
      (∀ v, p (.loadFrame v) = load) →
      List.countP p (first.map (fun mark => .storeFrame mark.2) ++
        loads.map (fun mark => .loadFrame mark.2) ++ second.map fun mark => .storeFrame mark.2) =
        (if store then first.length + second.length else 0) +
          if load then loads.length else 0 := by
    intro p store load onStore onLoad
    have stores : ∀ marks : List Mark, (marks.map fun mark => Insn.storeFrame mark.2).countP p =
        if store then marks.length else 0 := by
      intro marks
      rw [List.countP_map, show p ∘ (fun mark : Mark => Insn.storeFrame mark.2) = fun _ => store
        from funext fun mark => onStore mark.2]
      cases store <;> simp
    have moved : (loads.map fun mark => Insn.loadFrame mark.2).countP p =
        if load then loads.length else 0 := by
      rw [List.countP_map, show p ∘ (fun mark : Mark => Insn.loadFrame mark.2) = fun _ => load
        from funext fun mark => onLoad mark.2]
      cases load <;> simp
    rw [List.countP_append, List.countP_append, stores, stores, moved]
    cases store <;> cases load <;> simp
    omega
  rw [counts]
  refine
    { frame := fun insn member => ?_
      allocs := count _ false false (fun _ => rfl) fun _ => rfl
      stores := count _ true false (fun _ => rfl) fun _ => rfl
      loads := (count _ false true (fun _ => rfl) fun _ => rfl).trans (Nat.zero_add _) }
  simp only [List.mem_append, List.mem_map] at member
  rcases member with (⟨_, _, rfl⟩ | ⟨_, _, rfl⟩) | ⟨_, _, rfl⟩ <;> rfl

end Stats.Counts

namespace Body

/-- `t` is `s` with the new frame instructions that `stats` counts, and nothing else. -/
structure Inserts (s t : Body) (stats : Stats) : Prop where
  same : t = { s with layout := t.layout, insns := t.insns }
  blocks : t.layout.blocks = s.layout.blocks
  /-- Without the new instructions every block is as it was. -/
  rows : ∀ b, ((t.layout.insns b).filter fun i => !s.makes t i) = s.layout.insns b
  old : ∀ i, i < s.insns.size → t.insn? i = s.insn? i
  once : ∀ i, s.makes t i = true → t.layout.allInsns.count i = 1
  counts : stats.Counts (s.madeIn t)
  storesFollow : s.StoresFollowWrites t
  loadsPrecede : s.LoadsPrecedeReads t
  allocsOpen : s.AllocsOpen t

section Placed

variable {s t : Body} {captures : Captures} {stats : Stats}

theorem map_fst_code_of_known (known : s.insnsKnown = true) (b : BlockId) :
    (s.code b).map Prod.fst = s.layout.insns b := by
  rw [map_fst_code]
  refine List.filter_eq_self.mpr fun i member => ?_
  have below := insnsKnown_iff.mp known i (Layout.mem_allInsns_iff.mpr ⟨b, member⟩)
  unfold insn?
  rw [Array.getElem?_eq_getElem below]
  rfl

theorem candidate_of_dueStore {w : InsnId} {v : VarId} (due : (s.effects captures).DueStore t w v) :
    v ∈ (s.effects captures).candidates := by
  obtain ⟨_, _, _, _, _, _, _, _, observes⟩ := due
  exact observes.candidate

theorem candidate_of_staleRead (extend : s.Extends t) {r : InsnId} {v : VarId}
    (stale : (s.effects captures).StaleRead t r v) : v ∈ (s.effects captures).candidates := by
  obtain ⟨_, _, _, _, _, _, _, arises⟩ := stale
  exact candidate_of_mayBeStale (extend.mayBeStale arises)

theorem mem_madeIn {b : BlockId} {entry : InsnId × Insn} (member : entry ∈ t.code b)
    (new : s.owns entry = false) : entry.2 ∈ s.madeIn t := by
  obtain ⟨i, insn⟩ := entry
  have read : t.insns[i]? = some insn := (mem_code_iff.mp member).2
  have above : s.insns.size ≤ i := Nat.le_of_not_lt (of_decide_eq_false new)
  have found : (s.madeIn t)[i - s.insns.size]? = some insn := by
    unfold madeIn
    rw [List.getElem?_drop, Nat.add_sub_of_le above, Array.getElem?_toList]
    exact read
  exact List.mem_of_getElem? found

theorem Grown.madeIn_eq {made : List Insn} (grown : s.Grown t made) : s.madeIn t = made := by
  unfold madeIn
  rw [grown.arena, ← Array.length_toList, List.drop_left]

theorem Extends.rows (extend : s.Extends t) (known : s.insnsKnown = true)
    (stillKnown : t.insnsKnown = true) (b : BlockId) :
    ((t.layout.insns b).filter fun i => !s.makes t i) = s.layout.insns b := by
  rw [← map_fst_code_of_known known, ← map_fst_code_of_known stillKnown, ← extend.code,
    List.filter_map]
  congr 1
  refine List.filter_congr fun entry member => ?_
  have below : entry.1 < t.insns.size := lt_size_of_mem_code member
  change (!s.makes t entry.1) = s.owns entry
  unfold makes owns
  rw [decide_eq_true below, Bool.and_true, ← decide_not]
  exact decide_eq_decide.mpr Nat.not_le

theorem allocated_opens (known : s.insnsKnown = true) (e : Effects) :
    s.Grown (s.allocated e).2.renumbered (List.replicate (s.allocated e).1 .allocFrame) ∧
      ∀ b, (s.allocated e).2.renumbered.code b = s.code b ∨
        s.layout.entry? = some b ∧
          ∃ i, (s.allocated e).2.renumbered.code b = (i, .allocFrame) :: s.code b := by
  have unchanged : s.Grown s.renumbered [] :=
    { arena := (Grown.refl s).arena, once := (Grown.refl s).once }
  unfold allocated
  split
  · unfold insertAlloc
    split
    · next top first =>
        split
        · exact ⟨unchanged, fun b => Or.inl rfl⟩
        · have listed : top ∈ s.layout.blocks := List.mem_of_head? first
          have grown := Grown.prepend known .allocFrame listed
          refine ⟨{ arena := grown.arena, once := grown.once }, fun b => ?_⟩
          have code : (s.prepend .allocFrame top).renumbered.code b = _ :=
            code_prepend known .allocFrame top b listed
          dsimp only
          rw [code]
          split
          · next same => exact Or.inr ⟨same ▸ first, _, rfl⟩
          · exact Or.inl rfl
    · exact ⟨unchanged, fun b => Or.inl rfl⟩
  · exact ⟨unchanged, fun b => Or.inl rfl⟩

theorem insertMoves_places (known : s.insnsKnown = true)
    (moved : s.insertMoves (s.effects captures) s.flowGraph = .ok (t, stats)) :
    ∃ before behind made, s.Woven t before behind ∧ s.LoadsAhead before ∧ s.StoreBehind behind ∧
      s.Grown t made ∧ stats.Counts made ∧
      ∀ insn ∈ made, ∀ v, insn.movedVar? = some v → v ∈ (s.effects captures).candidates := by
  obtain ⟨first, loads, second, rfl, due, stale, again, ascending, ascendingAgain, counts, _⟩ :=
    insertMoves_phases known moved
  obtain ⟨_, woven⟩ := woven_threeRounds known due stale again
  obtain ⟨ahead, after⟩ := woven_rounds known due stale again ascending ascendingAgain
  refine ⟨_, _, _, woven, ahead, after, grown_rounds known due stale again,
    Stats.Counts.of_moves counts, fun insn member v moves => ?_⟩
  obtain ⟨stored, storedKnown, _⟩ := withStores_settles known due
  obtain ⟨loaded, _, _⟩ := withLoads_settles storedKnown stale
  rcases List.mem_append.mp member with member | late
  · rcases List.mem_append.mp member with early | load
    · obtain ⟨mark, marked, rfl⟩ := List.mem_map.mp early
      cases moves
      exact candidate_of_dueStore ((due _ _).mp marked)
    · obtain ⟨mark, marked, rfl⟩ := List.mem_map.mp load
      cases moves
      exact candidate_of_staleRead stored ((stale _ _).mp marked)
  · obtain ⟨mark, marked, rfl⟩ := List.mem_map.mp late
    cases moves
    exact candidate_of_dueStore ((again _ _).mp marked)

/-- An instruction stands in a block that may have got an allocation on top as it stood before,
unless it is this allocation. -/
theorem split_below_alloc {code wider above rest : Code} {entry : InsnId × Insn}
    (either : wider = code ∨ ∃ i, wider = (i, .allocFrame) :: code)
    (split : wider = above ++ entry :: rest) :
    (∃ top front, code = front ++ entry :: rest ∧ above = top ++ front) ∨
      above = [] ∧ entry.2 = .allocFrame := by
  rcases either with same | ⟨i, same⟩
  · exact Or.inl ⟨[], above, same.symm.trans split, rfl⟩
  · rw [same] at split
    cases above with
    | nil =>
        cases split
        exact Or.inr ⟨rfl, rfl⟩
    | cons top front =>
        cases split
        exact Or.inl ⟨[_], front, rfl, rfl⟩

theorem candidate_of_madeIn (known : s.insnsKnown = true)
    (placed : s.insertFrameInsns (s.effects captures) s.flowGraph = .ok (t, stats)) {insn : Insn}
    (member : insn ∈ s.madeIn t) {v : VarId} (moves : insn.movedVar? = some v) :
    v ∈ (s.effects captures).candidates := by
  obtain ⟨moved, done, moving, rfl, rfl⟩ := insertFrameInsns_eq_ok placed
  obtain ⟨_, movedKnown, _, _⟩ := insertMoves_settled known moving
  obtain ⟨_, _, made, _, _, _, grown, _, candidates⟩ := insertMoves_places known moving
  obtain ⟨alloc, _⟩ := allocated_opens movedKnown (s.effects captures)
  rw [(grown.trans alloc).madeIn_eq] at member
  rcases List.mem_append.mp member with move | allocates
  · exact candidates insn move v moves
  · rw [List.eq_of_mem_replicate allocates] at moves
    cases moves

theorem Inserts.refl (s : Body) : s.Inserts s {} := by
  have none : s.madeIn s = [] := by
    unfold madeIn
    rw [← Array.length_toList, List.drop_length]
  have own : ∀ {b entry above rest}, s.code b = above ++ entry :: rest → s.owns entry = true := by
    intro b entry above rest code
    have member : entry ∈ s.code b := Body.mem_code_of_split code
    exact decide_eq_true (lt_size_of_mem_code member)
  refine
    { same := rfl
      blocks := rfl
      rows := fun b => List.filter_eq_self.mpr fun i _ => by rw [s.makes_self]; rfl
      old := fun _ _ => rfl
      once := fun i new => by rw [s.makes_self] at new; cases new
      counts := none ▸ Stats.Counts.of_allocs 0
      storesFollow := fun b above rest j v code new => ?_
      loadsPrecede := fun b above rest j v code new => ?_
      allocsOpen := fun b above rest j code new => ?_ }
  all_goals
    rw [own code] at new
    cases new

/-- A successful placement inserts the instructions that it counts, and nothing else. -/
theorem insertFrameInsns_inserts (known : s.insnsKnown = true)
    (placed : s.insertFrameInsns (s.effects captures) s.flowGraph = .ok (t, stats)) :
    s.Inserts t stats := by
  obtain ⟨extend, stillKnown, _, _⟩ := insertFrameInsns_settled known placed
  obtain ⟨moved, done, moves, rfl, rfl⟩ := insertFrameInsns_eq_ok placed
  obtain ⟨_, movedKnown, _, _⟩ := insertMoves_settled known moves
  obtain ⟨before, behind, made, woven, ahead, after, grown, counts, _⟩ :=
    insertMoves_places known moves
  obtain ⟨alloc, opens⟩ := allocated_opens movedKnown (s.effects captures)
  have below : ∀ {b above rest entry},
      (moved.allocated (s.effects captures)).2.renumbered.code b = above ++ entry :: rest →
      (∃ top front, moved.code b = front ++ entry :: rest ∧ above = top ++ front) ∨
        above = [] ∧ entry.2 = .allocFrame := fun {b _ _ _} code =>
    split_below_alloc ((opens b).imp_right And.right) code
  have all := grown.trans alloc
  refine
    { same := extend.same
      blocks := extend.blocks
      rows := extend.rows known stillKnown
      old := fun i => all.insn?_eq
      once := fun i new => ?_
      counts := all.madeIn_eq ▸ counts.append (Stats.Counts.of_allocs _)
      storesFollow := ?_
      loadsPrecede := ?_
      allocsOpen := ?_ }
  · unfold makes at new
    rw [Bool.and_eq_true, decide_eq_true_eq, decide_eq_true_eq] at new
    exact all.count_eq_one new.1 new.2
  · intro b above rest j v code new
    rcases below code with ⟨top, front, inside, rfl⟩ | ⟨_, alloc⟩
    · obtain ⟨more, write, rfl, own, writes⟩ :=
        woven.storesFollowWrites ahead after b front rest j v inside new
      exact ⟨top ++ more, write, (List.append_assoc _ _ _).symm, own, writes⟩
    · cases alloc
  · intro b above rest j v code new
    rcases below code with ⟨top, front, inside, rfl⟩ | ⟨_, alloc⟩
    · exact woven.loadsPrecedeReads ahead after b front rest j v inside new
    · cases alloc
  · intro b above rest j code new
    have absent : ∀ front back, moved.code b ≠ front ++ (j, .allocFrame) :: back := by
      intro front back inside
      have member : (j, Insn.allocFrame) ∈ moved.code b := Body.mem_code_of_split inside
      cases woven.isAlloc_eq_false ahead after member new
    rcases opens b with same | ⟨first, _⟩
    · exact absurd (same.symm.trans code) (absent above rest)
    · obtain ⟨more, _, _⟩ := allocated_extends movedKnown (s.effects captures)
      refine ⟨by rw [← first]; unfold Layout.entry?; rw [more.blocks], ?_⟩
      rcases below code with ⟨_, front, inside, _⟩ | ⟨opening, _⟩
      · exact absurd inside (absent front rest)
      · exact opening

end Placed

end Body

/-! ## A run over one scope -/

/-- What a successful run that has not given the scope up has done. -/
theorem Body.place_of_kept {s t : Body} {config : Config} {captures : Captures} {stats : Stats}
    (run : s.run config captures = (t, .ok stats)) (kept : stats.fallbacks = 0) :
    t = s ∧ stats = {} ∨ s.isExempt = false ∧ s.place config.verify captures = .ok (t, stats) := by
  unfold Body.run at run
  split at run
  · cases run
    exact Or.inl ⟨rfl, rfl⟩
  · next proper =>
      split at run
      · next placed =>
          cases run
          exact Or.inr ⟨Bool.eq_false_of_not_eq_true proper, placed⟩
      · split at run
        · cases run
        · cases run
          cases kept

namespace Scope

variable {config : Config} {s t : Scope} {stats : Stats}

theorem closures_of_checked {result : Except PlacementError Stats}
    (done : Checked.runAlone config s = .ok (t, result)) : t.closures = s.closures := by
  unfold Checked.runAlone Fault.guarded at done
  split at done
  · have placed : (s.runAlone config).1 = t := congrArg Prod.fst (Except.ok.inj done)
    rw [← placed]
    rfl
  · cases done

theorem freeAccesses_of_extends {body placed : Body} (closures : List Scope)
    (extend : body.Extends placed) :
    (node placed closures).freeAccesses = (node body closures).freeAccesses := by
  rw [freeAccesses, freeAccesses, extend.ownAccesses]

theorem effects_of_extends {body placed : Body} (closures : List Scope)
    (extend : body.Extends placed) :
    (node placed closures).effects = (node body closures).effects := by
  have captures : (node placed closures).captures = (node body closures).captures :=
    captures_of_vars extend.vars
  unfold Scope.effects
  rw [captures]
  exact extend.effects _

/-- A run over one scope that succeeds without giving the scope up only inserts.  The blocks keep
their order and every old instruction its data; without the new instructions every block is as it
was; each new instruction stands in one place and is counted: a store right behind an old write of
its variable, a load before an old read of its variable, up to other new loads, and an allocation on
top of the entry block.  Nothing else of the scope changes, and the graph, the captures, the
accesses that the enclosing scopes see and the effects come out as they did before. -/
theorem runAlone_inserts (done : Checked.runAlone config s = .ok (t, .ok stats))
    (kept : stats.fallbacks = 0) :
    s.body.Inserts t.body stats ∧ t.closures = s.closures ∧
      t.body.flowGraph = s.body.flowGraph ∧ t.captures = s.captures ∧
      t.freeAccesses = s.freeAccesses ∧ t.effects = s.effects := by
  obtain ⟨safe, run⟩ := run_of_checked done
  have closures := closures_of_checked done
  obtain ⟨body, nested⟩ := s
  obtain ⟨placed, others⟩ := t
  have same : others = nested := closures
  subst same
  rcases Body.place_of_kept run kept with ⟨unchanged, rfl⟩ | ⟨proper, place⟩
  · have same : placed = body := unchanged
    subst same
    exact ⟨Body.Inserts.refl placed, rfl, rfl, rfl, rfl, rfl⟩
  · have known := insnsKnown_of_runAloneDangles proper safe
    obtain ⟨frame, _⟩ := Body.place_eq_ok place
    obtain ⟨extend, _, _, _⟩ := Body.insertFrameInsns_settled known frame
    exact ⟨Body.insertFrameInsns_inserts known frame, rfl, extend.flowGraph,
      captures_of_vars extend.vars, freeAccesses_of_extends others extend,
      effects_of_extends others extend⟩

end Scope

theorem runAlone_inserts_totalling :
    ∃ t stats, Checked.runAlone .strict totalling = .ok (t, .ok stats) ∧ stats.fallbacks = 0 ∧
      stats.allocs = 1 ∧ stats.stores = 1 ∧ stats.loads = 1 ∧
      totalling.body.Inserts t.body stats ∧ t.closures = totalling.closures ∧
      t.body.flowGraph = totalling.body.flowGraph ∧ t.captures = totalling.captures ∧
      t.freeAccesses = totalling.freeAccesses ∧ t.effects = totalling.effects := by
  have placed : (match Checked.runAlone .strict totalling with
      | .ok (_, .ok stats) =>
          decide (stats.fallbacks = 0 ∧ stats.allocs = 1 ∧ stats.stores = 1 ∧ stats.loads = 1)
      | _ => false) = true := by decide
  split at placed
  · next t stats done =>
      obtain ⟨kept, allocs, stores, loads⟩ := of_decide_eq_true placed
      exact ⟨t, stats, done, kept, allocs, stores, loads, Scope.runAlone_inserts done kept⟩
  · cases placed

end FramePlacement
