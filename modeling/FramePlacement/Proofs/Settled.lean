import FramePlacement.Proofs.InsertionPoints
/-!
# The placement leaves nothing due

After the stores, the loads and the stores for the loads have been inserted, no read of the scope is
stale and no write is due a store (`Body.insertMoves_settled`).  A phase settles what it places and
the next one does not undo it: frame instructions take paths away and open none, and only a load
adds an observation, which is why stores are placed once more after loads.
-/

set_option autoImplicit false

namespace FramePlacement

/-! ## What an extension cannot bring up -/

section Extension

variable {s t : Body} {e : Effects} {v : VarId}

theorem Body.Extends.owns_of_plain (extend : s.Extends t) {b : BlockId} {above rest : Code}
    {entry : InsnId × Insn} (code : t.code b = above ++ entry :: rest)
    (plain : entry.2.isFrameInsn = false) : s.owns entry = true := by
  cases own : s.owns entry with
  | true => rfl
  | false =>
      have member : entry ∈ t.code b := Body.mem_code_of_split code
      rw [extend.fresh b entry member own] at plain
      cases plain

theorem Body.Extends.split (extend : s.Extends t) {b : BlockId} {above rest : Code}
    {entry : InsnId × Insn} (code : t.code b = above ++ entry :: rest)
    (own : s.owns entry = true) :
    s.code b = above.filter s.owns ++ entry :: rest.filter s.owns := by
  rw [← extend.code, code, List.filter_append, List.filter_cons_of_pos own]

theorem Body.Extends.nextBlock? (extend : s.Extends t) (b : BlockId) :
    t.layout.nextBlock? b = s.layout.nextBlock? b := by
  unfold Layout.nextBlock?
  rw [extend.blocks]

theorem Body.Extends.mayBeStale (extend : s.Extends t) {point : Point}
    (stale : e.MayBeStale t v point) : e.MayBeStale s v (s.shadow point) := by
  refine extend.arises ?_ stale
  -- frame instructions run no nested code
  intro passage entry frame starts
  have call := starts.isCall
  rw [Insn.isCall_of_frame frame] at call
  cases call

theorem staleRead_of_extends (extend : s.Extends t) {r : InsnId} (stale : e.StaleRead t r v) :
    e.StaleRead s r v := by
  obtain ⟨b, above, insn, rest, code, plain, used, arises⟩ := stale
  have own := extend.owns_of_plain code plain
  have shown := extend.mayBeStale arises
  unfold Body.shadow at shown
  rw [List.filter_cons_of_pos own] at shown
  exact ⟨b, _, insn, _, extend.split code own, plain, used, shown⟩

theorem plain_of_isCall {insn : Insn} (call : insn.isCall = true) :
    insn.isFrameInsn = false := by
  cases insn with
  | call _ _ _ _ _ => rfl
  | _ => cases call

theorem observes_or_load_of_extends (extend : s.Extends t) {point : Point}
    (inside : ∃ above, t.code point.block = above ++ point.rest)
    (observes : e.Observes t v point) : e.Observes s v (s.shadow point) ∨
      ∃ b i rest, point = ⟨b, (i, .loadFrame v) :: rest⟩ ∧ s.owns (i, .loadFrame v) = false := by
  have keep : ∀ {b} {entry : InsnId × Insn} {rest : Code}, s.owns entry = true →
      s.shadow ⟨b, entry :: rest⟩ = ⟨b, entry :: rest.filter s.owns⟩ := by
    intro b entry rest own
    unfold Body.shadow
    rw [List.filter_cons_of_pos own]
  cases observes with
  | @load b i rest candidate =>
      cases own : s.owns (i, .loadFrame v) with
      | true =>
          rw [keep own]
          exact Or.inl (Effects.Observes.load candidate)
      | false => exact Or.inr ⟨b, i, rest, rfl, own⟩
  | call isCall observed =>
      obtain ⟨above, code⟩ := inside
      rw [keep (extend.owns_of_plain code (plain_of_isCall isCall))]
      exact Or.inl (Effects.Observes.call isCall observed)
  | leavingCall isCall unhandled leaving =>
      obtain ⟨above, code⟩ := inside
      rw [keep (extend.owns_of_plain code (plain_of_isCall isCall))]
      rw [extend.handler?] at unhandled
      exact Or.inl (Effects.Observes.leavingCall isCall unhandled leaving)
  | ret leaving =>
      obtain ⟨above, code⟩ := inside
      rw [keep (extend.owns_of_plain code rfl)]
      exact Or.inl (Effects.Observes.ret leaving)
  | leavingRaise unhandled leaving =>
      obtain ⟨above, code⟩ := inside
      rw [keep (extend.owns_of_plain code rfl)]
      rw [extend.handler?] at unhandled
      exact Or.inl (Effects.Observes.leavingRaise unhandled leaving)
  | bottom listed ends last leaving =>
      rw [extend.blocks] at listed
      rw [extend.terminator] at ends
      rw [extend.nextBlock?] at last
      exact Or.inl (Effects.Observes.bottom listed ends last leaving)

theorem plain_of_writesSlot {insn : Insn} (writes : insn.writesSlot v = true) :
    insn.isFrameInsn = false ∧ insn.isTerminator = false := by
  unfold Insn.writesSlot at writes
  rw [Bool.and_eq_true, Bool.not_eq_true', beq_iff_eq] at writes
  refine ⟨writes.1, ?_⟩
  cases insn with
  | jump _ | branch _ _ _ | ret _ | raise _ => cases writes.2
  | _ => rfl

/-- A write that is due a store in an extension is due one in the scope, or a new load observes
it. -/
theorem dueStore_or_load_of_extends (extend : s.Extends t) {w : InsnId}
    (due : e.DueStore t w v) : e.DueStore s w v ∨
      ∃ b above insn rest c i below, s.code b = above ++ (w, insn) :: rest ∧
        insn.writesSlot v = true ∧ (∃ front, t.code c = front ++ (i, .loadFrame v) :: below) ∧
        s.owns (i, .loadFrame v) = false ∧
        Leads s (e.StaysUnsynced v) ⟨b, rest⟩ ⟨c, below.filter s.owns⟩ := by
  obtain ⟨b, above, insn, rest, point, code, writes, leads, observes⟩ := due
  have own := extend.owns_of_plain code (plain_of_writesSlot writes).1
  have inside : ∃ above, t.code b = above ++ rest :=
    ⟨above ++ [(w, insn)], code.trans (List.append_cons _ _ _)⟩
  have split := extend.split code own
  have shown := extend.leads inside leads
  have there := suffix_of_leads inside leads
  rcases observes_or_load_of_extends extend there observes with seen | ⟨c, i, below, rfl, new⟩
  · exact Or.inl ⟨b, _, insn, _, _, split, writes, shown, seen⟩
  · unfold Body.shadow at shown
    rw [List.filter_cons_of_neg (by simp [new])] at shown
    exact Or.inr ⟨b, _, insn, _, c, i, below, split, writes, there, new, shown⟩

theorem dueStore_of_extends (extend : s.Extends t)
    (noLoads : ∀ b, ∀ entry ∈ t.code b, s.owns entry = false → entry.2.isLoad = false)
    {w : InsnId} (due : e.DueStore t w v) : e.DueStore s w v := by
  rcases dueStore_or_load_of_extends extend due with
    shown | ⟨_, _, _, _, c, i, _, _, _, ⟨_, code⟩, new, _⟩
  · exact shown
  · have member : (i, Insn.loadFrame v) ∈ t.code c := Body.mem_code_of_split code
    cases noLoads c _ member new

end Extension

/-! ## The phases of a placement -/

section Phases

variable {s : Body} {e : Effects} {v : VarId}

theorem lt_size_of_dueStore {w : InsnId} (due : e.DueStore s w v) :
    w < s.insns.size := by
  obtain ⟨b, above, insn, rest, _, code, _, _, _⟩ := due
  have member : (w, insn) ∈ s.code b := Body.mem_code_of_split code
  exact Body.lt_size_of_mem_code member

theorem lt_size_of_staleRead {r : InsnId} (stale : e.StaleRead s r v) :
    r < s.insns.size := by
  obtain ⟨b, above, insn, rest, code, _, _, _⟩ := stale
  have member : (r, insn) ∈ s.code b := Body.mem_code_of_split code
  exact Body.lt_size_of_mem_code member

theorem withStores_woven (known : s.insnsKnown = true) {marks : List Mark}
    (due : ∀ w v, (w, v) ∈ marks ↔ e.DueStore s w v) :
    ∃ behind, s.Woven (s.withStores marks) (fun _ => []) behind ∧
      (∀ w v, (w, v) ∈ marks → ∃ j, (j, Insn.storeFrame v) ∈ behind w) ∧
      ∀ w, ∀ entry ∈ behind w, ∃ v, entry.2 = .storeFrame v ∧ (w, v) ∈ marks :=
  Body.woven_insertBeside known .behind (fun _ => rfl)
    fun mark member => lt_size_of_dueStore ((due mark.1 mark.2).mp member)

theorem writesSlot_of_dueStore {b : BlockId} {entry : InsnId × Insn}
    (due : e.DueStore s entry.1 v) (member : entry ∈ s.code b) :
    entry.2.writesSlot v = true := by
  obtain ⟨c, above, insn, rest, _, code, writes, _, _⟩ := due
  rw [Body.insn_unique member (Body.mem_code_of_split code)]
  exact writes

theorem withStores_settles (known : s.insnsKnown = true) {marks : List Mark}
    (due : ∀ w v, (w, v) ∈ marks ↔ e.DueStore s w v) :
    s.Extends (s.withStores marks) ∧ (s.withStores marks).insnsKnown = true ∧
      ∀ w v, ¬ e.DueStore (s.withStores marks) w v := by
  obtain ⟨behind, woven, stored, only⟩ := withStores_woven known due
  have extend : s.Extends (s.withStores marks) := by
    refine woven.toExtends fun b entry member ends => ?_
    refine List.eq_nil_iff_forall_not_mem.mpr fun other among => ?_
    obtain ⟨x, _, marked⟩ := only entry.1 other among
    have writes := writesSlot_of_dueStore ((due _ _).mp marked) member
    rw [(plain_of_writesSlot writes).2] at ends
    cases ends
  have noLoads : ∀ b, ∀ entry ∈ (s.withStores marks).code b, s.owns entry = false →
      entry.2.isLoad = false := by
    intro b entry member foreign
    rw [woven.code] at member
    obtain ⟨other, among, here⟩ := List.mem_flatMap.mp member
    rcases List.mem_cons.mp (here : entry ∈ other :: behind other.1) with rfl | later
    · have own : s.owns entry = true := decide_eq_true (Body.lt_size_of_mem_code among)
      rw [own] at foreign
      cases foreign
    · obtain ⟨x, store, _⟩ := only other.1 entry later
      rw [store]
      rfl
  refine ⟨extend, woven.known, fun w v later => ?_⟩
  have first := dueStore_of_extends extend noLoads later
  have stores : ∀ entry ∈ behind w, entry.2.isStore = true := by
    intro entry member
    obtain ⟨x, store, _⟩ := only w entry member
    rw [store]
    rfl
  exact not_dueStore_of_behind woven stores (stored w v ((due w v).mpr first))
    (lt_size_of_dueStore first) later

theorem withLoads_woven (known : s.insnsKnown = true) {marks : List Mark}
    (due : ∀ r v, (r, v) ∈ marks ↔ e.StaleRead s r v) :
    ∃ before, s.Woven (s.withLoads marks) before (fun _ => []) ∧
      (∀ r v, (r, v) ∈ marks → ∃ j, (j, Insn.loadFrame v) ∈ before r) ∧
      ∀ r, ∀ entry ∈ before r, ∃ v, entry.2 = .loadFrame v ∧ (r, v) ∈ marks :=
  Body.woven_insertBeside known .before (fun _ => rfl)
    fun mark member => lt_size_of_staleRead ((due mark.1 mark.2).mp member)

theorem withLoads_settles (known : s.insnsKnown = true) {marks : List Mark}
    (due : ∀ r v, (r, v) ∈ marks ↔ e.StaleRead s r v) :
    s.Extends (s.withLoads marks) ∧ (s.withLoads marks).insnsKnown = true ∧
      ∀ r v, ¬ e.StaleRead (s.withLoads marks) r v := by
  obtain ⟨before, woven, loaded, only⟩ := withLoads_woven known due
  have extend : s.Extends (s.withLoads marks) := woven.toExtends fun _ _ _ _ => rfl
  refine ⟨extend, woven.known, fun r v later => ?_⟩
  have first := staleRead_of_extends extend later
  have loads : ∀ entry ∈ before r, entry.2.isLoad = true := by
    intro entry member
    obtain ⟨x, load, _⟩ := only r entry member
    rw [load]
    rfl
  exact not_staleRead_of_before woven loads (loaded r v ((due r v).mpr first))
    (lt_size_of_staleRead first) later

theorem extends_prepend_alloc (known : s.insnsKnown = true) {top : BlockId}
    (listed : top ∈ s.layout.blocks) : s.Extends (s.prepend .allocFrame top) where
  same := rfl
  blocks := s.layout.blocks_prependInsn _ _
  code b := by
    have own : s.owns (s.insns.size, .allocFrame) = false := decide_eq_false (Nat.lt_irrefl _)
    have rest := (Body.Extends.refl s).code b
    rw [Body.code_prepend known _ _ _ listed]
    split
    · rw [List.filter_cons_of_neg (by simp [own]), rest]
    · exact rest
  fresh b entry member foreign := by
    have old : entry ∈ s.code b → entry.2.isFrameInsn = true := by
      intro inside
      have own : s.owns entry = true := decide_eq_true (Body.lt_size_of_mem_code inside)
      rw [own] at foreign
      cases foreign
    rw [Body.code_prepend known _ _ _ listed] at member
    split at member
    · rcases List.mem_cons.mp member with rfl | inside
      · rfl
      · exact old inside
    · exact old member
  terminator b := by
    unfold Body.terminator? Body.lastInsn?
    rw [Body.code_prepend known _ _ _ listed]
    split
    · cases s.code b with
      | nil => rfl
      | cons first rest => rw [List.getLast?_cons_cons]
    · rfl
  grows := by
    change s.insns.size ≤ (s.insns.push _).size
    rw [Array.size_push]
    exact Nat.le_succ _

theorem insertAlloc_extends (known : s.insnsKnown = true) :
    s.Extends s.insertAlloc.2 ∧ s.insertAlloc.2.insnsKnown = true ∧
      ∀ b, ∀ entry ∈ s.insertAlloc.2.code b, s.owns entry = false → entry.2.isAlloc = true := by
  have old : ∀ b, ∀ entry ∈ s.code b, s.owns entry = false → entry.2.isAlloc = true := by
    intro b entry inside foreign
    have own : s.owns entry = true := decide_eq_true (Body.lt_size_of_mem_code inside)
    rw [own] at foreign
    cases foreign
  unfold Body.insertAlloc
  cases first : s.layout.entry? with
  | none => exact ⟨Body.Extends.refl s, known, old⟩
  | some top =>
      dsimp only
      split
      · exact ⟨Body.Extends.refl s, known, old⟩
      · have listed : top ∈ s.layout.blocks := List.mem_of_head? first
        refine ⟨extends_prepend_alloc known listed,
          Body.insnsKnown_of_added known rfl fun _ => Layout.mem_allInsns_prependInsn, ?_⟩
        intro b entry member foreign
        rw [Body.code_prepend known _ _ _ listed] at member
        split at member
        · rcases List.mem_cons.mp member with rfl | inside
          · rfl
          · exact old b entry inside foreign
        · exact old b entry member foreign

end Phases

/-! ## The whole placement -/

section Whole

variable {s t : Body} {captures : Captures}

theorem placeStores_eq_ok {placement : Placement}
    (placed : (s.effects captures).placeStores s s.flowGraph = .ok placement) :
    ∀ w v, (w, v) ∈ placement.marks ↔ (s.effects captures).DueStore s w v := by
  cases setup : s.checkSetup s.flowGraph with
  | error cause =>
      unfold Effects.placeStores Problem.solve at placed
      rw [setup] at placed
      cases placed
  | ok entry =>
      unfold Effects.placeStores at placed
      rw [Problem.solve_eq_solved setup] at placed
      cases placed
      exact fun w v => mem_dueStores_iff setup

theorem placeLoads_eq_ok {placement : Placement}
    (placed : (s.effects captures).placeLoads s s.flowGraph = .ok placement) :
    ∀ r v, (r, v) ∈ placement.marks ↔ (s.effects captures).StaleRead s r v := by
  cases setup : s.checkSetup s.flowGraph with
  | error cause =>
      unfold Effects.placeLoads Problem.solve at placed
      rw [setup] at placed
      cases placed
  | ok entry =>
      unfold Effects.placeLoads at placed
      rw [Problem.solve_eq_solved setup] at placed
      cases placed
      exact fun r v => mem_dueLoads_iff setup

theorem placeStores_ascending {e : Effects} {g : FlowGraph} {placement : Placement}
    (placed : e.placeStores s g = .ok placement) :
    placement.marks.Pairwise fun a b => a.1 < b.1 := by
  unfold Effects.placeStores at placed
  split at placed
  · cases placed
    exact e.dueStores_ascending s g _
  · cases placed

theorem placeLoads_nodup {e : Effects} {g : FlowGraph} {placement : Placement}
    (placed : e.placeLoads s g = .ok placement) : placement.marks.Nodup := by
  unfold Effects.placeLoads at placed
  split at placed
  · cases placed
    exact s.reads_nodup.sublist (e.dueLoads_sublist s _)
  · cases placed

def Stats.CountsMoves (stats : Stats) (stores loads : Nat) : Prop :=
  stats = { stores := stores, loads := loads, visits := stats.visits }

theorem bind_eq_ok {ε α β : Type} {x : Except ε α} {f : α → Except ε β} {b : β}
    (done : x >>= f = .ok b) : ∃ a, x = .ok a ∧ f a = .ok b := by
  cases x with
  | ok a => exact ⟨a, rfl, done⟩
  | error _ => cases done

theorem bind_setup_eq_ok {α β : Type} {x : Except SetupError α}
    {f : α → Except PlacementError β} {b : β}
    (done : x.mapError PlacementError.setup >>= f = .ok b) : ∃ a, x = .ok a ∧ f a = .ok b := by
  cases x with
  | ok a => exact ⟨a, rfl, done⟩
  | error _ => cases done

theorem Body.insertMoves_eq_ok {e : Effects} {g : FlowGraph} {stats : Stats}
    (moved : s.insertMoves e g = .ok (t, stats)) :
    ∃ first loads, e.placeStores s g = .ok first ∧
      e.placeLoads (s.withStores first.marks) g = .ok loads ∧
      (loads.marks = [] ∧ t = s.withStores first.marks ∧
          stats.CountsMoves first.marks.length loads.marks.length ∨ ∃ second,
        e.placeStores ((s.withStores first.marks).withLoads loads.marks) g = .ok second ∧
        t = ((s.withStores first.marks).withLoads loads.marks).withStores second.marks ∧
        stats.CountsMoves (first.marks.length + second.marks.length) loads.marks.length) := by
  unfold Body.insertMoves at moved
  obtain ⟨first, stores, moved⟩ := bind_setup_eq_ok moved
  obtain ⟨_, inserted, moved⟩ := bind_eq_ok moved
  cases Body.eq_withStores inserted
  obtain ⟨loads, reads, moved⟩ := bind_setup_eq_ok moved
  obtain ⟨_, inserted, moved⟩ := bind_eq_ok moved
  cases Body.eq_withLoads inserted
  refine ⟨first, loads, stores, reads, ?_⟩
  dsimp only at moved
  split at moved
  · next empty =>
      have none : loads.marks = [] := List.isEmpty_iff.mp empty
      rw [none] at moved ⊢
      cases moved
      exact Or.inl ⟨rfl, rfl, rfl⟩
  · obtain ⟨second, again, moved⟩ := bind_setup_eq_ok moved
    obtain ⟨_, inserted, moved⟩ := bind_eq_ok moved
    cases Body.eq_withStores inserted
    cases moved
    exact Or.inr ⟨second, again, rfl, rfl⟩

/-- A placement inserts the stores that are due, then the loads that are due, then the stores that
are due on account of the loads. -/
theorem Body.insertMoves_phases (known : s.insnsKnown = true) {stats : Stats}
    (moved : s.insertMoves (s.effects captures) s.flowGraph = .ok (t, stats)) :
    ∃ first loads second, t = ((s.withStores first).withLoads loads).withStores second ∧
      (∀ w v, (w, v) ∈ first ↔ (s.effects captures).DueStore s w v) ∧
      (∀ r v, (r, v) ∈ loads ↔ (s.effects captures).StaleRead (s.withStores first) r v) ∧
      (∀ w v, (w, v) ∈ second ↔
        (s.effects captures).DueStore ((s.withStores first).withLoads loads) w v) ∧
      (first.Pairwise fun a b => a.1 < b.1) ∧ (second.Pairwise fun a b => a.1 < b.1) ∧
      stats.CountsMoves (first.length + second.length) loads.length ∧ loads.Nodup := by
  obtain ⟨first, loads, stores, reads, rest⟩ := Body.insertMoves_eq_ok moved
  have due := placeStores_eq_ok stores
  have ascending := placeStores_ascending stores
  have distinct := placeLoads_nodup reads
  obtain ⟨stored, storedKnown, settled⟩ := withStores_settles known due
  rw [← stored.effects captures, ← stored.flowGraph] at reads
  have stale := placeLoads_eq_ok reads
  rw [stored.effects captures] at stale
  rcases rest with ⟨none, rfl, counts⟩ | ⟨second, again, rfl, counts⟩
  · -- without loads nothing is due that was not due before
    refine ⟨first.marks, loads.marks, [], ?_, due, stale, fun w v => ?_, ascending,
      List.Pairwise.nil, counts, distinct⟩
    · rw [none]
      rfl
    · rw [none]
      exact ⟨fun marked => absurd marked List.not_mem_nil, fun later => absurd later (settled w v)⟩
  · obtain ⟨loaded, _, _⟩ := withLoads_settles storedKnown stale
    have both := stored.trans loaded
    have ascendingAgain := placeStores_ascending again
    rw [← both.effects captures, ← both.flowGraph] at again
    have more := placeStores_eq_ok again
    rw [both.effects captures] at more
    exact ⟨first.marks, loads.marks, second.marks, rfl, due, stale, more, ascending,
      ascendingAgain, counts, distinct⟩

theorem Body.insertMoves_settled (known : s.insnsKnown = true) {stats : Stats}
    (moved : s.insertMoves (s.effects captures) s.flowGraph = .ok (t, stats)) :
    s.Extends t ∧ t.insnsKnown = true ∧ (∀ r v, ¬ (s.effects captures).StaleRead t r v) ∧
      ∀ w v, ¬ (s.effects captures).DueStore t w v := by
  obtain ⟨first, loads, second, rfl, due, stale, again, _⟩ := Body.insertMoves_phases known moved
  obtain ⟨stored, storedKnown, _⟩ := withStores_settles known due
  obtain ⟨loaded, loadedKnown, noReads⟩ := withLoads_settles storedKnown stale
  obtain ⟨last, lastKnown, noStores⟩ := withStores_settles loadedKnown again
  exact ⟨(stored.trans loaded).trans last, lastKnown,
    fun r v read => noReads r v (staleRead_of_extends last read), noStores⟩

def Body.allocated (s : Body) (e : Effects) : Nat × Body :=
  if e.needsFrame s || s.movesOwnLocals then s.insertAlloc else (0, s)

def Body.renumbered (s : Body) : Body := { s with layout := s.layout.renumber }

theorem Body.insertFrameInsns_eq_ok {e : Effects} {g : FlowGraph} {stats : Stats}
    (placed : s.insertFrameInsns e g = .ok (t, stats)) :
    ∃ moved done, s.insertMoves e g = .ok (moved, done) ∧
      t = (moved.allocated e).2.renumbered ∧
      stats = done + { allocs := (moved.allocated e).1 } := by
  unfold Body.insertFrameInsns at placed
  cases moves : s.insertMoves e g with
  | error cause =>
      rw [moves] at placed
      cases placed
  | ok both =>
      rw [moves] at placed
      cases placed
      exact ⟨both.1, both.2, rfl, rfl, rfl⟩

theorem Body.allocated_extends (known : s.insnsKnown = true) (e : Effects) :
    s.Extends (s.allocated e).2.renumbered ∧ (s.allocated e).2.renumbered.insnsKnown = true ∧
      ∀ b, ∀ entry ∈ (s.allocated e).2.renumbered.code b, s.owns entry = false →
        entry.2.isAlloc = true := by
  have renumbered : ∀ t : Body, t.Extends t.renumbered := fun t =>
    { same := rfl
      blocks := rfl
      code := (Body.Extends.refl t).code
      fresh := (Body.Extends.refl t).fresh
      terminator := fun _ => rfl
      grows := Nat.le_refl _ }
  unfold Body.allocated
  split
  · obtain ⟨extend, allocKnown, allocs⟩ := insertAlloc_extends known
    exact ⟨extend.trans (renumbered _), allocKnown, allocs⟩
  · refine ⟨renumbered s, known, fun b entry inside foreign => ?_⟩
    have own : s.owns entry = true := decide_eq_true (Body.lt_size_of_mem_code (b := b) inside)
    rw [own] at foreign
    cases foreign

theorem Insn.isLoad_of_isAlloc {insn : Insn} (alloc : insn.isAlloc = true) :
    insn.isLoad = false := by
  cases insn with
  | allocFrame => rfl
  | _ => cases alloc

/-- The placement of a scope leaves no stale read and no due store. -/
theorem Body.insertFrameInsns_settled (known : s.insnsKnown = true) {stats : Stats}
    (placed : s.insertFrameInsns (s.effects captures) s.flowGraph = .ok (t, stats)) :
    s.Extends t ∧ t.insnsKnown = true ∧ (∀ r v, ¬ (s.effects captures).StaleRead t r v) ∧
      ∀ w v, ¬ (s.effects captures).DueStore t w v := by
  obtain ⟨moved, done, moves, rfl, _⟩ := Body.insertFrameInsns_eq_ok placed
  obtain ⟨extend, movedKnown, noReads, noStores⟩ := Body.insertMoves_settled known moves
  obtain ⟨more, allocKnown, allocs⟩ := moved.allocated_extends movedKnown (s.effects captures)
  refine ⟨extend.trans more, allocKnown, ?_, ?_⟩
  · exact fun r v stale => noReads r v (staleRead_of_extends more stale)
  · refine fun w v due => noStores w v (dueStore_of_extends more ?_ due)
    exact fun b entry member foreign => Insn.isLoad_of_isAlloc (allocs b entry member foreign)

end Whole

end FramePlacement
