import FramePlacement.Proofs.Settled
/-!
# Paths lifted into a scope with more frame instructions

A scope thins another one when the two have the same graph and the code of the first is what some
test keeps of the code of the second; what it drops are frame instructions (`Body.Thins`).  A path
through the thinner scope is followed in the larger one past the dropped instructions, up to the
first one that the path is not free to pass (`Body.Thins.lift`).

A store of a variable that stands right behind a write of it is never reached in this way by a path
on which the variable stays unsynced or stale, and a load of a variable is itself an observation.
So the demands of the thinner scope come up again in the larger one, unless the dropped instructions
meet them (`dueStore_of_thins`, `staleRead_of_thins`).
-/

set_option autoImplicit false

namespace FramePlacement

/-- `s` is `t` without some frame instructions, those that `keep` refuses. -/
structure Body.Thins (s t : Body) (keep : InsnId × Insn → Bool) : Prop where
  code : ∀ b, (t.code b).filter keep = s.code b
  dropped : ∀ b, ∀ entry ∈ t.code b, keep entry = false → entry.2.isFrameInsn = true
  blocks : t.layout.blocks = s.layout.blocks
  graph : t.flowGraph = s.flowGraph
  handler : ∀ b, t.handler? b = s.handler? b
  terminator : ∀ b, t.terminator? b = s.terminator? b

theorem Body.Extends.thins {s t : Body} (extend : s.Extends t) : s.Thins t s.owns where
  code := extend.code
  dropped := extend.fresh
  blocks := extend.blocks
  graph := extend.flowGraph
  handler := extend.handler?
  terminator := extend.terminator

def Point.thin (keep : InsnId × Insn → Bool) (point : Point) : Point :=
  ⟨point.block, point.rest.filter keep⟩

/-- Control is about to run an instruction that is kept, or has run off the block. -/
def Point.Faces (keep : InsnId × Insn → Bool) (point : Point) : Prop :=
  ∀ entry ∈ point.rest.head?, keep entry = true

/-! ## Following a path -/

section Lift

variable {s t : Body} {keep : InsnId × Insn → Bool} {free : Passing} {start : Point}

theorem Point.Faces.of_thin_nil {b : BlockId} {point : Point} (faces : point.Faces keep)
    (thin : point.thin keep = ⟨b, []⟩) : point = ⟨b, []⟩ := by
  obtain ⟨c, rest⟩ := point
  cases rest with
  | nil =>
      cases thin
      rfl
  | cons first rest =>
      have kept : keep first = true := faces first rfl
      unfold Point.thin at thin
      rw [List.filter_cons_of_pos kept] at thin
      cases thin

theorem Point.Faces.of_thin_cons {b : BlockId} {point : Point} {entry : InsnId × Insn} {rest : Code}
    (faces : point.Faces keep) (thin : point.thin keep = ⟨b, entry :: rest⟩) :
    ∃ below, point = ⟨b, entry :: below⟩ ∧ below.filter keep = rest := by
  obtain ⟨c, code⟩ := point
  cases code with
  | nil => cases thin
  | cons first below =>
      have kept : keep first = true := faces first rfl
      unfold Point.thin at thin
      rw [List.filter_cons_of_pos kept] at thin
      cases thin
      exact ⟨below, rfl, rfl⟩

/-- Some dropped instruction stops a path through the larger scope, on the way to a point of the
thinner one. -/
def Stops (s t : Body) (keep : InsnId × Insn → Bool) (free : Passing) (start point : Point) :
    Prop :=
  ∃ b entry rest, Leads t free start ⟨b, entry :: rest⟩ ∧ keep entry = false ∧
    ¬ free .completes entry ∧ Leads s free (Point.thin keep ⟨b, rest⟩) point

theorem pass_dropped {b : BlockId} (rest : Code) (leads : Leads t free start ⟨b, rest⟩) :
    (∃ point, Leads t free start point ∧ point.thin keep = Point.thin keep ⟨b, rest⟩ ∧
      point.Faces keep) ∨ Stops s t keep free start (Point.thin keep ⟨b, rest⟩) := by
  induction rest with
  | nil => exact Or.inl ⟨_, leads, rfl, fun _ none => absurd none (Option.not_mem_none _)⟩
  | cons first rest ih =>
      cases kept : keep first with
      | true =>
          refine Or.inl ⟨_, leads, rfl, fun entry head => ?_⟩
          rw [← Option.some.inj head]
          exact kept
      | false =>
          have same : Point.thin keep ⟨b, first :: rest⟩ = Point.thin keep ⟨b, rest⟩ := by
            unfold Point.thin
            rw [List.filter_cons_of_neg (by simp [kept])]
          rw [same]
          by_cases passes : free .completes first
          · exact ih (leads.complete passes)
          · exact Or.inr ⟨b, first, rest, leads, kept, passes, Leads.here⟩

theorem Stops.complete {b : BlockId} {entry : InsnId × Insn} {rest : Code}
    (stops : Stops s t keep free start ⟨b, entry :: rest⟩) (passes : free .completes entry) :
    Stops s t keep free start ⟨b, rest⟩ := by
  obtain ⟨c, one, below, leads, dropped, stuck, more⟩ := stops
  exact ⟨c, one, below, leads, dropped, stuck, more.complete passes⟩

namespace Body.Thins

variable (thins : s.Thins t keep)
include thins

theorem thin_code (b : BlockId) : Point.thin keep ⟨b, t.code b⟩ = ⟨b, s.code b⟩ := by
  unfold Point.thin
  rw [thins.code]

/-- A path through the thinner scope is followed to the point it leads to, or a dropped instruction
stops it. -/
theorem lift {point : Point} (leads : Leads s free (start.thin keep) point) :
    (∃ reached, Leads t free start reached ∧ reached.thin keep = point ∧ reached.Faces keep) ∨
      Stops s t keep free start point := by
  induction leads with
  | here => exact pass_dropped start.rest Leads.here
  | @complete b entry rest _ passes ih =>
      rcases ih with ⟨reached, leads, thin, faces⟩ | stops
      · obtain ⟨below, rfl, rfl⟩ := faces.of_thin_cons thin
        exact pass_dropped below (leads.complete passes)
      · exact Or.inr (stops.complete passes)
  | @raise b handler entry rest _ raises target passes ih =>
      rcases ih with ⟨reached, leads, thin, faces⟩ | ⟨c, one, below, leads, dropped, stuck, more⟩
      · obtain ⟨below, rfl, rfl⟩ := faces.of_thin_cons thin
        rw [← thins.graph] at target
        rw [← thins.thin_code]
        exact pass_dropped _ (leads.raise raises target passes)
      · exact Or.inr ⟨c, one, below, leads, dropped, stuck, more.raise raises target passes⟩
  | @edge b c _ target ih =>
      rcases ih with ⟨reached, leads, thin, faces⟩ | ⟨d, one, below, leads, dropped, stuck, more⟩
      · have bottom := faces.of_thin_nil thin
        subst bottom
        rw [← thins.graph] at target
        rw [← thins.thin_code]
        exact pass_dropped _ (leads.edge target)
      · exact Or.inr ⟨d, one, below, leads, dropped, stuck, more.edge target⟩

theorem split {b : BlockId} {above rest : Code} {entry : InsnId × Insn}
    (code : s.code b = above ++ entry :: rest) :
    ∃ front back, t.code b = front ++ entry :: back ∧ keep entry = true ∧
      front.filter keep = above ∧ back.filter keep = rest := by
  rw [← thins.code] at code
  obtain ⟨front, tail, whole, head, later⟩ := List.filter_eq_append_iff.mp code
  obtain ⟨more, back, rfl, dropped, kept, same⟩ := List.filter_eq_cons_iff.mp later
  refine ⟨front ++ more, back, by rw [whole, List.append_assoc], kept, ?_, same⟩
  rw [List.filter_append, head, List.filter_eq_nil_iff.mpr dropped, List.append_nil]

theorem lift_springs {atEntry : Prop} {gen : Passing} {point : Point}
    (springs : Springs s atEntry gen point) :
    ∃ start, Springs t atEntry gen start ∧ start.thin keep = point := by
  cases springs with
  | entry boundary first =>
      have same : t.layout.entry? = s.layout.entry? := by
        unfold Layout.entry?
        rw [thins.blocks]
      exact ⟨_, Springs.entry boundary (same.trans first), thins.thin_code _⟩
  | complete code starts =>
      obtain ⟨front, back, whole, _, _, rfl⟩ := thins.split code
      exact ⟨_, Springs.complete whole starts, rfl⟩
  | raise code raises target starts =>
      obtain ⟨front, back, whole, _, _, _⟩ := thins.split code
      rw [← thins.graph] at target
      exact ⟨_, Springs.raise whole raises target starts, thins.thin_code _⟩

theorem nextBlock? (b : BlockId) : t.layout.nextBlock? b = s.layout.nextBlock? b := by
  unfold Layout.nextBlock?
  rw [thins.blocks]

theorem observes {e : Effects} {v : VarId} {point reached : Point} (faces : reached.Faces keep)
    (thin : reached.thin keep = point) (observes : e.Observes s v point) :
    e.Observes t v reached := by
  cases observes with
  | load candidate =>
      obtain ⟨below, rfl, _⟩ := faces.of_thin_cons thin
      exact Effects.Observes.load candidate
  | call isCall member =>
      obtain ⟨below, rfl, _⟩ := faces.of_thin_cons thin
      exact Effects.Observes.call isCall member
  | leavingCall isCall unhandled member =>
      obtain ⟨below, rfl, _⟩ := faces.of_thin_cons thin
      exact Effects.Observes.leavingCall isCall ((thins.handler _).trans unhandled) member
  | ret member =>
      obtain ⟨below, rfl, _⟩ := faces.of_thin_cons thin
      exact Effects.Observes.ret member
  | leavingRaise unhandled member =>
      obtain ⟨below, rfl, _⟩ := faces.of_thin_cons thin
      exact Effects.Observes.leavingRaise ((thins.handler _).trans unhandled) member
  | bottom listed ends last member =>
      have bottom := faces.of_thin_nil thin
      subst bottom
      exact Effects.Observes.bottom (thins.blocks.symm ▸ listed) ((thins.terminator _).trans ends)
        ((thins.nextBlock? _).trans last) member

end Body.Thins

end Lift

/-! ## The last step of a path -/

section LastStep

variable {t : Body} {free : Passing} {start : Point}

/-- A path that starts before an instruction it can pass in no way, with nothing but frame
instructions between, ends between them. -/
theorem Leads.confined {b : BlockId} {between back : Code} {entry : InsnId × Insn} {point : Point}
    (frames : ∀ one ∈ between, one.2.isFrameInsn = true)
    (stuck : ∀ passage, ¬ free passage entry)
    (leads : Leads t free ⟨b, between ++ entry :: back⟩ point) :
    ∃ left, point = ⟨b, left ++ entry :: back⟩ ∧ ∀ one ∈ left, one.2.isFrameInsn = true := by
  induction leads with
  | here => exact ⟨between, rfl, frames⟩
  | complete _ passes ih =>
      obtain ⟨left, same, all⟩ := ih
      cases left with
      | nil =>
          cases same
          exact absurd passes (stuck _)
      | cons first left =>
          cases same
          exact ⟨left, rfl, fun one member => all one (List.mem_cons_of_mem _ member)⟩
  | raise _ raises _ passes ih =>
      obtain ⟨left, same, all⟩ := ih
      cases left with
      | nil =>
          cases same
          exact absurd passes (stuck _)
      | cons first left =>
          cases same
          rw [Insn.canRaise_of_frame (all _ List.mem_cons_self)] at raises
          cases raises
  | edge _ _ ih =>
      obtain ⟨left, same, _⟩ := ih
      cases left <;> cases same

theorem Leads.back_over_frames {b : BlockId} {above frames rest up : Code}
    {entry : InsnId × Insn} (code : t.code b = above ++ (frames ++ rest))
    (each : ∀ one ∈ frames, one.2.isFrameInsn = true)
    (origin : t.code start.block = up ++ entry :: start.rest)
    (plain : entry.2.isFrameInsn = false) (leads : Leads t free start ⟨b, rest⟩) :
    Leads t free start ⟨b, frames ++ rest⟩ := by
  induction frames generalizing above with
  | nil => exact leads
  | cons first frames ih =>
      have next : t.code b = (above ++ [first]) ++ (frames ++ rest) :=
        code.trans (List.append_cons _ _ _)
      have later := ih next fun one member => each one (List.mem_cons_of_mem _ member)
      have inside : ∃ front, t.code start.block = front ++ start.rest :=
        ⟨up ++ [entry], origin.trans (List.append_cons _ _ _)⟩
      rcases later.behind_cases code inside with rfl | ⟨there, _⟩
      · have same := eq_of_same_rest code origin
        rw [same, each first List.mem_cons_self] at plain
        cases plain
      · exact there

end LastStep

/-! ## Demands lifted -/

namespace Body

/-- The store stands right behind the instruction. -/
def StoresBehind (t : Body) (j w : InsnId) (v : VarId) : Prop :=
  ∃ b front insn rest, t.code b = front ++ (w, insn) :: (j, .storeFrame v) :: rest

/-- The load stands before the instruction, with nothing but loads between them. -/
def LoadsBefore (t : Body) (j r : InsnId) (v : VarId) : Prop :=
  ∃ b front between insn rest,
    t.code b = front ++ (j, .loadFrame v) :: (between ++ (r, insn) :: rest) ∧
      insn.isFrameInsn = false ∧ ∀ one ∈ between, one.2.isLoad = true

def DropsBehindWrites (t : Body) (keep : InsnId × Insn → Bool) (v : VarId) : Prop :=
  ∀ b above rest j, t.code b = above ++ (j, .storeFrame v) :: rest →
    keep (j, .storeFrame v) = false →
    ∃ front write, above = front ++ [write] ∧ write.2.writesSlot v = true

def DropsBeforeReads (t : Body) (keep : InsnId × Insn → Bool) (v : VarId) : Prop :=
  ∀ b above rest j, t.code b = above ++ (j, .loadFrame v) :: rest →
    keep (j, .loadFrame v) = false →
    ∃ between read back, rest = between ++ read :: back ∧
      (∀ one ∈ between, one.2.isLoad = true) ∧ keep read = true ∧ v ∈ read.2.usedVars

end Body

theorem Insn.isFrameInsn_of_isLoad {insn : Insn} (load : insn.isLoad = true) :
    insn.isFrameInsn = true := by
  cases insn with
  | loadFrame _ => rfl
  | _ => cases load

section Demands

variable {s t : Body} {keep : InsnId × Insn → Bool} {captures : Captures} {v : VarId}

theorem moves_of_not_staysUnsynced {entry : InsnId × Insn} (inside : entry ∈ t.allCode)
    (frame : entry.2.isFrameInsn = true)
    (stuck : ¬ (t.effects captures).StaysUnsynced v .completes entry) :
    entry.2 = .storeFrame v ∨ entry.2 = .loadFrame v := by
  obtain ⟨i, insn⟩ := entry
  have unwritten : insn.writesSlot v = false := by
    unfold Insn.writesSlot
    rw [show insn.isFrameInsn = true from frame]
    rfl
  have syncs : (t.effects captures).syncs v i insn = true :=
    (Bool.eq_false_or_eq_true _).resolve_right fun none => stuck ⟨unwritten, none⟩
  unfold Effects.syncs at syncs
  cases insn with
  | storeFrame w => exact Or.inl (congrArg Insn.storeFrame (beq_iff_eq.mp syncs))
  | loadFrame w => exact Or.inr (congrArg Insn.loadFrame (beq_iff_eq.mp syncs))
  | allocFrame =>
      have observed : v ∈ (t.effects captures).observed.get i := syncs
      cases Body.isCall_of_observed inside observed
  | _ => cases frame

theorem moves_of_not_leavesStale {entry : InsnId × Insn} (frame : entry.2.isFrameInsn = true)
    (stuck : ¬ Effects.LeavesStale v .completes entry) :
    entry.2 = .storeFrame v ∨ entry.2 = .loadFrame v := by
  obtain ⟨i, insn⟩ := entry
  unfold Effects.LeavesStale at stuck
  cases insn with
  | storeFrame w =>
      by_cases same : w = v
      · exact Or.inl (congrArg Insn.storeFrame same)
      · exact absurd ⟨by simp [Insn.usedVars, Ne.symm same], by simp [Insn.result?],
          by simpa [Insn.movedVar?] using same⟩ stuck
  | loadFrame w =>
      by_cases same : w = v
      · exact Or.inr (congrArg Insn.loadFrame same)
      · exact absurd ⟨by simp [Insn.usedVars, Insn.operands], by simpa [Insn.result?] using same,
          by simpa [Insn.movedVar?] using same⟩ stuck
  | allocFrame =>
      exact absurd ⟨by simp [Insn.usedVars, Insn.operands], by simp [Insn.result?],
        by simp [Insn.movedVar?]⟩ stuck
  | _ => cases frame

theorem result?_of_writesSlot {insn : Insn} (writes : insn.writesSlot v = true) :
    insn.result? = some v := by
  unfold Insn.writesSlot at writes
  rw [Bool.and_eq_true, beq_iff_eq] at writes
  exact writes.2

variable (thins : s.Thins t keep) (behind : t.DropsBehindWrites keep v)
include thins behind

/-- A path behind a write, on which the variable stays unsynced, is followed to its end or comes
past an observation, unless a dropped store stands right behind the write. -/
theorem lift_unsynced (candidate : v ∈ (t.effects captures).candidates) {w : InsnId}
    (unstored : ∀ j, t.StoresBehind j w v → keep (j, .storeFrame v) = true) {b : BlockId}
    {above rest : Code} {insn : Insn} (code : t.code b = above ++ (w, insn) :: rest)
    {point : Point} (leads : Leads s ((t.effects captures).StaysUnsynced v)
      (Point.thin keep ⟨b, rest⟩) point) :
    (∃ reached, Leads t ((t.effects captures).StaysUnsynced v) ⟨b, rest⟩ reached ∧
      reached.thin keep = point ∧ reached.Faces keep) ∨
    ∃ reached, Leads t ((t.effects captures).StaysUnsynced v) ⟨b, rest⟩ reached ∧
      (t.effects captures).Observes t v reached := by
  rcases thins.lift leads with found | ⟨c, ⟨j, move⟩, below, there, dropped, stuck, _⟩
  · exact Or.inl found
  · right
    have inside : ∃ front, t.code b = front ++ rest :=
      ⟨above ++ [(w, insn)], code.trans (List.append_cons _ _ _)⟩
    obtain ⟨front, here⟩ := suffix_of_leads inside there
    have member : (j, move) ∈ t.code c := Body.mem_code_of_split here
    rcases moves_of_not_staysUnsynced (Body.mem_allCode_of_code here)
      (thins.dropped c _ member dropped) stuck with store | load
    · -- the path would have come from the write, and started behind another one
      obtain rfl : move = .storeFrame v := store
      obtain ⟨more, write, rfl, writes⟩ := behind c front below j here dropped
      have split : t.code c = more ++ write :: (j, .storeFrame v) :: below :=
        here.trans (List.append_assoc _ _ _)
      rcases there.behind_cases split inside with same | ⟨_, passes⟩
      · cases same
        rw [List.append_cons] at code
        obtain ⟨rfl, same⟩ := List.append_inj' (Body.code_split_unique code here).1 rfl
        cases same
        rw [unstored j ⟨b, above, insn, below, split⟩] at dropped
        cases dropped
      · rw [passes.1] at writes
        cases writes
    · obtain rfl : move = .loadFrame v := load
      exact ⟨_, there, Effects.Observes.load candidate⟩

/-- A write that is due a store in a thinner scope is due one in the larger scope, unless a dropped
store stands right behind it. -/
theorem dueStore_of_thins {w : InsnId}
    (unstored : ∀ j, t.StoresBehind j w v → keep (j, .storeFrame v) = true)
    (due : (t.effects captures).DueStore s w v) : (t.effects captures).DueStore t w v := by
  obtain ⟨b, above, insn, rest, point, code, writes, leads, observes⟩ := due
  obtain ⟨front, back, whole, _, _, rfl⟩ := thins.split code
  rcases lift_unsynced thins behind observes.candidate unstored whole leads with
    ⟨reached, there, thin, faces⟩ | ⟨reached, there, seen⟩
  · exact ⟨b, front, insn, back, reached, whole, writes, there,
      thins.observes faces thin observes⟩
  · exact ⟨b, front, insn, back, reached, whole, writes, there, seen⟩

theorem staleRead_of_thins {e : Effects} {r : InsnId} (before : t.DropsBeforeReads keep v)
    (unloaded : ∀ j, t.LoadsBefore j r v → keep (j, .loadFrame v) = true)
    (stale : e.StaleRead s r v) : e.StaleRead t r v := by
  obtain ⟨b, above, insn, rest, code, plain, used, point, below, leads⟩ := stale
  obtain ⟨start, springs, rfl⟩ := thins.lift_springs below
  have inside := suffix_of_springs springs
  rcases thins.lift leads with ⟨reached, there, thin, faces⟩ |
    ⟨c, ⟨j, move⟩, below, there, dropped, stuck, more⟩
  · obtain ⟨below, rfl, _⟩ := faces.of_thin_cons thin
    obtain ⟨front, here⟩ := suffix_of_leads inside there
    exact ⟨b, front, insn, below, here, plain, used, start, springs, there⟩
  · exfalso
    obtain ⟨front, here⟩ := suffix_of_leads inside there
    have member : (j, move) ∈ t.code c := Body.mem_code_of_split here
    rcases moves_of_not_leavesStale (thins.dropped c _ member dropped) stuck with store | load
    · -- nothing is stale behind a write
      obtain rfl : move = .storeFrame v := store
      obtain ⟨upper, write, rfl, writes⟩ := behind c front below j here dropped
      have result := result?_of_writesSlot writes
      have split : t.code c = upper ++ write :: (j, .storeFrame v) :: below :=
        here.trans (List.append_assoc _ _ _)
      rcases (arises_behind_iff split).mp ⟨start, springs, there⟩ with starts | ⟨_, kept⟩
      · exact starts.2.2 result
      · exact kept.2.1 result
    · -- the read behind the load uses the variable up
      obtain rfl : move = .loadFrame v := load
      obtain ⟨between, read, back, rfl, loads, kept, reads⟩ := before c front below j here dropped
      unfold Point.thin at more
      rw [List.filter_append, List.filter_cons_of_pos kept] at more
      have frames : ∀ one ∈ between.filter keep, one.2.isFrameInsn = true := fun one member =>
        Insn.isFrameInsn_of_isLoad (loads one (List.mem_filter.mp member).1)
      have blocks : ∀ passage, ¬ Effects.LeavesStale v passage read := by
        intro passage passes
        cases passage with
        | completes => exact passes.1 reads
        | raises => exact passes reads
      obtain ⟨left, same, all⟩ := more.confined frames blocks
      cases left with
      | nil =>
          cases same
          rw [unloaded j ⟨c, front, between, insn, back, here, plain, loads⟩] at dropped
          cases dropped
      | cons first left =>
          cases same
          rw [all _ List.mem_cons_self] at plain
          cases plain

end Demands

/-! ## Moves in a thinner scope -/

theorem eq_of_split_at {α : Type} {p : α → Bool} {front front' back back' : List α} {x y : α}
    (same : front ++ x :: back = front' ++ y :: back') (pass : ∀ a ∈ front, p a = true)
    (stop : p x = false) (pass' : ∀ a ∈ front', p a = true) (stop' : p y = false) :
    front = front' ∧ x = y ∧ back = back' := by
  induction front generalizing front' with
  | nil =>
      cases front' with
      | nil =>
          cases same
          exact ⟨rfl, rfl, rfl⟩
      | cons z front' =>
          cases same
          rw [pass' _ List.mem_cons_self] at stop
          cases stop
  | cons z front ih =>
      cases front' with
      | nil =>
          cases same
          rw [pass _ List.mem_cons_self] at stop'
          cases stop'
      | cons z' front' =>
          rw [List.cons_append, List.cons_append, List.cons.injEq] at same
          obtain ⟨rfl, rfl, rfl⟩ := ih same.2
            (fun a member => pass a (List.mem_cons_of_mem _ member))
            fun a member => pass' a (List.mem_cons_of_mem _ member)
          exact ⟨by rw [same.1], rfl, rfl⟩

theorem eq_or_mem_of_split {α : Type} {front front' back back' : List α} {x y : α}
    (same : front ++ x :: back = front' ++ y :: back') : x = y ∨ y ∈ back ∨ x ∈ back' := by
  rcases List.append_eq_append_iff.mp same with ⟨more, _, tail⟩ | ⟨more, _, tail⟩
  · cases more with
    | nil => exact Or.inl (List.cons.inj tail).1
    | cons z more =>
        cases tail
        exact Or.inr (Or.inl (by simp))
  · cases more with
    | nil => exact Or.inl (List.cons.inj tail).1.symm
    | cons z more =>
        cases tail
        exact Or.inr (Or.inr (by simp))

theorem Insn.isLoad_eq_false_of_uses {insn : Insn} {v : VarId} (used : v ∈ insn.usedVars) :
    insn.isLoad = false := by
  cases insn with
  | loadFrame w => simp [Insn.usedVars, Insn.operands] at used
  | _ => rfl

theorem Insn.isLoad_of_plain {insn : Insn} (plain : insn.isFrameInsn = false) :
    insn.isLoad = false := by
  cases insn with
  | loadFrame w => cases plain
  | _ => rfl

namespace Body

variable {s t u : Body} {keep kept : InsnId × Insn → Bool} {v : VarId} {j k : InsnId}

theorem Thins.keeps_write (thins : u.Thins t kept) {b : BlockId} {front rest : Code}
    {write : InsnId × Insn} (code : t.code b = front ++ write :: rest)
    (writes : write.2.writesSlot v = true) : kept write = true := by
  cases held : kept write with
  | true => rfl
  | false =>
      have frame := thins.dropped b write (mem_code_of_split code) held
      rw [(plain_of_writesSlot writes).1] at frame
      cases frame

theorem DropsBehindWrites.split (behind : t.DropsBehindWrites keep v) (thins : u.Thins t kept)
    {b : BlockId} {above rest : Code} (code : u.code b = above ++ (k, .storeFrame v) :: rest)
    (foreign : keep (k, .storeFrame v) = false) :
    ∃ front write back, t.code b = front ++ write :: (k, .storeFrame v) :: back ∧
      above = front.filter kept ++ [write] ∧ write.2.writesSlot v = true := by
  obtain ⟨front, back, whole, _, rfl, _⟩ := thins.split code
  obtain ⟨front, write, rfl, writes⟩ := behind b front back k whole foreign
  have split : t.code b = front ++ write :: (k, .storeFrame v) :: back :=
    whole.trans (List.append_assoc _ _ _)
  refine ⟨front, write, back, split, ?_, writes⟩
  rw [List.filter_append, List.filter_cons_of_pos (thins.keeps_write split writes), List.filter_nil]

theorem DropsBehindWrites.thins (behind : t.DropsBehindWrites keep v) (thins : u.Thins t kept) :
    u.DropsBehindWrites keep v := by
  intro b above rest k code foreign
  obtain ⟨front, write, _, _, same, writes⟩ := behind.split thins code foreign
  exact ⟨_, write, same, writes⟩

theorem StoresBehind.of_thins (behind : t.DropsBehindWrites keep v) (thins : u.Thins t kept)
    {w : InsnId} (stored : u.StoresBehind k w v) (foreign : keep (k, .storeFrame v) = false) :
    t.StoresBehind k w v := by
  obtain ⟨b, front, insn, rest, code⟩ := stored
  obtain ⟨more, write, back, whole, same, _⟩ :=
    behind.split thins (code.trans (List.append_cons _ _ _)) foreign
  obtain ⟨_, last⟩ := List.append_inj' same rfl
  cases last
  exact ⟨b, more, insn, back, whole⟩

theorem StoresBehind.unique {w : InsnId} {x : VarId} (one : t.StoresBehind j w v)
    (other : t.StoresBehind k w x) : j = k ∧ v = x := by
  obtain ⟨b, front, insn, rest, code⟩ := one
  obtain ⟨c, front', insn', rest', code'⟩ := other
  have here : (w, insn) ∈ t.code b := mem_code_of_split code
  have there : (w, insn') ∈ t.code c := mem_code_of_split code'
  obtain rfl := Layout.block_unique (mem_code_iff.mp here).1 (mem_code_iff.mp there).1
  obtain rfl := insn_unique here there
  obtain ⟨_, same⟩ := code_split_unique code code'
  cases same
  exact ⟨rfl, rfl⟩

theorem StoresBehind.write_unique {w x : InsnId} {y : VarId} (one : t.StoresBehind j w v)
    (other : t.StoresBehind j x y) : w = x ∧ v = y := by
  obtain ⟨b, front, insn, rest, code⟩ := one
  obtain ⟨c, front', insn', rest', code'⟩ := other
  rw [List.append_cons] at code code'
  have here : (j, Insn.storeFrame v) ∈ t.code b := mem_code_of_split code
  have there : (j, Insn.storeFrame y) ∈ t.code c := mem_code_of_split code'
  obtain rfl := Layout.block_unique (mem_code_iff.mp here).1 (mem_code_iff.mp there).1
  cases insn_unique here there
  obtain ⟨_, last⟩ := List.append_inj' (code_split_unique code code').1 rfl
  cases last
  exact ⟨rfl, rfl⟩

theorem LoadsBefore.read_unique {r x : InsnId} {y : VarId} (one : t.LoadsBefore j r v)
    (other : t.LoadsBefore j x y) : r = x ∧ v = y := by
  obtain ⟨b, front, between, insn, rest, code, plain, loads⟩ := one
  obtain ⟨c, front', between', insn', rest', code', plain', loads'⟩ := other
  have here : (j, Insn.loadFrame v) ∈ t.code b := mem_code_of_split code
  have there : (j, Insn.loadFrame y) ∈ t.code c := mem_code_of_split code'
  obtain rfl := Layout.block_unique (mem_code_iff.mp here).1 (mem_code_iff.mp there).1
  cases insn_unique here there
  obtain ⟨_, same, _⟩ := eq_of_split_at (p := fun one : InsnId × Insn => one.2.isLoad)
    (code_split_unique code code').2 loads (Insn.isLoad_of_plain plain) loads'
    (Insn.isLoad_of_plain plain')
  cases same
  exact ⟨rfl, rfl⟩

theorem DropsBeforeReads.thins (before : t.DropsBeforeReads keep v) (thins : u.Thins t kept)
    (wider : ∀ entry, keep entry = true → kept entry = true) : u.DropsBeforeReads keep v := by
  intro b above rest k code foreign
  obtain ⟨front, back, whole, _, _, rfl⟩ := thins.split code
  obtain ⟨between, read, back, rfl, loads, held, used⟩ := before b front back k whole foreign
  refine ⟨between.filter kept, read, back.filter kept, ?_, fun one member =>
    loads one (List.mem_filter.mp member).1, held, used⟩
  rw [List.filter_append, List.filter_cons_of_pos (wider read held)]

theorem LoadsBefore.of_thins (before : t.DropsBeforeReads keep v) (thins : u.Thins t kept)
    (wider : ∀ entry, keep entry = true → kept entry = true) {r : InsnId}
    (loaded : u.LoadsBefore k r v) (foreign : keep (k, .loadFrame v) = false) :
    t.LoadsBefore k r v := by
  obtain ⟨b, front, between, insn, rest, code, plain, loads⟩ := loaded
  obtain ⟨above, back, whole, _, _, same⟩ := thins.split code
  obtain ⟨more, read, back, rfl, others, held, used⟩ := before b above back k whole foreign
  rw [List.filter_append, List.filter_cons_of_pos (wider read held)] at same
  obtain ⟨_, rfl, _⟩ := eq_of_split_at (p := fun one : InsnId × Insn => one.2.isLoad) same
    (fun one member => others one (List.mem_filter.mp member).1)
    (Insn.isLoad_eq_false_of_uses used) loads (Insn.isLoad_of_plain plain)
  exact ⟨b, above, more, insn, back, whole, plain, others⟩

end Body

end FramePlacement
