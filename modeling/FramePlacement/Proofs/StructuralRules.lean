import FramePlacement.Proofs.Allocation
import FramePlacement.Proofs.Insertions
import FramePlacement.Proofs.Lifting
import FramePlacement.Proofs.VerifierWalk
/-!
# The scopes without findings

Every list of findings is empty exactly if the rule behind it is kept.  Put together, a scope has no
findings exactly if all its identifiers are in the arenas (`Body.Resolved`) and it keeps the
structural rules (`Body.WellStructured`), and these are the scopes that the verifier accepts
(`Body.verifier_accepts`).

The rules speak of the order of the instructions.  The verifier compares position counters instead,
which comes to the same because it has checked that they increase within each block.
-/

set_option autoImplicit false

namespace FramePlacement

theorem Finding.ifBroken_eq_nil_iff {broken : Bool} {cause : Violation} :
    Finding.ifBroken broken cause = [] ↔ broken = false := by
  cases broken <;> simp [Finding.ifBroken]

theorem countP_le_one_iff {α : Type} {l : List α} (distinct : l.Nodup) {p : α → Bool} :
    l.countP p ≤ 1 ↔ ∀ x ∈ l, ∀ y ∈ l, p x = true → p y = true → x = y := by
  have kept := distinct.filter p
  have among : ∀ x, x ∈ l.filter p ↔ x ∈ l ∧ p x = true := fun x => List.mem_filter
  rw [List.countP_eq_length_filter]
  constructor
  · intro few x inside y also holds too
    obtain ⟨z, only⟩ : ∃ z, l.filter p = [z] :=
      List.length_eq_one_iff.mp (Nat.le_antisymm few
        (List.length_pos_of_mem ((among x).mpr ⟨inside, holds⟩)))
    have same : ∀ w ∈ l, p w = true → w = z := fun w member holds =>
      List.mem_singleton.mp (only ▸ (among w).mpr ⟨member, holds⟩)
    rw [same x inside holds, same y also too]
  · intro same
    rcases found : l.filter p with _ | ⟨x, _ | ⟨y, rest⟩⟩
    · exact Nat.zero_le 1
    · exact Nat.le_refl 1
    · rw [found] at kept among
      obtain ⟨inside, holds⟩ := (among x).mp List.mem_cons_self
      obtain ⟨also, too⟩ := (among y).mp (List.mem_cons_of_mem x List.mem_cons_self)
      rw [same x inside y also holds too] at kept
      exact absurd List.mem_cons_self (List.nodup_cons.mp kept).1

namespace Body

/-- Every identifier that the verifier looks up is in its arena. -/
structure Resolved (s : Body) : Prop where
  blocks : ∀ b ∈ s.layout.blocks, b < s.handlers.size
  insns : ∀ i ∈ s.layout.allInsns, i < s.insns.size
  moved : ∀ entry ∈ s.allCode, ∀ v, entry.2.movedVar? = some v → v < s.vars.size

structure WellStructured (s : Body) : Prop where
  handlers : ∀ b ∈ s.layout.blocks, ∀ handler, s.handler? b = some handler →
    handler ∈ s.layout.blocks
  ascending : ∀ b ∈ s.layout.blocks,
    (s.layout.insns b).Pairwise fun i j => s.layout.position i < s.layout.position j
  last : ∀ b above rest entry, s.code b = above ++ entry :: rest → entry.2.isTerminator = true →
    rest = []
  targets : ∀ entry ∈ s.allCode, ∀ dest ∈ entry.2.targets, dest ∈ s.layout.blocks
  allocOnce : (s.allCode.countP fun entry => entry.2.isAlloc) ≤ 1
  allocInEntry : ∀ b, ∀ entry ∈ s.code b, entry.2.isAlloc = true → s.layout.entry? = some b
  /-- No temporary is moved. -/
  locals : ∀ entry ∈ s.allCode, ∀ v x, entry.2.movedVar? = some v → s.vars.var? v = some x →
    x.isTemporary = false
  /-- A scope that moves own locals allocates its frame. -/
  allocated : ∀ entry ∈ s.allCode, s.movesOwn entry.2 = true →
    ∃ alloc ∈ s.allCode, alloc.2.isAlloc = true
  /-- The entry block moves own locals only after the allocation. -/
  allocFirst : ∀ top above rest entry, s.layout.entry? = some top →
    s.code top = above ++ entry :: rest → s.movesOwn entry.2 = true →
    ∃ alloc ∈ above, alloc.2.isAlloc = true

variable {s : Body} {b : BlockId}

/-! ## One block -/

theorem handlerFindings_eq_nil_iff : s.handlerFindings b = [] ↔
    b < s.handlers.size ∧ ∀ handler, s.handler? b = some handler → handler ∈ s.layout.blocks := by
  have inside : b < s.handlers.size ↔ s.handlers[b]? ≠ none := by simp
  unfold handlerFindings handler?
  rw [inside]
  cases s.handlers[b]? with
  | none => simp
  | some handler? =>
      cases handler? with
      | none => simp
      | some handler => simp [Finding.ifBroken_eq_nil_iff, Layout.hasBlock]

theorem movedFindings_eq_nil_iff {v : VarId} :
    s.movedFindings v = [] ↔ ∃ x, s.vars.var? v = some x ∧ x.isTemporary = false := by
  unfold movedFindings
  cases s.vars.var? v with
  | none => simp
  | some x => simp [Finding.ifBroken_eq_nil_iff]

theorem allocFindings_eq_nil_iff {earlier : Code} : s.allocFindings b earlier = [] ↔
    s.layout.entry? = some b ∧ ∀ other ∈ earlier, other.2.isAlloc = false := by
  unfold allocFindings
  rw [List.append_eq_nil_iff, Finding.ifBroken_eq_nil_iff, Finding.ifBroken_eq_nil_iff]
  simp

structure InOrder (s : Body) (b : BlockId) (earlier : Code) (entry : InsnId × Insn)
    (followed : Bool) : Prop where
  behind : ∀ previous, earlier.getLast? = some previous →
    s.layout.position previous.1 < s.layout.position entry.1
  last : entry.2.isTerminator = true → followed = false
  targets : ∀ dest ∈ entry.2.targets, dest ∈ s.layout.blocks
  alloc : entry.2.isAlloc = true →
    s.layout.entry? = some b ∧ ∀ other ∈ earlier, other.2.isAlloc = false
  moved : ∀ v, entry.2.movedVar? = some v → ∃ x, s.vars.var? v = some x ∧ x.isTemporary = false

theorem insnFindings_eq_nil_iff {earlier : Code} {entry : InsnId × Insn} {followed : Bool} :
    s.insnFindings b earlier entry.1 entry.2 followed = [] ↔
      s.InOrder b earlier entry followed := by
  have behind : (earlier.getLast?.any fun last =>
      s.layout.position entry.1 ≤ s.layout.position last.1) = false ↔
        ∀ previous, earlier.getLast? = some previous →
          s.layout.position previous.1 < s.layout.position entry.1 := by
    cases earlier.getLast? <;> simp
  have last : (entry.2.isTerminator && followed) = false ↔
      (entry.2.isTerminator = true → followed = false) := by
    cases entry.2.isTerminator <;> simp
  have targets : (entry.2.targets.any fun target => !s.layout.hasBlock target) = false ↔
      ∀ dest ∈ entry.2.targets, dest ∈ s.layout.blocks := by
    simp [Layout.hasBlock]
  have alloc : (if entry.2.isAlloc then s.allocFindings b earlier else []) = [] ↔
      (entry.2.isAlloc = true →
        s.layout.entry? = some b ∧ ∀ other ∈ earlier, other.2.isAlloc = false) := by
    rw [← allocFindings_eq_nil_iff]
    cases entry.2.isAlloc <;> simp
  have moved : entry.2.movedVar?.elim [] s.movedFindings = [] ↔
      ∀ v, entry.2.movedVar? = some v → ∃ x, s.vars.var? v = some x ∧ x.isTemporary = false := by
    cases entry.2.movedVar? with
    | none => simp
    | some v => simp [movedFindings_eq_nil_iff]
  rw [insnFindings_eq, List.append_eq_nil_iff, List.append_eq_nil_iff, List.append_eq_nil_iff,
    List.append_eq_nil_iff, Finding.ifBroken_eq_nil_iff, Finding.ifBroken_eq_nil_iff,
    Finding.ifBroken_eq_nil_iff, behind, last, targets, alloc, moved]
  constructor
  · rintro ⟨behind, last, targets, alloc, moved⟩
    exact ⟨behind, last, targets, alloc, moved⟩
  · rintro ⟨behind, last, targets, alloc, moved⟩
    exact ⟨behind, last, targets, alloc, moved⟩

theorem known_of_codeFindings_eq_nil {earlier : Code} {row : List InsnId}
    (none : s.codeFindings b earlier row = []) : ∀ i ∈ row, i < s.insns.size := by
  induction row generalizing earlier with
  | nil => exact fun i member => absurd member List.not_mem_nil
  | cons i rest ih =>
      rw [codeFindings] at none
      cases read : s.insn? i with
      | none =>
          rw [read] at none
          cases none
      | some insn =>
          rw [read] at none
          have later := (List.append_eq_nil_iff.mp none).2
          exact List.forall_mem_cons.mpr ⟨(Array.getElem?_eq_some_iff.mp read).1, ih later⟩

theorem blockFindings_eq_nil_iff : s.blockFindings b = [] ↔
    (b < s.handlers.size ∧ ∀ handler, s.handler? b = some handler → handler ∈ s.layout.blocks) ∧
      (∀ i ∈ s.layout.insns b, i < s.insns.size) ∧
      ∀ above entry rest, s.code b = above ++ entry :: rest →
        s.InOrder b above entry (!rest.isEmpty) := by
  unfold blockFindings
  rw [List.append_eq_nil_iff, handlerFindings_eq_nil_iff]
  refine and_congr_right fun _ => ?_
  constructor
  · intro none
    have known := known_of_codeFindings_eq_nil none
    refine ⟨known, fun above entry rest code => insnFindings_eq_nil_iff.mp ?_⟩
    refine List.eq_nil_iff_forall_not_mem.mpr fun finding member => ?_
    have found := (mem_codeFindings_iff known []).mpr ⟨above, entry, rest, code, member⟩
    rw [none] at found
    cases found
  · rintro ⟨known, order⟩
    refine List.eq_nil_iff_forall_not_mem.mpr fun finding member => ?_
    obtain ⟨above, entry, rest, code, found⟩ := (mem_codeFindings_iff known []).mp member
    rw [List.nil_append, insnFindings_eq_nil_iff.mpr (order above entry rest code)] at found
    cases found

/-! ## The whole scope -/

theorem allocOnce_of_inOrder (order : ∀ b above entry rest, s.code b = above ++ entry :: rest →
    s.InOrder b above entry (!rest.isEmpty)) :
    (s.allCode.countP fun entry => entry.2.isAlloc) ≤ 1 := by
  have apart : ∀ {b above one rest other}, s.code b = above ++ one :: rest →
      one.2.isAlloc = true → other ∈ rest → other.2.isAlloc = true → False := by
    intro b above one rest other code allocates later too
    obtain ⟨between, below, rfl⟩ := List.append_of_mem later
    have split : s.code b = (above ++ one :: between) ++ other :: below := by rw [code]; simp
    have unallocated := ((order b _ other below split).alloc too).2 one (by simp)
    rw [allocates] at unallocated
    cases unallocated
  have distinct : s.allCode.Nodup := List.Nodup.of_map Prod.fst s.allCode_nodup
  refine (countP_le_one_iff distinct).mpr fun one inside other also allocates too => ?_
  obtain ⟨b, here⟩ := mem_allCode_iff.mp inside
  obtain ⟨c, there⟩ := mem_allCode_iff.mp also
  obtain ⟨above, rest, code⟩ := List.append_of_mem here
  obtain ⟨front, back, split⟩ := List.append_of_mem there
  have first := ((order b above one rest code).alloc allocates).1
  have again := ((order c front other back split).alloc too).1
  have same : b = c := Option.some.inj (first.symm.trans again)
  subst same
  rcases eq_or_mem_of_split (code.symm.trans split) with same | later | later
  · exact same
  · exact (apart code allocates later too).elim
  · exact (apart split too later allocates).elim

theorem wellStructured_of_verify (accepted : s.verify = .ok ()) (resolved : s.Resolved)
    (order : ∀ b above entry rest, s.code b = above ++ entry :: rest →
      s.InOrder b above entry (!rest.isEmpty)) : s.WellStructured := by
  have orderly := orderly_of_verify accepted
  have splits : ∀ entry ∈ s.allCode, ∃ b above rest, s.code b = above ++ entry :: rest := by
    intro entry inside
    obtain ⟨b, member⟩ := mem_allCode_iff.mp inside
    obtain ⟨above, rest, code⟩ := List.append_of_mem member
    exact ⟨b, above, rest, code⟩
  refine
    { handlers := fun b listed handler => orderly.handler listed
      ascending := fun b _ => ?_
      last := fun b above rest entry => orderly.last
      targets := ?_
      allocOnce := allocOnce_of_inOrder order
      allocInEntry := ?_
      locals := ?_
      allocated := ?_
      allocFirst := ?_ }
  · have row := pairwise_position accepted (s.code b).append_nil.symm
    rw [← map_fst_code_of_known (insnsKnown_iff.mpr resolved.insns) b, List.pairwise_map]
    exact row
  · intro entry inside dest target
    obtain ⟨b, above, rest, code⟩ := splits entry inside
    exact orderly.target code target
  · intro b entry member allocates
    obtain ⟨above, rest, code⟩ := List.append_of_mem member
    exact ((order b above entry rest code).alloc allocates).1
  · intro entry inside v x moves read
    obtain ⟨b, above, rest, code⟩ := splits entry inside
    obtain ⟨y, also, lasting⟩ := (order b above entry rest code).moved v moves
    rw [read] at also
    cases also
    exact lasting
  · intro entry inside own
    obtain ⟨_, alloc, _, member, allocates, _⟩ := exists_alloc accepted inside own
    exact ⟨alloc, mem_allCode_of_mem_code member, allocates⟩
  · intro top above rest entry first code own
    obtain ⟨again, alloc, entryBlock, member, allocates, notEarly⟩ :=
      exists_alloc accepted (mem_allCode_of_code code) own
    rw [first] at entryBlock
    cases entryBlock
    have inside : entry ∈ s.code top := mem_code_of_split code
    exact ⟨alloc, alloc_mem_above accepted code own member allocates (notEarly entry inside own),
      allocates⟩

namespace WellStructured

variable {above rest : Code} {entry : InsnId × Insn} (rules : s.WellStructured)
  (resolved : s.Resolved)
include rules resolved

theorem code_pairwise (listed : b ∈ s.layout.blocks) : (s.code b).Pairwise fun one other =>
    s.layout.position one.1 < s.layout.position other.1 := by
  have row := rules.ascending b listed
  rw [← map_fst_code_of_known (insnsKnown_iff.mpr resolved.insns) b, List.pairwise_map] at row
  exact row

theorem inOrder (code : s.code b = above ++ entry :: rest) :
    s.InOrder b above entry (!rest.isEmpty) := by
  have inside : entry ∈ s.allCode := mem_allCode_of_code code
  have ascending := rules.code_pairwise resolved (mem_blocks_of_code code)
  rw [code, List.pairwise_append] at ascending
  refine
    { behind := ?_
      last := ?_
      targets := rules.targets entry inside
      alloc := fun allocates => ⟨?_, ?_⟩
      moved := ?_ }
  · intro previous last
    exact ascending.2.2 previous (List.mem_of_getLast? last) entry List.mem_cons_self
  · intro ends
    rw [rules.last b above rest entry code ends]
    rfl
  · exact rules.allocInEntry b entry (mem_code_of_split code) allocates
  · intro other earlier
    by_contra too
    have distinct : s.allCode.Nodup := List.Nodup.of_map Prod.fst s.allCode_nodup
    have same := (countP_le_one_iff distinct).mp rules.allocOnce other
      (mem_allCode_of_above code other earlier) entry inside (by simpa using too) allocates
    have less := ascending.2.2 other earlier entry List.mem_cons_self
    rw [same] at less
    exact Nat.lt_irrefl _ less
  · intro v moves
    have below := resolved.moved entry inside v moves
    have read : s.vars.var? v = some s.vars.entries[v] := List.getElem?_eq_getElem below
    exact ⟨_, read, rules.locals entry inside v _ moves read⟩

theorem allocationFindings_eq_nil : s.allocationFindings = [] := by
  unfold allocationFindings
  dsimp only
  split
  · next none =>
      refine Finding.ifBroken_eq_nil_iff.mpr (List.any_eq_false.mpr fun entry inside own => ?_)
      obtain ⟨alloc, also, allocates⟩ := rules.allocated entry inside own
      obtain ⟨b, member⟩ := mem_allCode_iff.mp also
      rw [rules.allocInEntry b alloc member allocates, Option.map_some, Option.getD_some,
        List.find?_eq_none] at none
      exact none alloc member allocates
  · next alloc insn found =>
      refine Finding.ifBroken_eq_nil_iff.mpr (List.any_eq_false.mpr fun entry member early => ?_)
      have passed := List.find?_some found
      have allocates : insn.isAlloc = true := passed
      have among := List.mem_of_find?_eq_some found
      obtain ⟨own, less⟩ := Bool.and_eq_true_iff.mp early
      cases first : s.layout.entry? with
      | none =>
          rw [first] at member
          cases member
      | some top =>
          rw [first, Option.map_some, Option.getD_some] at member among
          obtain ⟨above, rest, code⟩ := List.append_of_mem member
          obtain ⟨other, earlier, too⟩ := rules.allocFirst top above rest entry first code own
          have distinct : s.allCode.Nodup := List.Nodup.of_map Prod.fst s.allCode_nodup
          have same : other = (alloc, insn) :=
            (countP_le_one_iff distinct).mp rules.allocOnce other
              (mem_allCode_of_above code other earlier) (alloc, insn)
              (mem_allCode_of_mem_code among) too allocates
          have ascending := rules.code_pairwise resolved (mem_blocks_of_code code)
          rw [code, List.pairwise_append] at ascending
          have above := ascending.2.2 other earlier entry List.mem_cons_self
          rw [same] at above
          exact Nat.lt_asymm above (of_decide_eq_true less)

end WellStructured

/-- A scope has no findings exactly if its identifiers are in the arenas and it keeps the structural
rules. -/
theorem findings_eq_nil_iff : s.findings = [] ↔ s.Resolved ∧ s.WellStructured := by
  have walked : s.findings = [] ↔
      (∀ b ∈ s.layout.blocks, s.blockFindings b = []) ∧ s.allocationFindings = [] := by
    unfold findings
    rw [List.append_eq_nil_iff, List.flatMap_eq_nil_iff]
  constructor
  · intro none
    obtain ⟨blocks, _⟩ := walked.mp none
    have block := fun b listed => blockFindings_eq_nil_iff.mp (blocks b listed)
    have order : ∀ b above entry rest, s.code b = above ++ entry :: rest →
        s.InOrder b above entry (!rest.isEmpty) := fun b above entry rest code =>
      (block b (mem_blocks_of_code code)).2.2 above entry rest code
    have resolved : s.Resolved := by
      refine ⟨fun b listed => (block b listed).1.1, ?_, ?_⟩
      · intro i inside
        obtain ⟨b, member⟩ := Layout.mem_allInsns_iff.mp inside
        exact (block b (Layout.mem_blocks_of_mem_insns member)).2.1 i member
      · intro entry inside v moves
        obtain ⟨b, member⟩ := mem_allCode_iff.mp inside
        obtain ⟨above, rest, code⟩ := List.append_of_mem member
        obtain ⟨x, read, _⟩ := (order b above entry rest code).moved v moves
        exact (List.getElem?_eq_some_iff.mp read).1
    have accepted : s.verify = .ok () := by
      unfold verify violation?
      rw [none]
      rfl
    exact ⟨resolved, wellStructured_of_verify accepted resolved order⟩
  · rintro ⟨resolved, rules⟩
    refine walked.mpr ⟨fun b listed => blockFindings_eq_nil_iff.mpr ⟨?_, ?_, ?_⟩, ?_⟩
    · exact ⟨resolved.blocks b listed, rules.handlers b listed⟩
    · exact fun i member => resolved.insns i (Layout.mem_allInsns_iff.mpr ⟨b, member⟩)
    · exact fun above entry rest => rules.inOrder resolved
    · exact rules.allocationFindings_eq_nil resolved

/-- The verifier answers as one walk through the scope does, and it accepts exactly the scopes that
keep the structural rules.  An identifier outside the arenas is a fault, so it is neither accepted
nor reported as a violation. -/
theorem verifier_accepts (s : Body) :
    Checked.checkInvariants s = s.walkAnswer ∧
      (Checked.checkInvariants s = .ok (.ok ()) ↔ s.Resolved ∧ s.WellStructured) :=
  ⟨s.checkInvariants_eq_walkAnswer, s.checkInvariants_ok_iff.trans findings_eq_nil_iff⟩

/-- Without position counters no block of two instructions is in order. -/
example : Body.walk { lending with layout := { lending.layout with positions := IdMap.const 0 } } =
    .error (.violation (.positionNotIncreasing 0)) := by decide

end Body

end FramePlacement
