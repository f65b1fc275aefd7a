import FramePlacement.Proofs.Path
import FramePlacement.Verifier
/-!
# Scopes the verifier accepts

The verifier accepts a scope when none of its findings is a violation.  Control then keeps to the
layout and meets terminators only at the ends of blocks (`Body.Orderly`).
-/

set_option autoImplicit false

namespace FramePlacement

/-- Control keeps to the layout and meets terminators only at the ends of blocks. -/
structure Body.Orderly (s : Body) : Prop where
  last : ∀ {b : BlockId} {above rest : Code} {entry : InsnId × Insn},
    s.code b = above ++ entry :: rest → entry.2.isTerminator = true → rest = []
  target : ∀ {b : BlockId} {above rest : Code} {entry : InsnId × Insn} {dest : BlockId},
    s.code b = above ++ entry :: rest → dest ∈ entry.2.targets → dest ∈ s.layout.blocks
  handler : ∀ {b handler : BlockId}, b ∈ s.layout.blocks → s.handler? b = some handler →
    handler ∈ s.layout.blocks

namespace Body

variable {s : Body} {b : BlockId}

theorem not_violation_of_verify (accepted : s.verify = .ok ()) (cause : Violation) :
    ¬ Finding.violation cause ∈ s.findings := by
  intro member
  unfold verify at accepted
  split at accepted
  · cases accepted
  · next none => cases List.findSome?_eq_none_iff.mp none _ member

/-- The walk through a block looks at each of its instructions, knowing the code before it. -/
theorem insnFindings_subset {i : InsnId} {insn : Insn} (read : s.insn? i = some insn)
    (earlier : Code) (before after : List InsnId) :
    s.insnFindings b (earlier ++ before.filterMap fun j => (s.insn? j).map fun other => (j, other))
      i insn (!after.isEmpty) ⊆ s.codeFindings b earlier (before ++ i :: after) := by
  induction before generalizing earlier with
  | nil =>
      rw [List.nil_append, codeFindings, read, List.filterMap_nil, List.append_nil]
      exact List.subset_append_left _ _
  | cons j before ih =>
      rw [List.cons_append, codeFindings]
      cases other : s.insn? j with
      | none =>
          rw [List.filterMap_cons_none (by rw [other]; rfl)]
          exact List.subset_cons_of_subset _ (ih earlier)
      | some head =>
          rw [List.filterMap_cons_some (by rw [other]; rfl), ← List.singleton_append,
            ← List.append_assoc]
          exact List.subset_append_of_subset_right _ (ih _)

theorem insnFindings_of_code {above rest : Code} {entry : InsnId × Insn}
    (code : s.code b = above ++ entry :: rest) :
    ∃ followed, (rest ≠ [] → followed = true) ∧
      s.insnFindings b above entry.1 entry.2 followed ⊆ s.findings := by
  obtain ⟨before, others, row, rfl, tail⟩ := List.filterMap_eq_append_iff.mp code
  obtain ⟨skipped, i, after, rfl, dropped, head, rfl⟩ := List.filterMap_eq_cons_iff.mp tail
  obtain ⟨insn, read, rfl⟩ := Option.map_eq_some_iff.mp head
  have above : ((before ++ skipped).filterMap fun j => (s.insn? j).map fun other => (j, other)) =
      before.filterMap fun j => (s.insn? j).map fun other => (j, other) := by
    rw [List.filterMap_append, List.filterMap_eq_nil_iff.mpr dropped, List.append_nil]
  have inside := insnFindings_subset (b := b) read [] (before ++ skipped) after
  rw [List.nil_append, above, List.append_assoc, ← row] at inside
  refine ⟨!after.isEmpty, ?_, ?_⟩
  · intro more
    cases after with
    | nil => exact absurd rfl more
    | cons _ _ => rfl
  · refine List.Subset.trans inside fun finding member => ?_
    refine List.mem_append_left _ (List.mem_flatMap.mpr ⟨b, mem_blocks_of_code code, ?_⟩)
    exact List.mem_append_right _ member

/-- What the walk finds in a block is found at one of its instructions, if all of them are known. -/
theorem mem_codeFindings_iff {finding : Finding} {row : List InsnId}
    (known : ∀ i ∈ row, i < s.insns.size) (earlier : Code) :
    finding ∈ s.codeFindings b earlier row ↔ ∃ above entry rest,
      (row.filterMap fun i => (s.insn? i).map fun insn => (i, insn)) = above ++ entry :: rest ∧
      finding ∈ s.insnFindings b (earlier ++ above) entry.1 entry.2 (!rest.isEmpty) := by
  induction row generalizing earlier with
  | nil => simp [codeFindings]
  | cons i row ih =>
      have below := known i List.mem_cons_self
      obtain ⟨insn, read⟩ : ∃ insn, s.insn? i = some insn := ⟨_, Array.getElem?_eq_getElem below⟩
      have others : ∀ j ∈ row, j < s.insns.size := fun j member =>
        known j (List.mem_cons_of_mem i member)
      have ends : (row.filterMap fun j => (s.insn? j).map fun other => (j, other)).isEmpty =
          row.isEmpty := by
        cases row with
        | nil => rfl
        | cons j row =>
            have next := others j List.mem_cons_self
            unfold insn?
            rw [List.filterMap_cons, Array.getElem?_eq_getElem next]
            rfl
      rw [codeFindings, read, List.filterMap_cons, read]
      dsimp only [Option.map_some]
      rw [List.mem_append, ih others]
      constructor
      · rintro (here | ⟨above, entry, rest, code, found⟩)
        · exact ⟨[], (i, insn), _, rfl, by rw [ends, List.append_nil]; exact here⟩
        · refine ⟨(i, insn) :: above, entry, rest, by rw [code]; rfl, ?_⟩
          rw [List.append_cons]
          exact found
      · rintro ⟨above, entry, rest, code, found⟩
        cases above with
        | nil =>
            cases code
            rw [ends, List.append_nil] at found
            exact Or.inl found
        | cons first above =>
            cases (List.cons.inj code).1
            rw [List.append_cons] at found
            exact Or.inr ⟨above, entry, rest, (List.cons.inj code).2, found⟩

theorem mem_blockFindings_iff {finding : Finding}
    (known : ∀ i ∈ s.layout.allInsns, i < s.insns.size) :
    finding ∈ s.blockFindings b ↔ finding ∈ s.handlerFindings b ∨ ∃ above entry rest,
      s.code b = above ++ entry :: rest ∧
      finding ∈ s.insnFindings b above entry.1 entry.2 (!rest.isEmpty) := by
  unfold blockFindings
  rw [List.mem_append, mem_codeFindings_iff]
  · rfl
  · exact fun i member => known i (Layout.mem_allInsns_iff.mpr ⟨b, member⟩)

theorem orderly_of_verify (accepted : s.verify = .ok ()) : s.Orderly where
  last {b above rest entry} code ends := by
    obtain ⟨followed, more, inside⟩ := insnFindings_of_code code
    by_contra notLast
    rw [more notLast] at inside
    refine not_violation_of_verify accepted (.terminatorNotLast b) (inside ?_)
    simp [insnFindings, Finding.ifBroken, ends]
  target {b above rest entry dest} code target := by
    obtain ⟨followed, _, inside⟩ := insnFindings_of_code code
    by_contra missing
    refine not_violation_of_verify accepted (.branchToMissingBlock b) (inside ?_)
    have broken : (entry.2.targets.any fun target => !s.layout.hasBlock target) = true := by
      refine List.any_eq_true.mpr ⟨dest, target, ?_⟩
      simpa [Layout.hasBlock] using missing
    simp [insnFindings, Finding.ifBroken, broken]
  handler {b handler} listed handled := by
    by_contra missing
    refine not_violation_of_verify accepted (.handlerNotInLayout b)
      (List.mem_append_left _ (List.mem_flatMap.mpr ⟨b, listed, List.mem_append_left _ ?_⟩))
    have read : s.handlers[b]? = some (some handler) := by
      unfold handler? at handled
      cases found : s.handlers[b]? with
      | none => rw [found] at handled; cases handled
      | some other => rw [found] at handled; rw [show other = some handler from handled]
    have absent : s.layout.hasBlock handler = false := by simpa [Layout.hasBlock] using missing
    simp [handlerFindings, read, Finding.ifBroken, absent]

end Body

end FramePlacement
