import FramePlacement.Effects
import FramePlacement.Proofs.Path
import Mathlib.Data.List.Flatten
/-!
# What the effects of a scope expose

Only the calls of a scope expose anything, and only candidates (`mem_exposure_iff`).  Nested code
never writes what it may not also observe, and the variables observed at an exit are candidates as
well.
-/

set_option autoImplicit false

namespace FramePlacement

/-! ## The code of a scope -/

theorem Layout.insns_nodup (l : Layout) (b : BlockId) : (l.insns b).Nodup := by
  have whole := l.allInsns_nodup
  rw [Layout.allInsns_eq] at whole
  by_cases listed : b ∈ l.blocks
  · exact (List.nodup_flatMap.mp whole).1 b listed
  · rw [Layout.insns_of_not_mem listed]
    exact List.nodup_nil

namespace Body

variable {s : Body} {captures : Captures}

theorem mem_code_iff {b : BlockId} {i : InsnId} {insn : Insn} :
    (i, insn) ∈ s.code b ↔ i ∈ s.layout.insns b ∧ s.insn? i = some insn := by
  unfold code
  rw [List.mem_filterMap]
  constructor
  · rintro ⟨j, listed, found⟩
    obtain ⟨other, read, same⟩ := Option.map_eq_some_iff.mp found
    cases same
    exact ⟨listed, read⟩
  · rintro ⟨listed, read⟩
    exact ⟨i, listed, by rw [read]; rfl⟩

theorem mem_code_of_split {b : BlockId} {above rest : Code} {entry : InsnId × Insn}
    (split : s.code b = above ++ entry :: rest) : entry ∈ s.code b := by
  rw [split]
  exact List.mem_append_right above List.mem_cons_self

theorem insn_unique {b c : BlockId} {i : InsnId} {insn other : Insn}
    (here : (i, insn) ∈ s.code b) (there : (i, other) ∈ s.code c) : insn = other :=
  Option.some.inj ((mem_code_iff.mp here).2.symm.trans (mem_code_iff.mp there).2)

theorem map_fst_code (s : Body) (b : BlockId) :
    (s.code b).map Prod.fst = (s.layout.insns b).filter fun i => (s.insn? i).isSome := by
  unfold code
  induction s.layout.insns b with
  | nil => rfl
  | cons i rest ih =>
      cases read : s.insn? i with
      | none => simpa [read] using ih
      | some insn => simpa [read] using ih

theorem code_nodup (s : Body) (b : BlockId) : ((s.code b).map Prod.fst).Nodup := by
  rw [map_fst_code]
  exact (s.layout.insns_nodup b).filter _

theorem takeWhile_ne {i : InsnId} {insn : Insn} {whole above rest : Code}
    (distinct : (whole.map Prod.fst).Nodup) (split : whole = above ++ (i, insn) :: rest) :
    (whole.takeWhile fun entry => entry.1 != i) = above := by
  subst split
  rw [List.map_append, List.nodup_append] at distinct
  have others : ∀ entry ∈ above, (entry.1 != i) = true := by
    intro entry member
    have differ := distinct.2.2 entry.1 (List.mem_map_of_mem member) i (by simp)
    simpa using differ
  rw [List.takeWhile_append_of_pos others]
  simp

theorem code_split_unique {b : BlockId} {above rest front back : Code} {entry : InsnId × Insn}
    (code : s.code b = above ++ entry :: rest) (other : s.code b = front ++ entry :: back) :
    above = front ∧ rest = back := by
  have distinct : (s.code b).Nodup := List.Nodup.of_map Prod.fst (s.code_nodup b)
  rw [code] at distinct
  have absent := List.nodup_append.mp distinct
  have notAbove : ¬ entry ∈ above :=
    fun member => absent.2.2 entry member entry List.mem_cons_self rfl
  have notRest := (List.nodup_cons.mp absent.2.1).1
  obtain ⟨same, _, tail⟩ := (List.append_cons_inj_of_notMem notAbove notRest).mp
    (code.symm.trans other)
  exact ⟨same, tail⟩

theorem allCode_nodup (s : Body) : (s.allCode.map Prod.fst).Nodup := by
  have sublist : (s.allCode.map Prod.fst).Sublist s.layout.allInsns := by
    rw [Layout.allInsns_eq, allCode, List.map_flatMap]
    refine List.Sublist.flatMap_right s.layout.blocks fun b _ => ?_
    rw [map_fst_code]
    exact List.filter_sublist
  exact s.layout.allInsns_nodup.sublist sublist

theorem mem_allCode_iff {entry : InsnId × Insn} : entry ∈ s.allCode ↔ ∃ b, entry ∈ s.code b := by
  constructor
  · intro member
    obtain ⟨b, _, inside⟩ := List.mem_flatMap.mp member
    exact ⟨b, inside⟩
  · rintro ⟨b, inside⟩
    exact mem_allCode_of_mem_code inside

/-! ## Exposure at calls -/

theorem lookup_eq_some_iff {α : Type} {entries : List (Nat × α)} {i : Nat} {a : α}
    (distinct : (entries.map Prod.fst).Nodup) :
    entries.lookup i = some a ↔ (i, a) ∈ entries := by
  induction entries with
  | nil => simp
  | cons entry rest ih =>
      obtain ⟨j, c⟩ := entry
      rw [List.map_cons, List.nodup_cons] at distinct
      by_cases same : i = j
      · subst same
        have absent : ∀ d, ¬ (i, d) ∈ rest :=
          fun d member => distinct.1 (List.mem_map.mpr ⟨(i, d), member, rfl⟩)
        rw [List.lookup_cons_self]
        simp [absent, eq_comm]
      · have miss : (i == j) = false := by simpa using same
        rw [List.lookup_cons, miss, List.mem_cons]
        dsimp only
        rw [ih distinct.2]
        simp [same]

theorem mem_exposure_iff {part : CaptureSummary → IdSet} {i : InsnId} {v : VarId} :
    v ∈ (s.exposure captures part).get i ↔ ∃ insn, (i, insn) ∈ s.allCode ∧ insn.isCall = true ∧
      v ∈ exposed s.leaksBinding s.frameCandidates captures part insn := by
  unfold exposure IdMap.get IdMap.ofPairs
  dsimp only
  have distinct : (((s.allCode.filter fun entry => entry.2.isCall).map fun entry =>
      (entry.1, exposed s.leaksBinding s.frameCandidates captures part entry.2)).map
        Prod.fst).Nodup := by
    rw [List.map_map]
    exact s.allCode_nodup.sublist (List.Sublist.map _ List.filter_sublist)
  constructor
  · intro member
    cases found : ((s.allCode.filter fun entry => entry.2.isCall).map fun entry =>
        (entry.1, exposed s.leaksBinding s.frameCandidates captures part entry.2)).lookup i with
    | none =>
        rw [found] at member
        exact absurd member (IdSet.not_mem_empty v)
    | some set =>
        rw [found] at member
        obtain ⟨⟨j, insn⟩, listed, same⟩ := List.mem_map.mp ((lookup_eq_some_iff distinct).mp found)
        cases same
        obtain ⟨inside, call⟩ := List.mem_filter.mp listed
        exact ⟨insn, inside, call, member⟩
  · rintro ⟨insn, inside, call, member⟩
    have listed : (i, exposed s.leaksBinding s.frameCandidates captures part insn) ∈
        (s.allCode.filter fun entry => entry.2.isCall).map fun entry =>
          (entry.1, exposed s.leaksBinding s.frameCandidates captures part entry.2) :=
      List.mem_map.mpr ⟨(i, insn), List.mem_filter.mpr ⟨inside, call⟩, rfl⟩
    rw [(lookup_eq_some_iff distinct).mpr listed]
    exact member

theorem exposed_subset {leaks : Bool} {candidates : IdSet} {part : CaptureSummary → IdSet}
    {insn : Insn} {v : VarId} (member : v ∈ exposed leaks candidates captures part insn) :
    v ∈ candidates := by
  unfold exposed at member
  split at member
  · exact member
  · split at member
    · exact (IdSet.mem_inter.mp member).2
    · exact absurd member (IdSet.not_mem_empty v)

theorem exposed_mono {leaks : Bool} {candidates : IdSet} {part more : CaptureSummary → IdSet}
    (grows : ∀ summary v, v ∈ part summary → v ∈ more summary) {insn : Insn} {v : VarId}
    (member : v ∈ exposed leaks candidates captures part insn) :
    v ∈ exposed leaks candidates captures more insn := by
  unfold exposed at member ⊢
  split at member
  · next leak =>
      rw [if_pos leak]
      exact member
  · next kept =>
      rw [if_neg kept]
      split at member
      · obtain ⟨inPart, inCandidates⟩ := IdSet.mem_inter.mp member
        exact IdSet.mem_inter.mpr ⟨grows _ v inPart, inCandidates⟩
      · exact absurd member (IdSet.not_mem_empty v)

/-! ## Effects of a scope -/

theorem observed_subset {i : InsnId} {v : VarId}
    (member : v ∈ (s.effects captures).observed.get i) : v ∈ (s.effects captures).candidates := by
  obtain ⟨_, _, _, exposes⟩ := mem_exposure_iff.mp member
  exact exposed_subset exposes

theorem clobbered_subset {i : InsnId} {v : VarId}
    (member : v ∈ (s.effects captures).clobbered.get i) : v ∈ (s.effects captures).candidates := by
  obtain ⟨_, _, _, exposes⟩ := mem_exposure_iff.mp member
  exact exposed_subset exposes

theorem observed_of_clobbered {i : InsnId} {v : VarId}
    (member : v ∈ (s.effects captures).clobbered.get i) :
    v ∈ (s.effects captures).observed.get i := by
  obtain ⟨insn, inside, call, exposes⟩ := mem_exposure_iff.mp member
  have more : v ∈ exposed s.leaksBinding s.frameCandidates captures CaptureSummary.touched insn :=
    exposed_mono (fun _ _ written => IdSet.mem_union.mpr (Or.inr written)) exposes
  exact mem_exposure_iff.mpr ⟨insn, inside, call, more⟩

theorem isCall_of_observed {i : InsnId} {insn : Insn} {v : VarId} (inside : (i, insn) ∈ s.allCode)
    (member : v ∈ (s.effects captures).observed.get i) : insn.isCall = true := by
  obtain ⟨other, also, call, _⟩ := mem_exposure_iff.mp member
  have same := List.inj_on_of_nodup_map s.allCode_nodup inside also rfl
  cases same
  exact call

theorem isCall_of_clobbered {i : InsnId} {insn : Insn} {v : VarId} (inside : (i, insn) ∈ s.allCode)
    (member : v ∈ (s.effects captures).clobbered.get i) : insn.isCall = true :=
  isCall_of_observed inside (observed_of_clobbered member)

theorem mem_frameCandidates_of_enclosing {v : VarId} (member : v ∈ s.vars.enclosing) :
    v ∈ s.frameCandidates := by
  unfold frameCandidates
  exact IdSet.mem_insertAll.mpr (Or.inl member)

theorem mem_frameCandidates_of_captured {v : VarId} (member : v ∈ s.captured) :
    v ∈ s.frameCandidates := by
  unfold frameCandidates
  refine IdSet.mem_insertAll.mpr (Or.inr ?_)
  split
  · exact IdSet.mem_insertAll.mpr (Or.inr member)
  · exact member

theorem enclosing_subset {v : VarId} (member : v ∈ (s.effects captures).enclosing) :
    v ∈ (s.effects captures).candidates :=
  mem_frameCandidates_of_enclosing (IdSet.mem_ofList.mp member)

theorem exitObserved_subset {v : VarId} (member : v ∈ (s.effects captures).exitObserved) :
    v ∈ (s.effects captures).candidates := by
  unfold effects at member ⊢
  dsimp only at member ⊢
  split at member
  · exact member
  · exact mem_frameCandidates_of_enclosing (IdSet.mem_ofList.mp member)

end Body

end FramePlacement
