import FramePlacement.Proofs.Extension
import FramePlacement.Proofs.StorePlacement
/-!
# One phase of an insertion

Inserting the stores or the loads of some marks weaves code around the marked instructions
(`Body.Woven`): a store of the marked variable somewhere right behind each, or a load right before
it, and nothing but stores or loads.  A write with a store of its variable behind it is not due one
(`not_dueStore_of_behind`), and a read with a load before it is not stale
(`not_staleRead_of_before`).
-/

set_option autoImplicit false

namespace FramePlacement

namespace Insn

def isStore : Insn → Bool
  | storeFrame _ => true
  | _ => false

def isLoad : Insn → Bool
  | loadFrame _ => true
  | _ => false

theorem isFrameInsn_of_isStore {insn : Insn} (store : insn.isStore = true) :
    insn.isFrameInsn = true := by
  cases insn with
  | storeFrame _ => rfl
  | _ => cases store

end Insn

/-- Weaving twice, the second time around the old elements alone. -/
theorem weave_weave {α β : Type} {key : α → β} {before behind more after : β → List α}
    {l : List α} (alone : ∀ i, ∀ x ∈ before i ++ behind i, more (key x) = [] ∧ after (key x) = []) :
    weave key more after (weave key before behind l) =
      weave key (fun i => before i ++ more i) (fun i => after i ++ behind i) l := by
  induction l with
  | nil => rfl
  | cons x rest ih =>
      have front : weave key more after (before (key x)) = before (key x) :=
        weave_of_nil fun y member => alone (key x) y (List.mem_append_left _ member)
      have back : weave key more after (behind (key x)) = behind (key x) :=
        weave_of_nil fun y member => alone (key x) y (List.mem_append_right _ member)
      rw [weave_cons, weave_append, weave_append, weave_cons, front, back, ih, weave_cons]
      simp only [List.append_assoc, List.cons_append]

namespace Side

variable {α : Type}

def arrange (side : Side) (l : List α) : List α :=
  match side with
  | before => l
  | behind => l.reverse

theorem mem_arrange {side : Side} {l : List α} {x : α} : x ∈ side.arrange l ↔ x ∈ l := by
  cases side with
  | before => rfl
  | behind => exact List.mem_reverse

theorem arrange_nil (side : Side) : side.arrange ([] : List α) = [] := by
  cases side <;> rfl

theorem arrange_singleton (side : Side) (x : α) : side.arrange [x] = [x] := by
  cases side <;> rfl

theorem join_nil (side : Side) (far : List α) : side.join (side.arrange []) far = far := by
  cases side with
  | before => exact List.append_nil far
  | behind => rfl

theorem join_arrange_nil (side : Side) (near : List α) :
    side.join (side.arrange near) [] = side.arrange near := by
  cases side with
  | before => rfl
  | behind => exact List.append_nil _

theorem join_arrange_append (side : Side) (earlier later far : List α) :
    side.join (side.arrange (earlier ++ later)) far =
      side.join (side.arrange later) (side.join (side.arrange earlier) far) := by
  cases side with
  | before => exact (List.append_assoc far earlier later).symm
  | behind =>
      change (earlier ++ later).reverse ++ far = later.reverse ++ (earlier.reverse ++ far)
      rw [List.reverse_append, List.append_assoc]

end Side

/-- The moves of the marks at one instruction, in the order of the marks; the marks get identifiers
from `start` on. -/
def movesAt (move : VarId → Insn) (i : InsnId) : InsnId → List Mark → Code
  | _, [] => []
  | start, mark :: marks =>
      (if i = mark.1 then [(start, move mark.2)] else []) ++ movesAt move i (start + 1) marks

section MovesAt

variable {move : VarId → Insn} {i : InsnId} {marks : List Mark}

theorem exists_mem_movesAt {v : VarId} (start : InsnId) (marked : (i, v) ∈ marks) :
    ∃ j, (j, move v) ∈ movesAt move i start marks := by
  induction marks generalizing start with
  | nil => cases marked
  | cons mark marks ih =>
      rw [movesAt]
      rcases List.mem_cons.mp marked with rfl | later
      · exact ⟨start, by simp⟩
      · obtain ⟨j, member⟩ := ih (start + 1) later
        exact ⟨j, List.mem_append_right _ member⟩

theorem marked_of_mem_movesAt {start : InsnId} {entry : InsnId × Insn}
    (member : entry ∈ movesAt move i start marks) : ∃ v, entry.2 = move v ∧ (i, v) ∈ marks := by
  induction marks generalizing start with
  | nil => cases member
  | cons mark marks ih =>
      rw [movesAt] at member
      rcases List.mem_append.mp member with here | later
      · split at here
        · next same =>
            rw [List.mem_singleton.mp here]
            exact ⟨mark.2, rfl, same ▸ List.mem_cons_self⟩
        · cases here
      · obtain ⟨v, moves, marked⟩ := ih later
        exact ⟨v, moves, List.mem_cons_of_mem mark marked⟩

theorem movesAt_of_unmarked (start : InsnId) (unmarked : ∀ v, ¬ (i, v) ∈ marks) :
    movesAt move i start marks = [] := by
  refine List.eq_nil_iff_forall_not_mem.mpr fun entry member => ?_
  obtain ⟨v, _, marked⟩ := marked_of_mem_movesAt member
  exact unmarked v marked

theorem movesAt_of_ascending (start : InsnId) (ascending : marks.Pairwise fun a b => a.1 < b.1) :
    movesAt move i start marks = [] ∨
      ∃ j v, movesAt move i start marks = [(j, move v)] ∧ (i, v) ∈ marks := by
  induction marks generalizing start with
  | nil => exact Or.inl rfl
  | cons mark marks ih =>
      rw [List.pairwise_cons] at ascending
      rw [movesAt]
      split
      · next same =>
          have alone : movesAt move i (start + 1) marks = [] := by
            refine movesAt_of_unmarked _ fun v marked => ?_
            exact absurd (ascending.1 _ marked) (by simp [same])
          rw [alone]
          exact Or.inr ⟨start, mark.2, rfl, same ▸ List.mem_cons_self⟩
      · rcases ih (start + 1) ascending.2 with none | ⟨j, v, one, marked⟩
        · exact Or.inl none
        · exact Or.inr ⟨j, v, one, List.mem_cons_of_mem mark marked⟩

end MovesAt

namespace Body

/-- `t` is `s` with frame instructions before and behind its instructions. -/
structure Woven (s t : Body) (before behind : InsnId → Code) : Prop where
  same : t = { s with layout := t.layout, insns := t.insns }
  blocks : t.layout.blocks = s.layout.blocks
  code : ∀ b, t.code b = weave Prod.fst before behind (s.code b)
  fresh : ∀ i, ∀ entry ∈ before i ++ behind i, s.owns entry = false ∧ entry.2.isFrameInsn = true
  grows : s.insns.size ≤ t.insns.size
  known : t.insnsKnown = true

namespace Woven

variable {s t : Body} {before behind : InsnId → Code} {new : Insn} {anchor : InsnId}

theorem refl (known : s.insnsKnown = true) : s.Woven s (fun _ => []) (fun _ => []) where
  same := rfl
  blocks := rfl
  code _ := (weave_of_nil fun _ _ => ⟨rfl, rfl⟩).symm
  fresh _ _ member := absurd member List.not_mem_nil
  grows := Nat.le_refl _
  known := known

theorem addBeside {side : Side} {around : InsnId → Code}
    (woven : s.Woven t (side.above around) (side.below around)) (old : anchor < s.insns.size)
    (frame : new.isFrameInsn = true) :
    s.Woven (t.addBeside side new anchor)
      (side.above fun i => side.join (if i = anchor then [(t.insns.size, new)] else []) (around i))
      (side.below fun i =>
        side.join (if i = anchor then [(t.insns.size, new)] else []) (around i)) := by
  obtain ⟨shape, blocks, added⟩ := t.addBeside_frame side new anchor
  have insns : (t.addBeside side new anchor).insns = t.insns.push new := by rw [shape]
  have whole := woven.same
  refine
    { same := ?_
      blocks := blocks.trans woven.blocks
      code := fun b => ?_
      fresh := fun i entry member => ?_
      grows := ?_
      known := insnsKnown_of_added woven.known insns added }
  · rw [insns, shape, whole]
  · rw [code_addBeside woven.known, woven.code, weave_weave, side.above_join, side.below_join]
    intro i entry member
    refine side.alone (fun same => ?_) _
    -- the code woven so far has identifiers that are not old
    have foreign := (woven.fresh i entry member).1
    rw [owns, same, decide_eq_true old] at foreign
    cases foreign
  · rcases Side.mem_join.mp (Side.mem_around.mp member) with here | earlier
    · split at here
      · rw [List.mem_singleton.mp here]
        exact ⟨decide_eq_false (Nat.not_lt_of_le woven.grows), frame⟩
      · cases here
    · exact woven.fresh i entry (Side.mem_around.mpr earlier)
  · rw [insns, Array.size_push]
    exact Nat.le_succ_of_le woven.grows

theorem insertBeside {side : Side} {move : VarId → Insn} {around : InsnId → Code}
    (frames : ∀ v, (move v).isFrameInsn = true)
    (woven : s.Woven t (side.above around) (side.below around)) (marks : List Mark)
    (old : ∀ mark ∈ marks, mark.1 < s.insns.size) :
    s.Woven (t.insertBeside side move marks)
      (side.above fun i => side.join (side.arrange (movesAt move i t.insns.size marks)) (around i))
      (side.below fun i =>
        side.join (side.arrange (movesAt move i t.insns.size marks)) (around i)) := by
  induction marks generalizing t around with
  | nil =>
      have same : (fun i => side.join (side.arrange (movesAt move i t.insns.size [])) (around i)) =
          around := funext fun i => side.join_nil (around i)
      rw [same]
      exact woven
  | cons mark marks ih =>
      have first := woven.addBeside (old _ List.mem_cons_self) (frames mark.2)
      have last := ih first fun mark member => old mark (List.mem_cons_of_mem _ member)
      have size : (t.addBeside side (move mark.2) mark.1).insns.size = t.insns.size + 1 := by
        rw [(t.addBeside_frame side _ _).1, Array.size_push]
      have same : (fun i => side.join (side.arrange (movesAt move i t.insns.size (mark :: marks)))
          (around i)) = fun i => side.join (side.arrange (movesAt move i (t.insns.size + 1) marks))
            (side.join (if i = mark.1 then [(t.insns.size, move mark.2)] else []) (around i)) := by
        funext i
        rw [movesAt, side.join_arrange_append]
        split
        · rw [side.arrange_singleton]
        · rw [side.arrange_nil]
      rw [size] at last
      rw [same]
      exact last

theorem split (woven : s.Woven t before behind) {b : BlockId} {above rest : Code}
    {entry : InsnId × Insn} (code : t.code b = above ++ entry :: rest)
    (own : s.owns entry = true) : ∃ front back, s.code b = front ++ entry :: back ∧
      above = weave Prod.fst before behind front ++ before entry.1 ∧
      rest = behind entry.1 ++ weave Prod.fst before behind back := by
  have inside : entry ∈ s.code b := by
    have member : entry ∈ t.code b := Body.mem_code_of_split code
    rw [woven.code] at member
    obtain ⟨other, among, here⟩ := List.mem_flatMap.mp member
    have foreign := woven.fresh other.1 entry
    rcases List.mem_append.mp here with front | back
    · rw [own] at foreign
      cases (foreign (List.mem_append_left _ front)).1
    · rcases List.mem_cons.mp back with rfl | back
      · exact among
      · rw [own] at foreign
        cases (foreign (List.mem_append_right _ back)).1
  obtain ⟨front, back, old⟩ := List.append_of_mem inside
  have whole : t.code b = (weave Prod.fst before behind front ++ before entry.1) ++
      entry :: (behind entry.1 ++ weave Prod.fst before behind back) := by
    rw [woven.code, old, weave_append, weave_cons]
    simp only [List.append_assoc, List.cons_append]
  obtain ⟨same, tail⟩ := code_split_unique code whole
  exact ⟨front, back, old, same, tail⟩

theorem filter_weave (woven : s.Woven t before behind) {l : Code}
    (own : ∀ entry ∈ l, s.owns entry = true) :
    (weave Prod.fst before behind l).filter s.owns = l := by
  have dropped : ∀ i, ∀ code : Code, (∀ entry ∈ code, entry ∈ before i ++ behind i) →
      code.filter s.owns = [] := by
    intro i code inside
    refine List.filter_eq_nil_iff.mpr fun entry member => ?_
    rw [(woven.fresh i entry (inside entry member)).1]
    exact Bool.false_ne_true
  induction l with
  | nil => rfl
  | cons entry rest ih =>
      rw [weave_cons, List.filter_append, List.filter_append, List.filter_cons_of_pos
        (own entry List.mem_cons_self), dropped entry.1 _ fun _ => List.mem_append_left _,
        dropped entry.1 _ fun _ => List.mem_append_right _,
        ih fun other member => own other (List.mem_cons_of_mem entry member)]
      rfl

theorem terminator_weave (woven : s.Woven t before behind) {l : Code}
    (bare : ∀ entry ∈ l, entry.2.isTerminator = true → behind entry.1 = []) :
    ((weave Prod.fst before behind l).getLast?.map Prod.snd).filter Insn.isTerminator =
      (l.getLast?.map Prod.snd).filter Insn.isTerminator := by
  induction l using List.reverseRecOn with
  | nil => rfl
  | append_singleton front entry _ =>
      rw [weave_append, weave_cons]
      cases back : behind entry.1 with
      | nil => simp [weave]
      | cons first more =>
          have notLast : entry.2.isTerminator = false := by
            cases ends : entry.2.isTerminator with
            | false => rfl
            | true =>
                rw [bare entry (by simp) ends] at back
                cases back
          have last : ∀ other ∈ behind entry.1, other.2.isTerminator = false :=
            fun other member => Insn.isTerminator_of_frame
              (woven.fresh entry.1 other (List.mem_append_right _ member)).2
          have shape : weave Prod.fst before behind front ++
              (before entry.1 ++ entry :: (first :: more) ++ weave Prod.fst before behind []) =
              (weave Prod.fst before behind front ++ before entry.1 ++ [entry]) ++
                (first :: more) := by
            simp [weave]
          rw [shape, List.getLast?_append_of_ne_nil _ (List.cons_ne_nil first more),
            List.getLast?_eq_getLast_of_ne_nil (List.cons_ne_nil first more)]
          have inside : (first :: more).getLast (List.cons_ne_nil first more) ∈ behind entry.1 := by
            rw [back]
            exact List.getLast_mem _
          have ends := last _ inside
          rw [List.getLast?_concat, Option.map_some, Option.map_some, Option.filter_some,
            Option.filter_some, ends, notLast]
          rfl

theorem toExtends (woven : s.Woven t before behind)
    (bare : ∀ b, ∀ entry ∈ s.code b, entry.2.isTerminator = true → behind entry.1 = []) :
    s.Extends t where
  same := woven.same
  blocks := woven.blocks
  code b := by
    rw [woven.code]
    exact woven.filter_weave fun entry member => decide_eq_true (lt_size_of_mem_code member)
  fresh b entry member foreign := by
    rw [woven.code] at member
    obtain ⟨other, among, here⟩ := List.mem_flatMap.mp member
    rcases List.mem_append.mp here with front | back
    · exact (woven.fresh other.1 entry (List.mem_append_left _ front)).2
    · rcases List.mem_cons.mp back with rfl | back
      · have own : s.owns entry = true := decide_eq_true (lt_size_of_mem_code among)
        rw [own] at foreign
        cases foreign
      · exact (woven.fresh other.1 entry (List.mem_append_right _ back)).2
  terminator b := by
    unfold terminator? lastInsn?
    rw [woven.code]
    exact woven.terminator_weave (bare b)
  grows := woven.grows

end Woven

/-- Inserting the moves of some marks weaves exactly these moves around a scope. -/
theorem woven_movesAt {s : Body} (known : s.insnsKnown = true) (side : Side)
    {move : VarId → Insn} (frames : ∀ v, (move v).isFrameInsn = true) {marks : List Mark}
    (old : ∀ mark ∈ marks, mark.1 < s.insns.size) :
    s.Woven (s.insertBeside side move marks)
      (side.above fun i => side.arrange (movesAt move i s.insns.size marks))
      (side.below fun i => side.arrange (movesAt move i s.insns.size marks)) := by
  have start : s.Woven s (side.above fun _ => []) (side.below fun _ => []) := by
    cases side <;> exact Woven.refl known
  have all := start.insertBeside frames marks old
  simp only [side.join_arrange_nil] at all
  exact all

theorem woven_insertBeside {s : Body} (known : s.insnsKnown = true) (side : Side)
    {move : VarId → Insn} (frames : ∀ v, (move v).isFrameInsn = true) {marks : List Mark}
    (old : ∀ mark ∈ marks, mark.1 < s.insns.size) :
    ∃ around, s.Woven (s.insertBeside side move marks) (side.above around) (side.below around) ∧
      (∀ i v, (i, v) ∈ marks → ∃ j, (j, move v) ∈ around i) ∧
      ∀ i, ∀ entry ∈ around i, ∃ v, entry.2 = move v ∧ (i, v) ∈ marks := by
  refine ⟨_, woven_movesAt known side frames old, ?_, ?_⟩
  · intro i v marked
    obtain ⟨j, member⟩ := exists_mem_movesAt s.insns.size marked
    exact ⟨j, Side.mem_arrange.mpr member⟩
  · intro i entry member
    exact marked_of_mem_movesAt (Side.mem_arrange.mp member)

end Body

/-! ## What a phase settles -/

section Settles

variable {s t : Body} {e : Effects} {before behind : InsnId → Code} {v : VarId}

theorem leads_blocked {b : BlockId} {moves rest : Code} (stores : ∀ m ∈ moves, m.2.isStore = true)
    (blocks : ∃ j, (j, Insn.storeFrame v) ∈ moves) {point : Point}
    (leads : Leads t (e.StaysUnsynced v) ⟨b, moves ++ rest⟩ point) :
    ∃ left, point = ⟨b, left ++ rest⟩ ∧ (∀ m ∈ left, m.2.isStore = true) ∧
      ∃ j, (j, Insn.storeFrame v) ∈ left := by
  -- the path stays among the moves, and the store of the variable stays ahead of it
  induction leads with
  | here => exact ⟨moves, rfl, stores, blocks⟩
  | @complete c entry below _ passes ih =>
      obtain ⟨left, same, all, j, member⟩ := ih
      cases left with
      | nil => cases member
      | cons first left =>
          cases same
          refine ⟨left, rfl, fun m inside => all m (List.mem_cons_of_mem entry inside), ?_⟩
          rcases List.mem_cons.mp member with rfl | later
          · have syncs := passes.2
            simp [Effects.syncs, Insn.movedVar?] at syncs
          · exact ⟨j, later⟩
  | @raise c handler entry below _ raises _ _ ih =>
      obtain ⟨left, same, all, j, member⟩ := ih
      cases left with
      | nil => cases member
      | cons first left =>
          cases same
          have frame := Insn.isFrameInsn_of_isStore (all entry List.mem_cons_self)
          rw [Insn.canRaise_of_frame frame] at raises
          cases raises
  | edge _ _ ih =>
      obtain ⟨left, same, _, j, member⟩ := ih
      cases left with
      | nil => cases member
      | cons first left => cases same

theorem not_dueStore_of_behind (woven : s.Woven t before behind) {w : InsnId}
    (stores : ∀ entry ∈ behind w, entry.2.isStore = true)
    (placed : ∃ j, (j, Insn.storeFrame v) ∈ behind w) (old : w < s.insns.size) :
    ¬ e.DueStore t w v := by
  rintro ⟨b, above, insn, rest, point, code, writes, leads, observes⟩
  obtain ⟨front, back, _, _, tail⟩ := woven.split code (decide_eq_true old)
  rw [tail] at leads
  obtain ⟨left, same, all, j, member⟩ := leads_blocked stores placed leads
  cases left with
  | nil => cases member
  | cons first left =>
      subst same
      have store := all first List.mem_cons_self
      obtain ⟨k, head⟩ := first
      cases head with
      | storeFrame x =>
          have observed := Effects.observes_cons_iff.mp observes
          exact IdSet.not_mem_empty v observed
      | _ => cases store

theorem not_mayBeStale_behind_loads {b : BlockId} {above loads rest : Code}
    (code : t.code b = above ++ (loads ++ rest)) (all : ∀ m ∈ loads, m.2.isLoad = true)
    (placed : ∃ j, (j, Insn.loadFrame v) ∈ loads) : ¬ e.MayBeStale t v ⟨b, rest⟩ := by
  induction loads using List.reverseRecOn generalizing rest with
  | nil =>
      obtain ⟨_, none⟩ := placed
      cases none
  | append_singleton loads last ih =>
      intro stale
      have here : t.code b = (above ++ loads) ++ last :: rest := by simpa using code
      have load : last.2.isLoad = true := all last (by simp)
      obtain ⟨i, insn⟩ := last
      cases insn with
      | loadFrame x =>
          rcases (arises_behind_iff here).mp stale with starts | ⟨earlier, kept⟩
          · cases starts.1
          · obtain ⟨j, member⟩ := placed
            rcases List.mem_append.mp member with before | here
            · have others : ∀ m ∈ loads, m.2.isLoad = true :=
                fun m inside => all m (List.mem_append_left _ inside)
              exact ih (by simpa using code) others ⟨j, before⟩ earlier
            · cases List.mem_singleton.mp here
              exact kept.2.2 rfl
      | _ => cases load

theorem not_staleRead_of_before (woven : s.Woven t before behind) {r : InsnId}
    (loads : ∀ entry ∈ before r, entry.2.isLoad = true)
    (placed : ∃ j, (j, Insn.loadFrame v) ∈ before r) (old : r < s.insns.size) :
    ¬ e.StaleRead t r v := by
  rintro ⟨b, above, insn, rest, code, _, _, stale⟩
  obtain ⟨front, back, _, head, _⟩ := woven.split code (decide_eq_true old)
  rw [head, List.append_assoc] at code
  exact not_mayBeStale_behind_loads code loads placed stale

end Settles

end FramePlacement
