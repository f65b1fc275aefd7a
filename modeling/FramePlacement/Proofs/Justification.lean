import FramePlacement.Proofs.Insertions
import FramePlacement.Proofs.Lifting
/-!
# Why each move was inserted

Every store and every load of a placement was due in some scope between the one that was placed and
the result, one that did not have it yet (`Body.insertFrameInsns_due`): the stores of the first
round in the scope itself, the loads in the scope with these stores, and the stores of the third
round in the scope with the stores and the loads.  Between a load and its read stand no other loads
of its variable.
-/

set_option autoImplicit false

namespace FramePlacement

theorem movesAt_nodup {move : VarId → Insn} (distinctMoves : ∀ x y, move x = move y → x = y)
    {i : InsnId} {marks : List Mark} (start : InsnId) (distinct : marks.Nodup) :
    ((movesAt move i start marks).map Prod.snd).Nodup := by
  induction marks generalizing start with
  | nil => exact List.nodup_nil
  | cons mark marks ih =>
      rw [List.nodup_cons] at distinct
      rw [movesAt]
      split
      · next same =>
          rw [List.singleton_append, List.map_cons, List.nodup_cons]
          refine ⟨fun repeated => ?_, ih _ distinct.2⟩
          obtain ⟨entry, member, moves⟩ := List.mem_map.mp repeated
          obtain ⟨v, also, marked⟩ := marked_of_mem_movesAt member
          have var : v = mark.2 := distinctMoves _ _ (also.symm.trans moves)
          rw [var, same] at marked
          exact distinct.1 marked
      · exact ih _ distinct.2

namespace Body

structure Before (s t m : Body) (j : InsnId) : Prop where
  wider : s.Extends m
  thinner : m.Extends t
  without : m.insns.size ≤ j

/-- Every new store stands right behind an old write that was due it before it was there. -/
def StoresDue (e : Effects) (s t : Body) : Prop :=
  ∀ b above rest j v, t.code b = above ++ (j, .storeFrame v) :: rest →
    s.owns (j, .storeFrame v) = false →
    ∃ front write m, above = front ++ [write] ∧ write ∈ s.code b ∧
      write.2.writesSlot v = true ∧ s.Before t m j ∧ e.DueStore m write.1 v

/-- Every new load stands before an old read that was stale before it was there, with nothing but
new loads of other variables between them. -/
def LoadsDue (e : Effects) (s t : Body) : Prop :=
  ∀ b above rest j v, t.code b = above ++ (j, .loadFrame v) :: rest →
    s.owns (j, .loadFrame v) = false →
    ∃ loads read back m, rest = loads ++ read :: back ∧
      (∀ load ∈ loads, s.owns load = false ∧ load.2.isLoad = true ∧ load.2 ≠ .loadFrame v) ∧
      read ∈ s.code b ∧ read.2.isFrameInsn = false ∧ v ∈ read.2.usedVars ∧
      s.Before t m j ∧ e.StaleRead m read.1 v

section Rounds

variable {s : Body} {e : Effects} {first loads second : List Mark}
  (known : s.insnsKnown = true) (due : ∀ w v, (w, v) ∈ first ↔ e.DueStore s w v)
  (stale : ∀ r v, (r, v) ∈ loads ↔ e.StaleRead (s.withStores first) r v)
  (again : ∀ w v, (w, v) ∈ second ↔
    e.DueStore ((s.withStores first).withLoads loads) w v)
  (ascending : first.Pairwise fun a b => a.1 < b.1)
  (ascendingAgain : second.Pairwise fun a b => a.1 < b.1)
include known due stale again ascending ascendingAgain

theorem storesDue_rounds :
    StoresDue e s (((s.withStores first).withLoads loads).withStores second) := by
  obtain ⟨stored, storedKnown, _⟩ := withStores_settles known due
  obtain ⟨loaded, loadedKnown, _⟩ := withLoads_settles storedKnown stale
  obtain ⟨last, _, _⟩ := withStores_settles loadedKnown again
  obtain ⟨three, all⟩ := woven_threeRounds known due stale again
  obtain ⟨ahead, after⟩ := woven_rounds known due stale again ascending ascendingAgain
  have whole := (stored.trans loaded).trans last
  intro b above rest j v code new
  obtain ⟨front, write, same, member, writes, inside⟩ := all.store_place ahead after code new
  refine ⟨front, write, ?_⟩
  rcases List.mem_append.mp inside with late | early
  · obtain ⟨x, store, marked⟩ := marked_of_mem_movesAt (List.mem_reverse.mp late)
    cases store
    have foreign := (three.fresh write.1 (j, .storeFrame v) (List.mem_append_right _ late)).1
    exact ⟨_, same, member, writes,
      ⟨stored.trans loaded, last, Nat.le_of_not_lt (of_decide_eq_false foreign)⟩,
      (again _ _).mp marked⟩
  · obtain ⟨x, store, marked⟩ := marked_of_mem_movesAt (List.mem_reverse.mp early)
    cases store
    exact ⟨s, same, member, writes,
      ⟨Extends.refl s, whole, Nat.le_of_not_lt (of_decide_eq_false new)⟩, (due _ _).mp marked⟩

theorem loadsDue_rounds (distinct : loads.Nodup) :
    LoadsDue e s (((s.withStores first).withLoads loads).withStores second) := by
  obtain ⟨stored, storedKnown, _⟩ := withStores_settles known due
  obtain ⟨loaded, loadedKnown, _⟩ := withLoads_settles storedKnown stale
  obtain ⟨last, _, _⟩ := withStores_settles loadedKnown again
  obtain ⟨_, all⟩ := woven_threeRounds known due stale again
  obtain ⟨ahead, after⟩ := woven_rounds known due stale again ascending ascendingAgain
  have two : (s.withStores first).Woven ((s.withStores first).withLoads loads)
      (fun i => movesAt .loadFrame i (s.withStores first).insns.size loads) (fun _ => []) :=
    woven_movesAt storedKnown .before (fun _ => rfl)
      fun mark member => lt_size_of_staleRead ((stale mark.1 mark.2).mp member)
  intro b above rest j v code new
  obtain ⟨far, near, read, back, member, parts, same⟩ := all.load_place after code new
  have inside : ∀ one ∈ near, one ∈ movesAt .loadFrame read.1
      (s.withStores first).insns.size loads := fun one among => by rw [parts]; simp [among]
  have here : (j, Insn.loadFrame v) ∈ movesAt .loadFrame read.1
      (s.withStores first).insns.size loads := by rw [parts]; simp
  obtain ⟨x, load, plain, used⟩ := ahead b read member _ here
  cases load
  obtain ⟨x, load, marked⟩ := marked_of_mem_movesAt here
  cases load
  have foreign := (two.fresh read.1 _ (List.mem_append_left _ here)).1
  refine ⟨near, read, back, _, same, fun one among => ⟨?_, ?_, ?_⟩, member, plain, used,
    ⟨stored, loaded.trans last, Nat.le_of_not_lt (of_decide_eq_false foreign)⟩,
    (stale _ _).mp marked⟩
  · exact (all.fresh read.1 one (List.mem_append_left _ (inside one among))).1
  · obtain ⟨y, load, _⟩ := marked_of_mem_movesAt (inside one among)
    rw [load]
    rfl
  · -- the marks at one read are for distinct variables
    intro load
    have vars := movesAt_nodup (fun _ _ => Insn.loadFrame.inj) (i := read.1)
      (s.withStores first).insns.size distinct
    rw [parts, List.map_append, List.map_cons, List.nodup_append, List.nodup_cons] at vars
    exact vars.2.1.1 (List.mem_map.mpr ⟨one, among, load⟩)

end Rounds

variable {s t : Body} {captures : Captures} {stats : Stats}

theorem insertFrameInsns_due (known : s.insnsKnown = true)
    (placed : s.insertFrameInsns (s.effects captures) s.flowGraph = .ok (t, stats)) :
    StoresDue (s.effects captures) s t ∧ LoadsDue (s.effects captures) s t := by
  obtain ⟨moved, done, moves, rfl, _⟩ := insertFrameInsns_eq_ok placed
  obtain ⟨_, movedKnown, _, _⟩ := insertMoves_settled known moves
  obtain ⟨_, opens⟩ := allocated_opens movedKnown (s.effects captures)
  obtain ⟨more, _, _⟩ := moved.allocated_extends movedKnown (s.effects captures)
  obtain ⟨first, loads, second, rfl, due, stale, again, ascending, ascendingAgain, _, distinct⟩ :=
    insertMoves_phases known moves
  have widen : ∀ {m j}, s.Before _ m j → s.Before _ m j := fun before =>
    ⟨before.wider, before.thinner.trans more, before.without⟩
  refine ⟨fun b above rest j v code new => ?_, fun b above rest j v code new => ?_⟩
  · rcases split_below_alloc ((opens b).imp_right And.right) code with
      ⟨top, front, inside, rfl⟩ | ⟨_, alloc⟩
    · obtain ⟨more, write, m, rfl, member, writes, before, was⟩ :=
        storesDue_rounds known due stale again ascending ascendingAgain b front rest j v inside new
      exact ⟨top ++ more, write, m, (List.append_assoc _ _ _).symm, member, writes, widen before,
        was⟩
    · cases alloc
  · rcases split_below_alloc ((opens b).imp_right And.right) code with
      ⟨top, front, inside, rfl⟩ | ⟨_, alloc⟩
    · obtain ⟨between, read, back, m, same, others, member, plain, used, before, was⟩ :=
        loadsDue_rounds known due stale again ascending ascendingAgain distinct b front rest j v
          inside new
      exact ⟨between, read, back, m, same, others, member, plain, used, widen before, was⟩
    · cases alloc

/-- `t` settles the demands of `s`: nothing is due in it any more, and every move was. -/
structure Settles (e : Effects) (s t : Body) : Prop where
  extend : s.Extends t
  reads : ∀ r v, ¬ e.StaleRead t r v
  writes : ∀ w v, ¬ e.DueStore t w v
  stores : StoresDue e s t
  loads : LoadsDue e s t

theorem settles_of_placed (known : s.insnsKnown = true)
    (placed : s.insertFrameInsns (s.effects captures) s.flowGraph = .ok (t, stats)) :
    Settles (s.effects captures) s t := by
  obtain ⟨extend, _, reads, writes⟩ := insertFrameInsns_settled known placed
  obtain ⟨stores, loads⟩ := insertFrameInsns_due known placed
  exact ⟨extend, reads, writes, stores, loads⟩

/-! ## Where due moves stand -/

section Places

variable {e : Effects} {keep : InsnId × Insn → Bool} {j k : InsnId} {v : VarId}

theorem StoresDue.dropsBehindWrites (due : StoresDue e s t)
    (wider : ∀ entry, s.owns entry = true → keep entry = true) : t.DropsBehindWrites keep v := by
  intro b above rest k code foreign
  obtain ⟨front, write, _, same, _, writes, _, _⟩ := due b above rest k v code
    (Bool.eq_false_iff.mpr fun owned => by rw [wider _ owned] at foreign; cases foreign)
  exact ⟨front, write, same, writes⟩

theorem LoadsDue.dropsBeforeReads (due : LoadsDue e s t)
    (wider : ∀ entry, s.owns entry = true → keep entry = true) : t.DropsBeforeReads keep v := by
  intro b above rest k code foreign
  obtain ⟨loads, read, back, _, same, others, member, _, used, _, _⟩ := due b above rest k v code
    (Bool.eq_false_iff.mpr fun owned => by rw [wider _ owned] at foreign; cases foreign)
  exact ⟨loads, read, back, same, fun one among => (others one among).2.1,
    wider read (decide_eq_true (lt_size_of_mem_code member)), used⟩

theorem LoadsDue.between (due : LoadsDue e s t) {b : BlockId} {front between rest : Code}
    {r : InsnId} {insn : Insn}
    (code : t.code b = front ++ (j, .loadFrame v) :: (between ++ (r, insn) :: rest))
    (plain : insn.isFrameInsn = false) (loads : ∀ one ∈ between, one.2.isLoad = true)
    (new : s.owns (j, .loadFrame v) = false) : ∀ one ∈ between, one.2 ≠ .loadFrame v := by
  obtain ⟨others, read, back, _, same, differ, _, bare, _, _, _⟩ := due b _ _ j v code new
  obtain ⟨rfl, _, _⟩ := eq_of_split_at (p := fun one : InsnId × Insn => one.2.isLoad) same loads
    (Insn.isLoad_of_plain plain) (fun one member => (differ one member).2.1)
    (Insn.isLoad_of_plain bare)
  exact fun one member => (differ one member).2.2

theorem LoadsDue.unique (due : LoadsDue e s t) {r : InsnId} (one : t.LoadsBefore j r v)
    (new : s.owns (j, .loadFrame v) = false)
    (other : t.LoadsBefore k r v) (also : s.owns (k, .loadFrame v) = false) : j = k := by
  obtain ⟨b, front, between, insn, rest, code, plain, loads⟩ := one
  obtain ⟨c, front', between', insn', rest', code', plain', loads'⟩ := other
  have split : t.code b = (front ++ (j, .loadFrame v) :: between) ++ (r, insn) :: rest := by
    rw [code, List.append_assoc, List.cons_append]
  have split' : t.code c = (front' ++ (k, .loadFrame v) :: between') ++ (r, insn') :: rest' := by
    rw [code', List.append_assoc, List.cons_append]
  have here : (r, insn) ∈ t.code b := mem_code_of_split split
  have there : (r, insn') ∈ t.code c := mem_code_of_split split'
  obtain rfl := Layout.block_unique (mem_code_iff.mp here).1 (mem_code_iff.mp there).1
  obtain rfl := insn_unique here there
  rcases eq_or_mem_of_split (code_split_unique split split').1 with same | later | earlier
  · exact congrArg Prod.fst same
  · exact absurd rfl (due.between code plain loads new _ later)
  · exact absurd rfl (due.between code' plain' loads' also _ earlier)

end Places

end Body

end FramePlacement
