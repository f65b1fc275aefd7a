import FramePlacement.Proofs.Justification
/-!
# No move is superfluous

Taking one inserted move out of the result of a placement makes the placement ask for this move
again, and for nothing else (`Scope.runAlone_irredundant`).  It asks for it because the move was due
in a scope with fewer moves, and the moves that have come since are for other writes and reads; it
asks for nothing else because the result with all its moves asks for nothing.
-/

set_option autoImplicit false

namespace FramePlacement

/-! ## Taking an instruction out -/

def Layout.without (l : Layout) (j : InsnId) : Layout where
  rows := Row.updateAll (fun insns => insns.filter fun i => i != j) l.rows
  positions := l.positions
  blocks_distinct := by
    rw [Row.blocks_updateAll]
    exact l.blocks_distinct
  insns_distinct := by
    have fewer : Row.allInsns (Row.updateAll (fun insns => insns.filter fun i => i != j) l.rows) =
        (Row.allInsns l.rows).filter fun i => i != j := by
      unfold Row.allInsns Row.updateAll
      rw [List.filter_flatMap, List.flatMap_map]
    rw [fewer]
    exact l.insns_distinct.filter _

def Body.without (s : Body) (j : InsnId) : Body := { s with layout := s.layout.without j }

def Scope.without (s : Scope) (j : InsnId) : Scope := s.withBody (s.body.without j)

theorem Layout.blocks_without (l : Layout) (j : InsnId) : (l.without j).blocks = l.blocks :=
  Row.blocks_updateAll _ l.rows

theorem Layout.insns_without (l : Layout) (j : InsnId) (b : BlockId) :
    (l.without j).insns b = (l.insns b).filter fun i => i != j := by
  simp only [insns, without, find?_updateAll]
  cases l.rows.find? fun row => row.block == b with
  | none => rfl
  | some row => rfl

namespace Body

variable {s t m : Body} {j : InsnId}

theorem code_without (s : Body) (j : InsnId) (b : BlockId) :
    (s.without j).code b = (s.code b).filter fun entry => entry.1 != j := by
  change ((s.layout.without j).insns b).filterMap
    (fun i => (s.insn? i).map fun insn => (i, insn)) = _
  unfold code
  rw [Layout.insns_without, List.filterMap_filter, List.filter_filterMap]
  refine List.filterMap_congr fun i _ => ?_
  cases s.insn? i with
  | none => exact ite_self _
  | some insn => rfl

namespace Before

variable (before : s.Before t m j)
include before

theorem owns_ne {entry : InsnId × Insn} (owned : m.owns entry = true) : entry.1 ≠ j :=
  Nat.ne_of_lt (Nat.lt_of_lt_of_le (of_decide_eq_true owned) before.without)

theorem keeps {entry : InsnId × Insn} (owned : m.owns entry = true) : (entry.1 != j) = true :=
  bne_iff_ne.mpr (before.owns_ne owned)

theorem code (b : BlockId) : ((t.without j).code b).filter m.owns = m.code b := by
  rw [code_without, List.filter_filter, ← before.thinner.code]
  refine List.filter_congr fun entry _ => ?_
  cases own : m.owns entry with
  | false => rfl
  | true => rw [before.keeps own]; rfl

theorem terminator (b : BlockId) : (t.without j).terminator? b = t.terminator? b := by
  have owned : ∀ {i insn}, (i, insn) ∈ t.code b → insn.isTerminator = true →
      m.owns (i, insn) = true := by
    intro i insn member ends
    cases own : m.owns (i, insn) with
    | true => rfl
    | false =>
        rw [Insn.isTerminator_of_frame (before.thinner.fresh b _ member own)] at ends
        cases ends
  refine Option.ext fun insn => ?_
  rw [terminator?_eq_some_iff]
  constructor
  · rintro ⟨ends, front, i, split⟩
    have member : (i, insn) ∈ (t.without j).code b := by rw [split]; simp
    rw [code_without] at member
    rw [before.thinner.terminator, terminator?_eq_some_iff]
    refine ⟨ends, front.filter m.owns, i, ?_⟩
    rw [← before.code, split, List.filter_append, List.filter_cons_of_pos
      (owned (List.mem_filter.mp member).1 ends), List.filter_nil]
  · intro last
    obtain ⟨ends, front, i, split⟩ := terminator?_eq_some_iff.mp last
    have member : (i, insn) ∈ t.code b := by rw [split]; simp
    refine ⟨ends, front.filter fun entry => entry.1 != j, i, ?_⟩
    rw [code_without, split, List.filter_append,
      List.filter_cons_of_pos (p := fun entry : InsnId × Insn => entry.1 != j)
        (before.keeps (owned member ends)), List.filter_nil]

/-- Without a new instruction the scope extends the one that was there before it. -/
theorem extends_without : m.Extends (t.without j) where
  same := by
    have same := before.thinner.same
    unfold Body.without
    rw [same]
  blocks := (t.layout.blocks_without j).trans before.thinner.blocks
  code := before.code
  fresh b entry member foreign := by
    rw [code_without] at member
    exact before.thinner.fresh b entry (List.mem_filter.mp member).1 foreign
  terminator b := (before.terminator b).trans (before.thinner.terminator b)
  grows := before.thinner.grows

theorem thins_without : (t.without j).Thins t fun entry => entry.1 != j where
  code b := (t.code_without j b).symm
  dropped b entry member taken := by
    refine before.thinner.fresh b entry member (Bool.eq_false_iff.mpr fun owned => ?_)
    rw [before.keeps owned] at taken
    cases taken
  blocks := (t.layout.blocks_without j).symm
  graph := before.thinner.flowGraph.trans before.extends_without.flowGraph.symm
  handler _ := rfl
  terminator b := (before.terminator b).symm

end Before

end Body

/-! ## What is due once a move is taken out -/

namespace Body

section Taken

variable {s t : Body} {captures : Captures} {j : InsnId} {v : VarId}

theorem ne_of_mem_without {b : BlockId} {entry : InsnId × Insn}
    (member : entry ∈ (t.without j).code b) : entry.1 ≠ j := by
  rw [code_without] at member
  exact bne_iff_ne.mp (List.mem_filter.mp member).2

variable (settles : Settles (s.effects captures) s t) {b : BlockId} {above rest : Code}
include settles

/-- Without a new store the write before it is due the store, and no other write is due one. -/
theorem dueStore_without_iff (code : t.code b = above ++ (j, .storeFrame v) :: rest)
    (new : s.owns (j, .storeFrame v) = false) :
    ∃ front write, above = front ++ [write] ∧ write ∈ s.code b ∧ write.2.writesSlot v = true ∧
      ∀ w x, (s.effects captures).DueStore (t.without j) w x ↔ w = write.1 ∧ x = v := by
  obtain ⟨front, write, m, rfl, member, writes, before, due⟩ :=
    settles.stores b above rest j v code new
  have stored : t.StoresBehind j write.1 v :=
    ⟨b, front, write.2, rest, code.trans (List.append_assoc _ _ _)⟩
  have thinned : s.Extends (t.without j) := before.wider.trans before.extends_without
  refine ⟨front, write, rfl, member, writes, fun w x => ⟨fun left => ?_, ?_⟩⟩
  · -- any other write is due a store with the store there as well
    by_contra other
    have behind : t.DropsBehindWrites (fun entry => entry.1 != j) x :=
      settles.stores.dropsBehindWrites fun _ owned => before.keeps (before.wider.owns_mono owned)
    refine settles.writes w x ?_
    rw [← settles.extend.effects captures] at left ⊢
    refine dueStore_of_thins before.thins_without behind (fun k also => ?_) left
    refine bne_iff_ne.mpr fun (same : k = j) => other ?_
    subst same
    exact also.write_unique stored
  · rintro ⟨rfl, rfl⟩
    have behind : t.DropsBehindWrites m.owns x :=
      settles.stores.dropsBehindWrites fun _ => before.wider.owns_mono
    rw [← thinned.effects captures] at due ⊢
    refine dueStore_of_thins before.extends_without.thins (behind.thins before.thins_without)
      (fun k also => ?_) due
    by_contra foreign
    have other := also.of_thins behind before.thins_without (Bool.eq_false_iff.mpr foreign)
    obtain ⟨c, _, _, _, split⟩ := also
    have inside : (k, Insn.storeFrame x) ∈ (t.without j).code c :=
      mem_code_of_split (split.trans (List.append_cons _ _ _))
    exact ne_of_mem_without inside (other.unique stored).1

theorem staleRead_without_iff (code : t.code b = above ++ (j, .loadFrame v) :: rest)
    (new : s.owns (j, .loadFrame v) = false) :
    ∃ between read back, rest = between ++ read :: back ∧
      (∀ load ∈ between, s.owns load = false ∧ load.2.isLoad = true) ∧ read ∈ s.code b ∧
      read.2.isFrameInsn = false ∧ v ∈ read.2.usedVars ∧
      ∀ r x, (s.effects captures).StaleRead (t.without j) r x ↔ r = read.1 ∧ x = v := by
  obtain ⟨between, read, back, m, rfl, others, member, plain, used, before, stale⟩ :=
    settles.loads b above rest j v code new
  have loaded : t.LoadsBefore j read.1 v :=
    ⟨b, above, between, read.2, back, code, plain, fun one among => (others one among).2.1⟩
  have thinned : s.Extends (t.without j) := before.wider.trans before.extends_without
  refine ⟨between, read, back, rfl, fun one among => ⟨(others one among).1, (others one among).2.1⟩,
    member, plain, used, fun r x => ⟨fun left => ?_, ?_⟩⟩
  · by_contra other
    have old : ∀ entry, s.owns entry = true → (entry.1 != j) = true := fun _ owned =>
      before.keeps (before.wider.owns_mono owned)
    refine settles.reads r x ?_
    rw [← settles.extend.effects captures] at left ⊢
    refine staleRead_of_thins before.thins_without (settles.stores.dropsBehindWrites old)
      (settles.loads.dropsBeforeReads old) (fun k also => ?_) left
    refine bne_iff_ne.mpr fun (same : k = j) => other ?_
    subst same
    exact also.read_unique loaded
  · rintro ⟨rfl, rfl⟩
    have behind : t.DropsBehindWrites m.owns x :=
      settles.stores.dropsBehindWrites fun _ => before.wider.owns_mono
    have ahead : t.DropsBeforeReads m.owns x :=
      settles.loads.dropsBeforeReads fun _ => before.wider.owns_mono
    have kept : ∀ entry, m.owns entry = true → (entry.1 != j) = true := fun _ => before.keeps
    rw [← thinned.effects captures] at stale ⊢
    refine staleRead_of_thins before.extends_without.thins (behind.thins before.thins_without)
      (ahead.thins before.thins_without kept) (fun k also => ?_) stale
    by_contra foreign
    have none : m.owns (k, .loadFrame x) = false := Bool.eq_false_iff.mpr foreign
    have other := also.of_thins ahead before.thins_without kept none
    have fresh : s.owns (k, .loadFrame x) = false := Bool.eq_false_iff.mpr fun owned =>
      foreign (before.wider.owns_mono owned)
    obtain ⟨c, _, _, _, _, split, _, _⟩ := also
    have inside : (k, Insn.loadFrame x) ∈ (t.without j).code c := mem_code_of_split split
    exact ne_of_mem_without inside (settles.loads.unique other fresh loaded new)

end Taken

end Body

/-! ## Placements computed anew -/

theorem Body.visitsKnown_of_subset {s : Body} {blocks more : List BlockId}
    (known : s.visitsKnown more = true) (inside : ∀ b ∈ blocks, b ∈ more) :
    s.visitsKnown blocks = true := by
  unfold Body.visitsKnown at known ⊢
  rw [Bool.and_eq_true, List.all_eq_true] at known ⊢
  exact ⟨known.1, fun b member => known.2 b (inside b member)⟩

namespace Scope.Solvable

variable {s : Scope} {entry : BlockId} (solvable : s.Solvable entry)
include solvable

theorem insns : s.body.insnsKnown = true := by
  have visits := solvable.visits
  unfold Body.visitsKnown at visits
  exact (Bool.and_eq_true _ _ ▸ visits).1

theorem checked_flowGraph : Checked.flowGraph s.body = .ok s.body.flowGraph := by
  unfold Checked.flowGraph Fault.guarded
  rw [solvable.blocks, solvable.insns]
  rfl

theorem checked_effects : Checked.effects s = .ok s.effects := by
  unfold Checked.effects Fault.guarded
  rw [solvable.closures, solvable.insns]
  rfl

/-- No analysis with monotone transfers visits an unknown block. -/
theorem checked_solve {F : Type} [DecidableEq F] {p : Problem F} {Fact : F → Prop} {rank : F → Nat}
    (order : p.Semilattice Fact rank) (steady : p.Steady s.body s.body.flowGraph entry Fact) :
    Checked.solve p s.body s.body.flowGraph =
      .ok (.ok (p.solved s.body s.body.flowGraph entry)) := by
  have known : s.body.visitsKnown (p.solved s.body s.body.flowGraph entry).trace = true :=
    Body.visitsKnown_of_subset solvable.visits (Problem.trace_solved order steady)
  unfold Checked.solve
  rw [Problem.solve_eq_solved solvable.setup]
  dsimp only
  unfold Fault.guarded
  rw [known]
  rfl

theorem checked_storePlacement : Checked.storePlacement s =
    .ok (s.effects.placeStores s.body s.body.flowGraph) := by
  have order := storeProblem_semilattice s.body s.captures
  have mono := storeProblem_monotoneOn s.body s.captures
  have solved := solvable.checked_solve order (mono.steady order rfl entry)
  unfold Checked.storePlacement Checked.placeStores
  rw [solvable.checked_flowGraph, solvable.checked_effects]
  change (Checked.solve (s.body.effects s.captures).storeProblem s.body s.body.flowGraph >>= _) = _
  rw [solved]
  rfl

theorem checked_loadPlacement : Checked.loadPlacement s =
    .ok (s.effects.placeLoads s.body s.body.flowGraph) := by
  have order := loadProblem_semilattice s.body s.captures
  have mono := loadProblem_monotoneOn s.body s.captures
  have solved := solvable.checked_solve order (mono.steady order rfl entry)
  unfold Checked.loadPlacement Checked.placeLoads
  rw [solvable.checked_flowGraph, solvable.checked_effects]
  change (Checked.solve (s.body.effects s.captures).loadProblem s.body s.body.flowGraph >>= _) = _
  rw [solved]
  rfl

end Scope.Solvable

theorem eq_singleton {marks : List Mark} {mark : Mark} (distinct : marks.Nodup)
    (only : ∀ other, other ∈ marks ↔ other = mark) : marks = [mark] := by
  refine List.perm_singleton.mp ((List.perm_ext_iff_of_nodup distinct
    (List.nodup_singleton mark)).mpr fun other => ?_)
  rw [only, List.mem_singleton]

namespace Scope.Solvable

variable {s : Scope} {entry : BlockId} {i : InsnId} {v : VarId} (solvable : s.Solvable entry)
include solvable

theorem storePlacement_singleton
    (only : ∀ w x, s.effects.DueStore s.body w x ↔ w = i ∧ x = v) :
    ∃ visits, Checked.storePlacement s = .ok (.ok { marks := [(i, v)], visits }) := by
  obtain ⟨placement, placed⟩ : ∃ placement,
      s.effects.placeStores s.body s.body.flowGraph = .ok placement :=
    placeStores_isOk solvable.setup
  have distinct : placement.marks.Nodup := (placeStores_ascending placed).imp
    fun {a b} (less : a.1 < b.1) (same : a = b) => Nat.ne_of_lt less (congrArg Prod.fst same)
  have marks : placement.marks = [(i, v)] := eq_singleton distinct fun ⟨w, x⟩ => by
    rw [placeStores_eq_ok placed, Prod.mk.injEq]
    exact only w x
  refine ⟨placement.visits, ?_⟩
  rw [solvable.checked_storePlacement, ← marks]
  exact congrArg Except.ok placed

theorem loadPlacement_singleton
    (only : ∀ r x, s.effects.StaleRead s.body r x ↔ r = i ∧ x = v) :
    ∃ visits, Checked.loadPlacement s = .ok (.ok { marks := [(i, v)], visits }) := by
  obtain ⟨placement, placed⟩ : ∃ placement,
      s.effects.placeLoads s.body s.body.flowGraph = .ok placement :=
    placeLoads_isOk solvable.setup
  have marks : placement.marks = [(i, v)] := eq_singleton (placeLoads_nodup placed) fun ⟨r, x⟩ => by
    rw [placeLoads_eq_ok placed, Prod.mk.injEq]
    exact only r x
  refine ⟨placement.visits, ?_⟩
  rw [solvable.checked_loadPlacement, ← marks]
  exact congrArg Except.ok placed

end Scope.Solvable

/-! ## The result of a run -/

/-- Every move that `t` has on top of `s` is asked for again once it is taken out, alone. -/
structure Scope.Irredundant (s t : Scope) : Prop where
  /-- A new store stands right behind an old write of its variable.  Without it the placement of
  stores marks this write and nothing else. -/
  stores : ∀ j v, s.body.makes t.body j = true → t.body.insn? j = some (.storeFrame v) →
    ∃ b front write rest visits, t.body.code b = front ++ write :: (j, .storeFrame v) :: rest ∧
      s.body.owns write = true ∧ write.2.writesSlot v = true ∧
      Checked.storePlacement (t.without j) = .ok (.ok { marks := [(write.1, v)], visits })
  /-- A new load stands before an old read of its variable, up to other new loads.  Without it the
  placement of loads marks this read and nothing else. -/
  loads : ∀ j v, s.body.makes t.body j = true → t.body.insn? j = some (.loadFrame v) →
    ∃ b front between read rest visits,
      t.body.code b = front ++ (j, .loadFrame v) :: (between ++ read :: rest) ∧
      (∀ load ∈ between, s.body.makes t.body load.1 = true ∧ load.2.isLoad = true) ∧
      s.body.owns read = true ∧ read.2.isFrameInsn = false ∧ v ∈ read.2.usedVars ∧
      Checked.loadPlacement (t.without j) = .ok (.ok { marks := [(read.1, v)], visits })
  /-- Among the stores that follow an instruction, one at most is new. -/
  single : ∀ b front write stores rest, t.body.code b = front ++ write :: (stores ++ rest) →
    (∀ store ∈ stores, store.2.isStore = true) →
    (stores.countP fun store => s.body.makes t.body store.1) ≤ 1

namespace Body

variable {s t : Body} {captures : Captures} {j : InsnId}

theorem makes_of_owns {b : BlockId} {entry : InsnId × Insn} (member : entry ∈ t.code b)
    (new : s.owns entry = false) : s.makes t entry.1 = true := by
  unfold makes
  rw [Bool.and_eq_true, decide_eq_true_eq, decide_eq_true_eq]
  exact ⟨Nat.le_of_not_lt (of_decide_eq_false new), lt_size_of_mem_code member⟩

theorem size_le_of_makes (made : s.makes t j = true) : s.insns.size ≤ j := by
  unfold makes at made
  rw [Bool.and_eq_true, decide_eq_true_eq] at made
  exact made.1

theorem owns_of_makes {insn : Insn} (made : s.makes t j = true) : s.owns (j, insn) = false :=
  decide_eq_false (Nat.not_lt_of_le (size_le_of_makes made))

theorem insnsKnown_without (known : t.insnsKnown = true) (j : InsnId) :
    (t.without j).insnsKnown = true := by
  refine insnsKnown_iff.mpr fun i member => insnsKnown_iff.mp known i ?_
  obtain ⟨b, inside⟩ := Layout.mem_allInsns_iff.mp member
  change i ∈ (t.layout.without j).insns b at inside
  rw [Layout.insns_without] at inside
  exact Layout.mem_allInsns_iff.mpr ⟨b, (List.mem_filter.mp inside).1⟩

theorem StoresDue.single {e : Effects} (due : StoresDue e s t) {b : BlockId}
    {front stores rest : Code} {write : InsnId × Insn}
    (code : t.code b = front ++ write :: (stores ++ rest))
    (each : ∀ store ∈ stores, store.2.isStore = true) :
    (stores.countP fun store => s.makes t store.1) ≤ 1 := by
  cases stores with
  | nil => exact Nat.zero_le 1
  | cons first more =>
      have none : (more.countP fun store => s.makes t store.1) = 0 := by
        refine List.countP_eq_zero.mpr fun ⟨j, insn⟩ member made => ?_
        obtain ⟨near, far, rfl⟩ := List.append_of_mem member
        obtain ⟨init, last, ends⟩ := List.eq_nil_or_concat (first :: near) |>.resolve_left
          (List.cons_ne_nil _ _)
        have lastStore : last.2.isStore = true := by
          have among : last ∈ first :: near := by rw [ends]; simp
          refine each last ?_
          rw [← List.cons_append]
          exact List.mem_append_left _ among
        cases insn with
        | storeFrame v =>
            have split : t.code b =
                (front ++ write :: (first :: near)) ++ (j, .storeFrame v) :: (far ++ rest) := by
              rw [code]
              simp
            obtain ⟨up, before, _, same, _, writes, _⟩ :=
              due b _ _ j v split (owns_of_makes made)
            rw [ends, List.concat_eq_append, ← List.cons_append, ← List.append_assoc] at same
            obtain ⟨_, equal⟩ := List.append_inj' same rfl
            cases equal
            have plain := (plain_of_writesSlot writes).1
            cases last with
            | mk k kind =>
                cases kind with
                | storeFrame _ => cases plain
                | _ => cases lastStore
        | _ => cases each _ (List.mem_cons_of_mem _ member)
      rw [List.countP_cons, none, Nat.zero_add]
      split <;> decide

end Body

namespace Scope

variable {config : Config} {s t : Scope} {stats : Stats}

theorem solvable_of_placeDangles {body placed : Body} {closures : List Scope}
    (safe : (node body closures).placeDangles config = false)
    (frame : body.insertFrameInsns (body.effects (node body closures).captures) body.flowGraph =
      .ok (placed, stats)) : ∃ entry, (node body closures).Solvable entry := by
  obtain ⟨moved, done, moves, _, _⟩ := Body.insertFrameInsns_eq_ok frame
  obtain ⟨_, _, first, _, _⟩ := Body.insertMoves_eq_ok moves
  obtain ⟨entry, setup⟩ := setup_of_placeStores first
  obtain ⟨blocks, _, inside, visited, _, _⟩ := (placeDangles_iff setup moves frame).mp safe
  exact ⟨entry, setup, blocks, inside, visited⟩

theorem irredundant_of_place {body placed : Body} {closures : List Scope}
    (safe : (node body closures).placeDangles config = false)
    (frame : body.insertFrameInsns (body.effects (node body closures).captures) body.flowGraph =
      .ok (placed, stats)) : (node body closures).Irredundant (node placed closures) := by
  have known : body.insnsKnown = true := insnsKnown_of_placeDangles safe
  obtain ⟨extend, placedKnown, _, _⟩ := Body.insertFrameInsns_settled known frame
  have settles := Body.settles_of_placed known frame
  obtain ⟨entry, solvable⟩ := solvable_of_placeDangles safe frame
  have inserts := Body.insertFrameInsns_inserts known frame
  -- a new move stands in some block
  have stands : ∀ {j insn}, body.makes placed j = true → placed.insn? j = some insn →
      ∃ b above rest, placed.code b = above ++ (j, insn) :: rest := by
    intro j insn made found
    have once := inserts.once j made
    have listed : j ∈ placed.layout.allInsns := List.count_pos_iff.mp (by rw [once]; decide)
    obtain ⟨b, inside⟩ := Layout.mem_allInsns_iff.mp listed
    obtain ⟨above, rest, split⟩ := List.append_of_mem (Body.mem_code_iff.mpr ⟨inside, found⟩)
    exact ⟨b, above, rest, split⟩
  have thinned : ∀ {j}, body.makes placed j = true → body.Extends (placed.without j) := fun made =>
    Body.Before.extends_without
      ⟨Body.Extends.refl body, extend, Body.size_le_of_makes made⟩
  have ready : ∀ {j}, body.makes placed j = true →
      (node (placed.without j) closures).Solvable entry := fun {j} made =>
    solvable.of_extends (thinned made) (Body.insnsKnown_without placedKnown j)
  have old : ∀ {b entry}, entry ∈ body.code b → body.owns entry = true :=
    fun member => decide_eq_true (Body.lt_size_of_mem_code member)
  refine
    { stores := fun j v made found => ?_
      loads := fun j v made found => ?_
      single := fun b front write between rest code each => settles.stores.single code each }
  · obtain ⟨b, above, rest, code⟩ := stands made found
    obtain ⟨front, write, rfl, member, fits, only⟩ :=
      Body.dueStore_without_iff settles code (Body.owns_of_makes made)
    obtain ⟨visits, marked⟩ := (ready made).storePlacement_singleton (i := write.1) (v := v) (by
      rw [effects_of_extends closures (thinned made)]
      exact only)
    exact ⟨b, front, write, rest, visits, code.trans (List.append_assoc _ _ _), old member, fits,
      marked⟩
  · obtain ⟨b, above, rest, code⟩ := stands made found
    obtain ⟨between, read, back, rfl, others, member, plain, used, only⟩ :=
      Body.staleRead_without_iff settles code (Body.owns_of_makes made)
    obtain ⟨visits, marked⟩ := (ready made).loadPlacement_singleton (i := read.1) (v := v) (by
      rw [effects_of_extends closures (thinned made)]
      exact only)
    refine ⟨b, above, between, read, back, visits, code, fun load among =>
      ⟨?_, (others load among).2⟩, old member, plain, used, marked⟩
    have inside : load ∈ placed.code b := by rw [code]; simp [among]
    exact Body.makes_of_owns inside (others load among).1

theorem irredundant_self (s : Scope) : s.Irredundant s := by
  have unmade := s.body.makes_self
  refine
    { stores := fun j v made => ?_
      loads := fun j v made => ?_
      single := fun b front write stores rest code each => ?_ }
  · rw [unmade] at made
    cases made
  · rw [unmade] at made
    cases made
  · refine (List.countP_eq_zero.mpr fun store _ => ?_).le.trans (Nat.zero_le 1)
    rw [unmade]
    exact Bool.false_ne_true

/-- No move that a run inserts is superfluous.  When a run over one scope succeeds without giving
the scope up, each store and each load that it has inserted is asked for again as soon as it alone
is taken out: the placement, with the graph and the effects computed anew, marks the write before
the store or the read behind the load, and nothing else.  No instruction has two new stores behind
it. -/
theorem runAlone_irredundant (done : Checked.runAlone config s = .ok (t, .ok stats))
    (kept : stats.fallbacks = 0) : s.Irredundant t := by
  obtain ⟨safe, run⟩ := run_of_checked done
  have same := closures_of_checked done
  obtain ⟨body, nested⟩ := s
  obtain ⟨placed, others⟩ := t
  obtain rfl : others = nested := same
  rcases Body.place_of_kept run kept with ⟨unchanged, _⟩ | ⟨proper, place⟩
  · obtain rfl : placed = body := unchanged
    exact irredundant_self (node placed others)
  · exact irredundant_of_place (placeDangles_of_runAloneDangles proper safe)
      (Body.place_eq_ok place).1

end Scope

theorem runAlone_irredundant_totalling :
    ∃ t stats, Checked.runAlone .strict totalling = .ok (t, .ok stats) ∧ stats.fallbacks = 0 ∧
      (totalling.body.makes t.body 3 = true ∧ (t.body.insn? 3).any Insn.isStore = true) ∧
      (totalling.body.makes t.body 4 = true ∧ (t.body.insn? 4).any Insn.isLoad = true) ∧
      totalling.Irredundant t := by
  have placed : (match Checked.runAlone .strict totalling with
      | .ok (t, .ok stats) => decide (stats.fallbacks = 0 ∧
          (totalling.body.makes t.body 3 = true ∧ (t.body.insn? 3).any Insn.isStore = true) ∧
          totalling.body.makes t.body 4 = true ∧ (t.body.insn? 4).any Insn.isLoad = true)
      | _ => false) = true := by decide
  split at placed
  · next t stats done =>
      obtain ⟨kept, store, load⟩ := of_decide_eq_true placed
      exact ⟨t, stats, done, kept, store, load, Scope.runAlone_irredundant done kept⟩
  · cases placed

end FramePlacement
