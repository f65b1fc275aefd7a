import FramePlacement.Proofs.Acceptance
import FramePlacement.Proofs.Justification
/-!
# More exposure, no fewer moves

A scope whose binding escapes, or of which closures capture more, exposes more of its variables: its
calls observe and clobber more, and so do its exits.  Observing more makes stores due and clobbering
more makes loads due, but an observation also syncs what it observes.  Nothing is lost by that: a
path that no longer stays unsynced has come past an observation, which makes its write due just the
same (`Leads.unsynced_or_observed`).  So every move of the placement stays
(`Scope.runAlone_conservative`).
-/

set_option autoImplicit false

namespace FramePlacement

/-! ## Effects that expose more -/

structure Effects.Within (e more : Effects) : Prop where
  candidates : ∀ v ∈ e.candidates, v ∈ more.candidates
  enclosing : more.enclosing = e.enclosing
  leaving : ∀ v ∈ e.exitObserved, v ∈ more.exitObserved
  observed : ∀ i, ∀ v ∈ e.observed.get i, v ∈ more.observed.get i
  clobbered : ∀ i, ∀ v ∈ e.clobbered.get i, v ∈ more.clobbered.get i

/-- `s'` is `s` with a binding that escapes, or with more captured locals, or both. -/
structure Body.MoreExposed (s s' : Body) : Prop where
  same : s' = { s with escapes := s'.escapes, captured := s'.captured }
  escapes : s.escapes = true → s'.escapes = true
  captured : ∀ v ∈ s.captured, v ∈ s'.captured

structure Scope.MoreExposed (s s' : Scope) : Prop where
  body : s.body.MoreExposed s'.body
  closures : s'.closures = s.closures

namespace Body.MoreExposed

variable {s s' t t' : Body} {captures : Captures} (more : s.MoreExposed s')
include more

theorem code (b : BlockId) : s'.code b = s.code b := by
  rw [more.same]
  rfl

theorem allCode : s'.allCode = s.allCode := by
  rw [more.same]
  rfl

theorem vars : s'.vars = s.vars := by
  rw [more.same]

theorem flowGraph : s'.flowGraph = s.flowGraph := by
  rw [more.same]
  rfl

theorem owns : s'.owns = s.owns := by
  rw [more.same]
  rfl

theorem isExempt : s'.isExempt = s.isExempt := by
  rw [more.same]
  rfl

theorem entry? : s'.layout.entry? = s.layout.entry? := by
  rw [more.same]

theorem leaksBinding (leaks : s.leaksBinding = true) : s'.leaksBinding = true := by
  unfold Body.leaksBinding at leaks ⊢
  rw [more.allCode]
  rw [Bool.or_eq_true] at leaks ⊢
  exact leaks.imp_left more.escapes

theorem frameCandidates {v : VarId} (member : v ∈ s.frameCandidates) : v ∈ s'.frameCandidates := by
  unfold Body.frameCandidates at member ⊢
  rw [more.vars]
  rw [IdSet.mem_insertAll] at member ⊢
  refine member.imp_right fun own => ?_
  cases leaks : s.leaksBinding with
  | true =>
      rw [leaks, if_pos rfl, IdSet.mem_insertAll] at own
      rw [more.leaksBinding leaks, if_pos rfl, IdSet.mem_insertAll]
      exact own.imp_right (more.captured v)
  | false =>
      rw [leaks, if_neg Bool.false_ne_true] at own
      split
      · exact IdSet.mem_insertAll.mpr (Or.inr (more.captured v own))
      · exact more.captured v own

theorem exposure {part : CaptureSummary → IdSet} {i : InsnId} {v : VarId}
    (member : v ∈ (s.exposure captures part).get i) :
    v ∈ (s'.exposure captures part).get i := by
  obtain ⟨insn, inside, call, exposes⟩ := mem_exposure_iff.mp member
  refine mem_exposure_iff.mpr ⟨insn, more.allCode ▸ inside, call, ?_⟩
  have candidate := more.frameCandidates (exposed_subset exposes)
  unfold exposed at exposes ⊢
  split
  · exact candidate
  · next kept =>
      rw [if_neg fun leaks => kept (more.leaksBinding leaks)] at exposes
      split at exposes
      · exact IdSet.mem_inter.mpr ⟨(IdSet.mem_inter.mp exposes).1, candidate⟩
      · exact exposes

theorem effects : (s.effects captures).Within (s'.effects captures) where
  candidates _ := more.frameCandidates
  enclosing := by
    unfold Body.effects
    rw [more.vars]
  leaving v member := by
    unfold Body.effects at member ⊢
    dsimp only at member ⊢
    split
    · split at member
      · exact more.frameCandidates member
      · exact more.frameCandidates (mem_frameCandidates_of_enclosing (IdSet.mem_ofList.mp member))
    · next kept =>
        rw [if_neg fun leaks => kept (more.leaksBinding leaks)] at member
        rw [more.vars]
        exact member
  observed _ _ := more.exposure
  clobbered _ _ := more.exposure

theorem thins (extend : s'.Extends t') : s.Thins t' s.owns := by
  have thins := extend.thins
  exact
    { code := fun b => by rw [← more.owns, thins.code, more.code]
      dropped := fun b entry member dropped =>
        thins.dropped b entry member (by rw [more.owns]; exact dropped)
      blocks := by
        rw [thins.blocks, more.same]
      graph := thins.graph.trans more.flowGraph
      handler := fun b => by
        rw [thins.handler, more.same]
        rfl
      terminator := fun b => by
        rw [thins.terminator, more.same]
        rfl }

end Body.MoreExposed

/-! ## Demands of effects that expose more -/

namespace Effects.Within

variable {s : Body} {e more : Effects} {v : VarId} (within : e.Within more)
include within

theorem observes {point : Point} (observes : e.Observes s v point) : more.Observes s v point := by
  cases observes with
  | load candidate => exact Observes.load (within.candidates v candidate)
  | call isCall member => exact Observes.call isCall (within.observed _ v member)
  | leavingCall isCall unhandled member =>
      exact Observes.leavingCall isCall unhandled (within.leaving v member)
  | ret member => exact Observes.ret (within.leaving v member)
  | leavingRaise unhandled member => exact Observes.leavingRaise unhandled (within.leaving v member)
  | bottom listed ends last member =>
      exact Observes.bottom listed ends last (within.leaving v member)

theorem outdates {passage : Passage} {entry : InsnId × Insn}
    (outdates : e.Outdates v passage entry) : more.Outdates v passage entry := by
  cases passage with
  | completes => exact ⟨outdates.1, within.clobbered _ v outdates.2.1, outdates.2.2⟩
  | raises => exact ⟨outdates.1, within.clobbered _ v outdates.2⟩

theorem staleRead {r : InsnId} (stale : e.StaleRead s r v) : more.StaleRead s r v := by
  obtain ⟨b, above, insn, rest, code, plain, used, start, springs, leads⟩ := stale
  refine ⟨b, above, insn, rest, code, plain, used, start, springs.mono ?_ ?_, leads⟩
  · exact fun enclosing => within.enclosing ▸ enclosing
  · exact fun _ _ => within.outdates

end Effects.Within

section Observed

variable {s : Body} {e more : Effects} {v : VarId} {start point : Point}

/-- Where more is observed, a path on which a variable stays unsynced is still one, or it comes past
a call that observes the variable. -/
theorem Leads.unsynced_or_observed
    (calls : ∀ {i insn}, (i, insn) ∈ s.allCode → v ∈ more.observed.get i → insn.isCall = true)
    (inside : ∃ above, s.code start.block = above ++ start.rest)
    (leads : Leads s (e.StaysUnsynced v) start point) :
    Leads s (more.StaysUnsynced v) start point ∨
      ∃ seen, Leads s (more.StaysUnsynced v) start seen ∧ more.Observes s v seen := by
  have sees : ∀ {b : BlockId} {i : InsnId} {insn : Insn} {rest : Code},
      Leads s (more.StaysUnsynced v) start ⟨b, (i, insn) :: rest⟩ → v ∈ more.observed.get i →
      ∃ seen, Leads s (more.StaysUnsynced v) start seen ∧ more.Observes s v seen := by
    intro b i insn rest there member
    obtain ⟨front, code⟩ := suffix_of_leads inside there
    exact ⟨_, there, Effects.Observes.call (calls (Body.mem_allCode_of_code code) member) member⟩
  induction leads with
  | here => exact Or.inl Leads.here
  | @complete b entry rest _ passes ih =>
      obtain ⟨i, insn⟩ := entry
      rcases ih with there | seen
      · cases synced : more.syncs v i insn with
        | false => exact Or.inl (there.complete ⟨passes.1, synced⟩)
        | true =>
            -- a move syncs the same variable either way, so this is a call
            have before : e.syncs v i insn = false := passes.2
            unfold Effects.syncs at synced before
            cases moves : insn.movedVar? with
            | some w =>
                rw [moves] at synced before
                dsimp only at synced before
                rw [synced] at before
                cases before
            | none =>
                rw [moves] at synced
                exact Or.inr (sees there synced)
      · exact Or.inr seen
  | @raise b handler entry rest _ raises target passes ih =>
      obtain ⟨i, insn⟩ := entry
      rcases ih with there | seen
      · by_cases member : v ∈ more.observed.get i
        · exact Or.inr (sees there member)
        · exact Or.inl (there.raise raises target member)
      · exact Or.inr seen
  | edge _ target ih => exact ih.imp_left fun there => there.edge target

end Observed

/-! ## What moves tell about the scope before -/

namespace Body.Settles

variable {s t : Body} {e : Effects} {v : VarId} (settles : Settles e s t)
  (bare : ∀ entry ∈ s.allCode, entry.2.isFrameInsn = false)
include settles bare

theorem new {b : BlockId} {above rest : Code} {entry : InsnId × Insn}
    (code : t.code b = above ++ entry :: rest) (frame : entry.2.isFrameInsn = true) :
    s.owns entry = false :=
  settles.extend.owns_eq_false_of_bare bare (mem_code_of_split code) frame

theorem staleRead_of_loaded {j r : InsnId} (loaded : t.LoadsBefore j r v) : e.StaleRead s r v := by
  obtain ⟨b, front, between, insn, rest, code, plain, loads⟩ := loaded
  obtain ⟨others, read, back, m, same, differ, _, bare', _, before, stale⟩ :=
    settles.loads b _ _ j v code (settles.new bare code rfl)
  obtain ⟨_, rfl, _⟩ := eq_of_split_at (p := fun one : InsnId × Insn => one.2.isLoad) same loads
    (Insn.isLoad_of_plain plain) (fun one member => (differ one member).2.1)
    (Insn.isLoad_of_plain bare')
  exact staleRead_of_extends before.wider stale

/-- A write with a store is due one in the scope before, or leads, unsynced, to a read with a
load. -/
theorem dueStore_or_read_of_stored {j w : InsnId} (stored : t.StoresBehind j w v) :
    e.DueStore s w v ∨ ∃ b above insn rest c read back k, s.code b = above ++ (w, insn) :: rest ∧
      insn.writesSlot v = true ∧ t.LoadsBefore k read.1 v ∧
      Leads s (e.StaysUnsynced v) ⟨b, rest⟩ ⟨c, read :: back⟩ := by
  obtain ⟨b, front, insn, rest, code⟩ := stored
  rw [List.append_cons] at code
  obtain ⟨_, write, m, same, _, _, before, due⟩ :=
    settles.stores b _ _ j v code (settles.new bare code rfl)
  obtain ⟨_, last⟩ := List.append_inj' same rfl
  cases last
  rcases dueStore_or_load_of_extends before.wider due with
    shown | ⟨b, above, insn, rest, c, k, below, split, writes, ⟨up, there⟩, foreign, leads⟩
  · exact Or.inl shown
  · -- the load stands before a read in the result as well
    obtain ⟨front, back, whole, _, _, rfl⟩ := before.thinner.thins.split there
    obtain ⟨between, read, back, _, rfl, others, member, plain, _, _, _⟩ :=
      settles.loads c front back k v whole foreign
    have own : s.owns read = true := decide_eq_true (lt_size_of_mem_code member)
    have gone : (between.filter m.owns).filter s.owns = [] := by
      refine List.filter_eq_nil_iff.mpr fun one among owned => ?_
      rw [(others one (List.mem_filter.mp among).1).1] at owned
      cases owned
    rw [List.filter_append, List.filter_cons_of_pos (before.wider.owns_mono own),
      List.filter_append, List.filter_cons_of_pos own, gone] at leads
    exact Or.inr ⟨b, above, insn, rest, c, read, _, k, split, writes,
      ⟨c, front, between, read.2, back, whole, plain, fun one among => (others one among).2.1⟩,
      leads⟩

end Body.Settles

/-! ## Two placements -/

theorem Leads.to_load {t : Body} {free : Passing} {start : Point} {c : BlockId}
    {read : InsnId × Insn} {below up : Code} {entry : InsnId × Insn} {k : InsnId} {v : VarId}
    (origin : t.code start.block = up ++ entry :: start.rest)
    (plain : entry.2.isFrameInsn = false) (loaded : t.LoadsBefore k read.1 v)
    (leads : Leads t free start ⟨c, read :: below⟩) :
    ∃ rest, Leads t free start ⟨c, (k, .loadFrame v) :: rest⟩ := by
  obtain ⟨b, front, between, insn, rest, code, _, loads⟩ := loaded
  have split : t.code b = (front ++ (k, .loadFrame v) :: between) ++ (read.1, insn) :: rest := by
    rw [code, List.append_assoc, List.cons_append]
  obtain ⟨above, there⟩ := suffix_of_leads
    ⟨up ++ [entry], origin.trans (List.append_cons _ _ _)⟩ leads
  have here : (read.1, insn) ∈ t.code b := Body.mem_code_of_split split
  have also : (read.1, read.2) ∈ t.code c := Body.mem_code_of_split there
  obtain rfl := Layout.block_unique (Body.mem_code_iff.mp here).1 (Body.mem_code_iff.mp also).1
  obtain rfl := Body.insn_unique here also
  obtain ⟨_, rfl⟩ := Body.code_split_unique split there
  have whole : t.code b = front ++ (((k, .loadFrame v) :: between) ++ read :: rest) := code
  have frames : ∀ one ∈ (k, Insn.loadFrame v) :: between, one.2.isFrameInsn = true := by
    intro one member
    rcases List.mem_cons.mp member with rfl | later
    · rfl
    · exact Insn.isFrameInsn_of_isLoad (loads one later)
  exact ⟨_, leads.back_over_frames whole frames origin plain⟩

section Two

variable {s s' t t' : Body} {captures : Captures} {v : VarId} (more : s.MoreExposed s')
  (bare : ∀ entry ∈ s.allCode, entry.2.isFrameInsn = false)
  (settles : Body.Settles (s.effects captures) s t)
  (settles' : Body.Settles (s'.effects captures) s' t')
include more bare settles settles'

theorem loaded_of_moreExposed {r : InsnId} (loaded : ∃ j, t.LoadsBefore j r v) :
    ∃ j, t'.LoadsBefore j r v := by
  obtain ⟨j, loaded⟩ := loaded
  by_contra none
  have old : ∀ entry, s'.owns entry = true → s.owns entry = true :=
    fun entry owned => more.owns ▸ owned
  have stale := more.effects.staleRead (settles.staleRead_of_loaded bare loaded)
  exact settles'.reads r v (staleRead_of_thins (more.thins settles'.extend)
    (settles'.stores.dropsBehindWrites old) (settles'.loads.dropsBeforeReads old)
    (fun k also => absurd ⟨k, also⟩ none) stale)

theorem stored_of_moreExposed {w : InsnId} (stored : ∃ j, t.StoresBehind j w v) :
    ∃ j, t'.StoresBehind j w v := by
  obtain ⟨j, stored⟩ := stored
  by_contra none
  have thins := more.thins settles'.extend
  have behind : t'.DropsBehindWrites s.owns v :=
    settles'.stores.dropsBehindWrites fun entry owned => more.owns ▸ owned
  have unstored : ∀ k, t'.StoresBehind k w v → s.owns (k, .storeFrame v) = true :=
    fun k also => absurd ⟨k, also⟩ none
  have calls : ∀ {i insn}, (i, insn) ∈ s.allCode →
      v ∈ (s'.effects captures).observed.get i → insn.isCall = true := fun inside =>
    Body.isCall_of_observed (more.allCode.symm ▸ inside)
  have undue : ¬ (s'.effects captures).DueStore s w v := by
    intro due
    refine settles'.writes w v ?_
    rw [← settles'.extend.effects captures] at due ⊢
    exact dueStore_of_thins thins behind unstored due
  rcases settles.dueStore_or_read_of_stored bare stored with
    ⟨b, above, insn, rest, point, split, writes, leads, observes⟩ |
    ⟨b, above, insn, rest, c, read, back, k, split, writes, loaded, leads⟩
  all_goals
    have inside : ∃ front, s.code b = front ++ rest :=
      ⟨above ++ [(w, insn)], split.trans (List.append_cons _ _ _)⟩
    rcases leads.unsynced_or_observed calls inside with there | ⟨seen, there, sees⟩
  · exact undue ⟨b, above, insn, rest, point, split, writes, there,
      more.effects.observes observes⟩
  · exact undue ⟨b, above, insn, rest, seen, split, writes, there, sees⟩
  · -- the path to the read comes past a load of it in the other placement too
    have settled := settles'.writes w v
    have candidate := more.effects.candidates v (Body.candidate_of_staleRead (Body.Extends.refl s)
      (settles.staleRead_of_loaded bare loaded))
    rw [← settles'.extend.effects captures] at there settled candidate
    obtain ⟨k, loaded⟩ := loaded_of_moreExposed more bare settles settles' ⟨k, loaded⟩
    obtain ⟨front, below, whole, _, _, rfl⟩ := thins.split split
    rcases lift_unsynced thins behind candidate unstored whole there with
      ⟨reached, path, thin, faces⟩ | ⟨reached, path, sees⟩
    · obtain ⟨_, rfl, _⟩ := faces.of_thin_cons thin
      obtain ⟨_, loading⟩ := path.to_load whole (plain_of_writesSlot writes).1 loaded
      exact settled ⟨b, front, insn, below, _, whole, writes, loading,
        Effects.Observes.load candidate⟩
    · exact settled ⟨b, front, insn, below, reached, whole, writes, path, sees⟩
  · exact undue ⟨b, above, insn, rest, seen, split, writes, there, sees⟩

theorem movesOwnLocals_of_moreExposed (moves : t.movesOwnLocals = true) :
    t'.movesOwnLocals = true := by
  have vars : t'.vars = t.vars := by rw [settles'.extend.vars, more.vars, settles.extend.vars]
  obtain ⟨⟨j, insn⟩, inside, own⟩ := List.any_eq_true.mp moves
  obtain ⟨b, member⟩ := Body.mem_allCode_iff.mp inside
  obtain ⟨above, rest, code⟩ := List.append_of_mem member
  have again : ∀ {c : BlockId} {k : InsnId}, (k, insn) ∈ t'.code c → t'.movesOwnLocals = true := by
    intro c k also
    refine List.any_eq_true.mpr ⟨(k, insn), Body.mem_allCode_of_mem_code also, ?_⟩
    unfold Body.movesOwn at own ⊢
    rw [vars]
    exact own
  cases insn with
  | storeFrame v =>
      obtain ⟨front, write, _, rfl, _⟩ := settles.stores b above rest j v code
        (settles.new bare code rfl)
      obtain ⟨k, c, _, _, _, there⟩ := stored_of_moreExposed more bare settles settles'
        ⟨j, b, front, write.2, rest, code.trans (List.append_assoc _ _ _)⟩
      rw [List.append_cons] at there
      exact again (Body.mem_code_of_split there)
  | loadFrame v =>
      obtain ⟨between, read, back, _, rfl, others, _, plain, _⟩ :=
        settles.loads b above rest j v code (settles.new bare code rfl)
      obtain ⟨k, c, _, _, _, _, there, _⟩ := loaded_of_moreExposed more bare settles settles'
        ⟨j, b, above, between, read.2, back, code, plain, fun one among => (others one among).2.1⟩
      exact again (Body.mem_code_of_split there)
  | _ => cases own

end Two

theorem Body.MoreExposed.needsFrame {s s' : Body} {captures : Captures} (more : s.MoreExposed s')
    (needs : (s.effects captures).needsFrame s = true) :
    (s'.effects captures).needsFrame s' = true := by
  unfold Effects.needsFrame at needs ⊢
  rw [Bool.or_eq_true] at needs ⊢
  refine needs.imp more.leaksBinding fun captured => ?_
  rw [Bool.not_eq_true', Bool.eq_false_iff] at captured ⊢
  intro empty
  refine captured (IdSet.isEmpty_iff.mpr fun v member => ?_)
  exact IdSet.isEmpty_iff.mp empty v (more.captured v member)

namespace Scope

variable {s t : Scope} {stats : Stats}

/-- What a strict run over a scope that is not exempt has done. -/
theorem placed_of_checked (proper : s.body.isExempt = false)
    (done : Checked.runAlone .strict s = .ok (t, .ok stats)) : s.body.insnsKnown = true ∧
      s.body.insertFrameInsns (s.body.effects s.captures) s.body.flowGraph =
        .ok (t.body, stats) := by
  obtain ⟨safe, run⟩ := run_of_checked done
  exact ⟨insnsKnown_of_runAloneDangles proper safe,
    (Body.place_eq_ok (Body.place_of_run proper run)).1⟩

theorem body_of_exempt (exempt : s.body.isExempt = true)
    (done : Checked.runAlone .strict s = .ok (t, .ok stats)) : t.body = s.body := by
  obtain ⟨_, run⟩ := run_of_checked done
  unfold Body.run at run
  rw [if_pos exempt] at run
  exact (congrArg Prod.fst run).symm

theorem MoreExposed.captures {s s' : Scope} (more : s.MoreExposed s') :
    s'.captures = s.captures := by
  have closures := more.closures
  have vars := more.body.vars
  obtain ⟨body, nested⟩ := s
  obtain ⟨body', nested'⟩ := s'
  obtain rfl : nested' = nested := closures
  exact captures_of_vars vars

variable {s' t' : Scope} {stats' : Stats}

/-- A scope that is exposed more gets no fewer moves.  Take two scopes without frame instructions
that are the same, except that the binding of the second one escapes, or that closures capture more
locals of it; and let a strict run place both.  Then every write with a store behind it in the first
result has one in the second, every read with a load before it has one, and if the first result
allocates its frame so does the second. -/
theorem runAlone_conservative (more : s.MoreExposed s')
    (bare : ∀ entry ∈ s.body.allCode, entry.2.isFrameInsn = false)
    (done : Checked.runAlone .strict s = .ok (t, .ok stats))
    (done' : Checked.runAlone .strict s' = .ok (t', .ok stats')) :
    (∀ w v, (∃ j, t.body.StoresBehind j w v) → ∃ j, t'.body.StoresBehind j w v) ∧
      (∀ r v, (∃ j, t.body.LoadsBefore j r v) → ∃ j, t'.body.LoadsBefore j r v) ∧
      ((∃ alloc ∈ t.body.allCode, alloc.2.isAlloc = true) →
        ∃ alloc ∈ t'.body.allCode, alloc.2.isAlloc = true) := by
  cases exempt : s.body.isExempt with
  | true =>
      -- a scope that is left alone has nothing inserted
      have same := body_of_exempt exempt done
      have none : ∀ {b above rest} {entry : InsnId × Insn},
          t.body.code b = above ++ entry :: rest → entry.2.isFrameInsn = false := by
        intro b above rest entry code
        rw [same] at code
        exact bare entry (Body.mem_allCode_of_code code)
      refine ⟨?_, ?_, ?_⟩
      · rintro w v ⟨j, b, front, insn, rest, code⟩
        rw [List.append_cons] at code
        cases none code
      · rintro r v ⟨j, b, front, between, insn, rest, code, _⟩
        cases none code
      · rintro ⟨alloc, inside, allocates⟩
        rw [same] at inside
        have plain := bare alloc inside
        rw [Insn.isAlloc_iff.mp allocates] at plain
        cases plain
  | false =>
      obtain ⟨known, placed⟩ := placed_of_checked exempt done
      obtain ⟨known', placed'⟩ := placed_of_checked (more.body.isExempt.trans exempt) done'
      rw [more.captures] at placed'
      have settles := Body.settles_of_placed known placed
      have settles' := Body.settles_of_placed known' placed'
      refine ⟨fun w v => stored_of_moreExposed more.body bare settles settles',
        fun r v => loaded_of_moreExposed more.body bare settles settles', ?_⟩
      rintro ⟨alloc, inside, allocates⟩
      obtain ⟨b, member⟩ := Body.mem_allCode_iff.mp inside
      have used := (Body.used_of_alloc known bare placed member allocates).imp
        more.body.needsFrame (movesOwnLocals_of_moreExposed more.body bare settles settles')
      have flow : s.body.hasFlow = true := by
        unfold Body.isExempt at exempt
        simp only [Bool.or_eq_false_iff, Bool.not_eq_false'] at exempt
        exact exempt.1.2
      obtain ⟨top, first⟩ := Option.isSome_iff_exists.mp flow
      have opens : t'.body.layout.entry? = some top := by
        unfold Layout.entry? at first ⊢
        rw [settles'.extend.blocks, more.body.same]
        exact first
      exact (Body.allocates_of_placed known' placed' used).exists_of_entry opens

end Scope

def exposing : Scope := totalling.withBody { totalling.body with escapes := true }

theorem runAlone_conservative_exposing :
    ∃ t stats t' stats', Checked.runAlone .strict totalling = .ok (t, .ok stats) ∧
      Checked.runAlone .strict exposing = .ok (t', .ok stats') ∧
      (stats.allocs = 1 ∧ stats.stores = 1 ∧ stats.loads = 1) ∧
      totalling.MoreExposed exposing ∧
      (∀ entry ∈ totalling.body.allCode, entry.2.isFrameInsn = false) ∧
      (t.body.StoresBehind 3 0 0 ∧ ∃ j, t'.body.StoresBehind j 0 0) ∧
      (t.body.LoadsBefore 4 2 0 ∧ ∃ j, t'.body.LoadsBefore j 2 0) ∧
      (∀ w v, (∃ j, t.body.StoresBehind j w v) → ∃ j, t'.body.StoresBehind j w v) ∧
      (∀ r v, (∃ j, t.body.LoadsBefore j r v) → ∃ j, t'.body.LoadsBefore j r v) ∧
      ((∃ alloc ∈ t.body.allCode, alloc.2.isAlloc = true) →
        ∃ alloc ∈ t'.body.allCode, alloc.2.isAlloc = true) := by
  have done : Checked.runAlone .strict totalling =
      .ok ((totalling.runAlone .strict).1,
        .ok { allocs := 1, stores := 1, loads := 1, visits := 3 }) := by rfl
  have done' : Checked.runAlone .strict exposing =
      .ok ((exposing.runAlone .strict).1,
        .ok { allocs := 1, stores := 1, loads := 1, visits := 3 }) := by rfl
  have more : totalling.MoreExposed exposing := ⟨⟨rfl, fun _ => rfl, fun _ => id⟩, rfl⟩
  have bare : ∀ entry ∈ totalling.body.allCode, entry.2.isFrameInsn = false := by decide
  have code : (totalling.runAlone .strict).1.body.code 0 =
      [(5, .allocFrame), (0, .copy 0 (.int 0)), (3, .storeFrame 0),
        (1, .call none .selfValue "each" [] (some (.closure 0))), (4, .loadFrame 0),
        (2, .ret (.var 0))] := by rfl
  have stored : (totalling.runAlone .strict).1.body.StoresBehind 3 0 0 :=
    ⟨0, [(5, .allocFrame)], _, _, code⟩
  have loaded : (totalling.runAlone .strict).1.body.LoadsBefore 4 2 0 :=
    ⟨0, [_, _, _, _], [], _, _, code, rfl, nofun⟩
  have kept := Scope.runAlone_conservative more bare done done'
  exact ⟨_, _, _, _, done, done', ⟨rfl, rfl, rfl⟩, more, bare,
    ⟨stored, kept.1 0 0 ⟨3, stored⟩⟩, ⟨loaded, kept.2.1 2 0 ⟨4, loaded⟩⟩, kept⟩

end FramePlacement
