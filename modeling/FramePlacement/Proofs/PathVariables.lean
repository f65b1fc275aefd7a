import FramePlacement.Proofs.BestSolution
import FramePlacement.Proofs.PathMeet
import FramePlacement.Proofs.Staleness
import FramePlacement.Proofs.Syncing
/-!
# Variables along paths

A forward problem whose transfers commute with the meet has one fact for each path, and the solver
returns the meet of these (`PathLaws.solve_isMeet`).  Where the problem follows each variable by
itself, the fact of a path says what the instructions on it did to the variable
(`Tracks.along_iff`), so the solved fact says whether some path did it.

The two placement analyses are such problems, also with the effects of one scope and the code of
another.
-/

set_option autoImplicit false

namespace FramePlacement

/-- Something is there at the end of a trail: it was there from the start or sprang up on the way,
and whatever was passed from then on kept it. -/
def Lingers (atStart : Prop) (gen keep : Passing) (trail : Trail) : Prop :=
  (atStart ∧ ∀ crossing ∈ trail, keep crossing.1 crossing.2) ∨
    ∃ before crossing rest, trail = before ++ crossing :: rest ∧ gen crossing.1 crossing.2 ∧
      ∀ later ∈ rest, keep later.1 later.2

theorem lingers_cons_iff {atStart : Prop} {gen keep : Passing} {crossing : Crossing}
    {rest : Trail} : Lingers atStart gen keep (crossing :: rest) ↔
      Lingers (gen crossing.1 crossing.2 ∨ atStart ∧ keep crossing.1 crossing.2) gen keep rest := by
  constructor
  · rintro (⟨start, kept⟩ | ⟨before, origin, after, trail, springs, kept⟩)
    · obtain ⟨here, later⟩ := List.forall_mem_cons.mp kept
      exact Or.inl ⟨Or.inr ⟨start, here⟩, later⟩
    · cases before with
      | nil =>
          obtain ⟨rfl, rfl⟩ := List.cons.inj trail
          exact Or.inl ⟨Or.inl springs, kept⟩
      | cons first before =>
          obtain ⟨rfl, rfl⟩ := List.cons.inj trail
          exact Or.inr ⟨before, origin, after, rfl, springs, kept⟩
  · rintro (⟨springs | ⟨start, here⟩, kept⟩ | ⟨before, origin, after, rfl, springs, kept⟩)
    · exact Or.inr ⟨[], crossing, rest, rfl, springs, kept⟩
    · exact Or.inl ⟨start, List.forall_mem_cons.mpr ⟨here, kept⟩⟩
    · exact Or.inr ⟨crossing :: before, origin, after, rfl, springs, kept⟩

namespace Problem

variable {F : Type}

structure PathLaws (p : Problem F) (s : Body) (facts : Finset F) : Prop where
  forward : p.direction = .forward
  meet : p.MeetLaws facts
  distributive : p.DistributiveOn s (· ∈ facts)

section Solver

variable {p : Problem F} {s : Body} {facts : Finset F} {rank : F → Nat} {entry b : BlockId}

/-- The solver comes to rest on the meet over all paths. -/
theorem PathLaws.solve_isMeet [DecidableEq F] (laws : p.PathLaws s facts)
    (setup : s.checkSetup s.flowGraph = .ok entry) :
    ∃ sol, p.RestsIn s entry sol ∧ (p.HeightCovers facts → p.solve s s.flowGraph = .ok sol) ∧
      ∀ b ∈ s.layout.blocks, p.IsMeet (· ∈ facts) (p.PathFact s b) (sol.ins.get b) := by
  have mono := laws.distributive.monotoneOn
  have rests := laws.meet.restsIn mono setup
  obtain ⟨rank, order⟩ := laws.meet.semilattice
  refine ⟨_, rests, rests.solve_eq laws.meet mono setup, fun b listed => ?_⟩
  apply (laws.distributive.withHeight facts.card).solved_isMeet order laws.forward setup
  exact (Body.checkSetup_eq_ok_iff.mp setup).2.2 b listed

end Solver

/-! ## What a path does to one variable -/

section Tracks

variable {p : Problem F} {s : Body} {bad : F → Prop} {gen keep : Passing}

theorem Tracks.along_iff (tracks : p.Tracks s bad gen keep) {trail : Trail}
    (inside : ∀ crossing ∈ trail, crossing.2 ∈ s.allCode) (fact : F) :
    bad (p.along trail fact) ↔ Lingers (bad fact) gen keep trail := by
  induction trail generalizing fact with
  | nil => simp [along, Lingers]
  | cons crossing rest ih =>
      have crossed : bad (p.cross fact crossing) ↔
          gen crossing.1 crossing.2 ∨ bad fact ∧ keep crossing.1 crossing.2 := by
        obtain ⟨passage, one⟩ := crossing
        have here := inside _ List.mem_cons_self
        cases passage with
        | completes => exact tracks.transfer one here fact
        | raises => exact tracks.transferRaise one here fact
      rw [lingers_cons_iff, ← crossed]
      exact ih (fun other member => inside other (List.mem_cons_of_mem crossing member)) _

variable {facts : Finset F} {rank : F → Nat} {values : F → Prop} {m : F} {entry b : BlockId}

theorem Tracks.isMeet_iff (tracks : p.Tracks s bad gen keep)
    (order : p.Semilattice (· ∈ facts) rank) (within : ∀ x, values x → x ∈ facts)
    (isMeet : p.IsMeet (· ∈ facts) values m) : bad m ↔ ∃ x, values x ∧ bad x := by
  obtain ⟨l, listed⟩ := exists_list within
  have inside : ∀ x ∈ l, x ∈ facts := fun x member => within x ((listed x).mp member)
  rw [isMeet.unique order (isMeet_meetOf order inside listed), meetOf, tracks.foldl_meet]
  simp only [tracks.initial, false_or, listed]

theorem Tracks.solved_iff [DecidableEq F] (tracks : p.Tracks s bad gen keep)
    (dist : p.DistributiveOn s (· ∈ facts)) (order : p.Semilattice (· ∈ facts) rank)
    (direction : p.direction = .forward) (setup : s.checkSetup s.flowGraph = .ok entry)
    (listed : b ∈ s.layout.blocks) : bad ((p.solved s s.flowGraph entry).ins.get b) ↔
      ∃ trail, s.TrailTo b trail ∧ Lingers (bad p.boundary) gen keep trail := by
  have reachable := (Body.checkSetup_eq_ok_iff.mp setup).2.2 b listed
  have isMeet := dist.solved_isMeet order direction setup reachable
  rw [tracks.isMeet_iff order (fun x path => path.isFact order dist.monotoneOn) isMeet]
  constructor
  · rintro ⟨x, ⟨trail, path, rfl⟩, now⟩
    exact ⟨trail, path, (tracks.along_iff path.inside p.boundary).mp now⟩
  · rintro ⟨trail, path, lingers⟩
    exact ⟨_, ⟨trail, path, rfl⟩, (tracks.along_iff path.inside p.boundary).mpr lingers⟩

end Tracks

end Problem

/-! ## The placement analyses -/

namespace Effects

/-- A write of `v` on the trail is followed by nothing that makes its frame current. -/
def UnsyncedAlong (e : Effects) (v : VarId) (trail : Trail) : Prop :=
  Lingers False (Renews v) (e.StaysUnsynced v) trail

/-- The frame of `v` gets ahead of its slot at the start or on the trail, and nothing after that
makes the slot good. -/
def StaleAlong (e : Effects) (v : VarId) (trail : Trail) : Prop :=
  Lingers (v ∈ e.enclosing) (e.Overtakes v) (LeavesStale v) trail

end Effects

section Analyses

variable {s t : Body} {captures : Captures} {entry b : BlockId} {v : VarId}

theorem storeProblem_pathLaws (s t : Body) (captures : Captures) :
    (s.effects captures).storeProblem.PathLaws t (s.effects captures).candidates.subsets where
  forward := rfl
  meet := (storeProblem_semilattice s captures).meetLaws fun _ => IdSet.mem_subsets_iff
  distributive := IdSet.among_eq_mem_subsets _ ▸ storeProblem_distributiveOn s t captures

theorem loadProblem_pathLaws (s t : Body) (captures : Captures) :
    (s.effects captures).loadProblem.PathLaws t (s.effects captures).candidates.subsets where
  forward := rfl
  meet := (loadProblem_semilattice s captures).meetLaws fun _ => IdSet.mem_subsets_iff
  distributive := IdSet.among_eq_mem_subsets _ ▸ loadProblem_distributiveOn s t captures

theorem mem_solved_store_iff (setup : t.checkSetup t.flowGraph = .ok entry)
    (listed : b ∈ t.layout.blocks) :
    v ∈ ((s.effects captures).storeProblem.solved t t.flowGraph entry).ins.get b ↔
      v ∈ (s.effects captures).candidates ∧
        ∀ trail, t.TrailTo b trail → ¬ (s.effects captures).UnsyncedAlong v trail := by
  have order := storeProblem_semilattice s captures
  have dist := storeProblem_distributiveOn s t captures
  have fact := ((Problem.isSolution_solved order dist.monotoneOn setup).1 b).1
  rw [IdSet.among_eq_mem_subsets] at order dist
  by_cases candidate : v ∈ (s.effects captures).candidates
  · have unsynced := (storeProblem_tracks t candidate).solved_iff dist order rfl setup listed
    have synced : (¬ v ∈ (s.effects captures).storeProblem.boundary) = False :=
      eq_false (not_not_intro candidate)
    rw [synced] at unsynced
    rw [and_iff_right candidate, ← not_iff_not, unsynced]
    simp only [not_forall, not_not, exists_prop]
    exact Iff.rfl
  · exact iff_of_false (fun member => candidate (fact v member)) fun both => candidate both.1

theorem mem_solved_load_iff (setup : t.checkSetup t.flowGraph = .ok entry)
    (listed : b ∈ t.layout.blocks) :
    v ∈ ((s.effects captures).loadProblem.solved t t.flowGraph entry).ins.get b ↔
      ∃ trail, t.TrailTo b trail ∧ (s.effects captures).StaleAlong v trail := by
  have order := loadProblem_semilattice s captures
  have dist := loadProblem_distributiveOn s t captures
  rw [IdSet.among_eq_mem_subsets] at order dist
  exact (loadProblem_tracks _ t v).solved_iff dist order rfl setup listed

end Analyses

/-- The forward solver computes the meet over all paths.  It comes to rest, and the fact at the top
of a block is the greatest one below the facts that the paths from the entry bring there.  The
placement analyses are such problems, with the effects of any scope: a variable is in the store fact
of a block when every path leaves it synced, and in the load fact when some path leaves it stale. -/
theorem Scope.solve_meets_paths (s : Scope) {entry : BlockId}
    (setup : s.body.checkSetup s.body.flowGraph = .ok entry) :
    (∀ {F : Type} [DecidableEq F] (p : Problem F) {facts : Finset F}, p.PathLaws s.body facts →
      ∃ sol, p.RestsIn s.body entry sol ∧
        (p.HeightCovers facts → p.solve s.body s.body.flowGraph = .ok sol) ∧
        ∀ b ∈ s.body.layout.blocks,
          p.IsMeet (· ∈ facts) (p.PathFact s.body b) (sol.ins.get b)) ∧
    ∀ other : Scope,
      (other.effects.storeProblem.PathLaws s.body other.effects.candidates.subsets ∧
        ∃ sol, other.effects.storeProblem.solve s.body s.body.flowGraph = .ok sol ∧
          other.effects.storeProblem.RestsIn s.body entry sol ∧
          ∀ b ∈ s.body.layout.blocks, ∀ v, v ∈ sol.ins.get b ↔ v ∈ other.effects.candidates ∧
            ∀ trail, s.body.TrailTo b trail → ¬ other.effects.UnsyncedAlong v trail) ∧
      (other.effects.loadProblem.PathLaws s.body other.effects.candidates.subsets ∧
        ∃ sol, other.effects.loadProblem.solve s.body s.body.flowGraph = .ok sol ∧
          other.effects.loadProblem.RestsIn s.body entry sol ∧
          ∀ b ∈ s.body.layout.blocks, ∀ v, v ∈ sol.ins.get b ↔
            ∃ trail, s.body.TrailTo b trail ∧ other.effects.StaleAlong v trail) := by
  refine ⟨fun p facts laws => laws.solve_isMeet setup, fun other => ⟨⟨?_, ?_⟩, ⟨?_, ?_⟩⟩⟩
  · exact storeProblem_pathLaws other.body s.body other.captures
  · have laws := storeProblem_pathLaws other.body s.body other.captures
    have covers := (storeProblem_semilattice other.body other.captures).heightCovers
      fun _ => IdSet.mem_subsets_iff
    have rests := laws.meet.restsIn_solved laws.distributive.monotoneOn setup covers
    exact ⟨_, Problem.solve_eq_solved setup, rests,
      fun b listed v => mem_solved_store_iff setup listed⟩
  · exact loadProblem_pathLaws other.body s.body other.captures
  · have laws := loadProblem_pathLaws other.body s.body other.captures
    have covers := (loadProblem_semilattice other.body other.captures).heightCovers
      fun _ => IdSet.mem_subsets_iff
    have rests := laws.meet.restsIn_solved laws.distributive.monotoneOn setup covers
    exact ⟨_, Problem.solve_eq_solved setup, rests,
      fun b listed v => mem_solved_load_iff setup listed⟩

theorem solve_meets_paths_retrying :
    retrying.body.checkSetup retrying.body.flowGraph = .ok 0 ∧
      ∃ sol, retrying.effects.storeProblem.solve retrying.body retrying.body.flowGraph = .ok sol ∧
        sol.queue = [] ∧ ∀ b ∈ retrying.body.layout.blocks,
          retrying.effects.storeProblem.IsMeet (· ∈ retrying.effects.candidates.subsets)
              (retrying.effects.storeProblem.PathFact retrying.body b) (sol.ins.get b) ∧
            ∀ v, v ∈ sol.ins.get b ↔ v ∈ retrying.effects.candidates ∧
              ∀ trail, retrying.body.TrailTo b trail →
                ¬ retrying.effects.UnsyncedAlong v trail := by
  have setup : retrying.body.checkSetup retrying.body.flowGraph = .ok 0 := by decide
  obtain ⟨general, analyses⟩ := retrying.solve_meets_paths setup
  obtain ⟨⟨laws, sol, solves, rests, synced⟩, _⟩ := analyses retrying
  obtain ⟨met, _, solved, isMeet⟩ := general retrying.effects.storeProblem laws
  have covers : retrying.effects.storeProblem.HeightCovers retrying.effects.candidates.subsets :=
    ⟨IdSet.size, by decide, by decide⟩
  have same : sol = met := Except.ok.inj (solves.symm.trans (solved covers))
  subst same
  exact ⟨setup, sol, solves, rests.1, fun b listed => ⟨isMeet b listed, synced b listed⟩⟩

end FramePlacement
