import FramePlacement.Dataflow.Classic
import FramePlacement.Proofs.Equations
/-!
# The solver returns the greatest solution

The declared height of a problem limits how many visits the solver makes, and nothing else: a run
whose queue is empty stays as it is (`iterate_of_drained`).  Over finitely many facts every run
comes to rest, whatever height is declared, and where it rests is the greatest solution of the
dataflow equations, forwards and backwards (`Scope.solve_greatest`).
-/

set_option autoImplicit false

namespace FramePlacement

namespace Problem

variable {F : Type} [DecidableEq F]

/-- Long enough runs from the start all end with these facts and an empty queue. -/
def RestsIn (p : Problem F) (s : Body) (entry : BlockId) (sol : Solution F) : Prop :=
  sol.queue = [] ∧ ∃ enough, ∀ limit, enough ≤ limit →
    p.iterate s s.flowGraph entry limit (p.start s.flowGraph) = sol

variable {p : Problem F} {s : Body} {g : FlowGraph} {entry : BlockId} {sol : Solution F}

/-! ## Longer runs -/

theorem iterate_of_drained {limit more : Nat} (longer : limit ≤ more)
    (drained : (p.iterate s g entry limit sol).queue = []) :
    p.iterate s g entry more sol = p.iterate s g entry limit sol := by
  induction limit generalizing sol more with
  | zero =>
      have empty : sol.queue = [] := drained
      cases more with
      | zero => rfl
      | succ more => simp only [iterate, empty]
  | succ limit ih =>
      obtain ⟨more, rfl⟩ : ∃ fewer, more = fewer + 1 := ⟨more - 1, by omega⟩
      simp only [iterate] at drained ⊢
      cases waiting : sol.queue with
      | nil => rfl
      | cons b rest =>
          simp only [waiting] at drained ⊢
          exact ih (Nat.le_of_succ_le_succ longer) drained

theorem RestsIn.iterate_eq {limit : Nat} (rests : p.RestsIn s entry sol)
    (drained : (p.iterate s s.flowGraph entry limit (p.start s.flowGraph)).queue = []) :
    p.iterate s s.flowGraph entry limit (p.start s.flowGraph) = sol := by
  obtain ⟨_, enough, same⟩ := rests
  rw [← iterate_of_drained (Nat.le_max_left limit enough) drained]
  exact same _ (Nat.le_max_right limit enough)

theorem restsIn_solved {Fact : F → Prop} {rank : F → Nat} (order : p.Semilattice Fact rank)
    (steady : p.Steady s s.flowGraph entry Fact) :
    p.RestsIn s entry (p.solved s s.flowGraph entry) := by
  have drained := queue_solved order steady
  exact ⟨drained, p.visitLimit s.flowGraph, fun limit enough => iterate_of_drained enough drained⟩

/-! ## Runs of a problem with another height -/

omit [DecidableEq F] in
theorem raised_withHeight (height : Nat) (code : Code) (fact acc : F) :
    (p.withHeight height).raised code fact acc = p.raised code fact acc := by
  induction code generalizing fact acc with
  | nil => rfl
  | cons one rest ih => exact ih _ _

theorem visit_withHeight (height : Nat) (b : BlockId) :
    (p.withHeight height).visit s g entry sol b = p.visit s g entry sol b := by
  have forward : (p.withHeight height).visitForward s g entry sol b =
      p.visitForward s g entry sol b := by
    simp only [visitForward, raised_withHeight]
    rfl
  have backward : (p.withHeight height).visitBackward s g sol b = p.visitBackward s g sol b := rfl
  simp only [visit, forward, backward]
  rfl

theorem iterate_withHeight (height limit : Nat) :
    (p.withHeight height).iterate s g entry limit sol = p.iterate s g entry limit sol := by
  induction limit generalizing sol with
  | zero => rfl
  | succ limit ih => simp only [iterate, visit_withHeight, ih]

omit [DecidableEq F] in
theorem MonotoneOn.withHeight {Fact : F → Prop} (mono : p.MonotoneOn s Fact) (height : Nat) :
    (p.withHeight height).MonotoneOn s Fact where
  transfer_fact := mono.transfer_fact
  transfer_mono := mono.transfer_mono
  raise_fact := mono.raise_fact
  raise_mono := mono.raise_mono

omit [DecidableEq F] in
theorem DistributiveOn.withHeight {Fact : F → Prop} (dist : p.DistributiveOn s Fact)
    (height : Nat) : (p.withHeight height).DistributiveOn s Fact where
  transfer one inside := ⟨(dist.transfer one inside).fact, (dist.transfer one inside).meet⟩
  raise one inside := ⟨(dist.raise one inside).fact, (dist.raise one inside).meet⟩

/-! ## Coming to rest -/

variable {facts : Finset F}

theorem MeetLaws.restsIn (laws : p.MeetLaws facts) (mono : p.MonotoneOn s (· ∈ facts))
    (setup : s.checkSetup s.flowGraph = .ok entry) :
    p.RestsIn s entry ((p.withHeight facts.card).solved s s.flowGraph entry) := by
  obtain ⟨rank, order⟩ := laws.semilattice
  have steady := (mono.withHeight facts.card).steady_flowGraph order setup
  have drained := queue_solved order steady
  refine ⟨drained, (p.withHeight facts.card).visitLimit s.flowGraph, fun limit enough => ?_⟩
  calc p.iterate s s.flowGraph entry limit (p.start s.flowGraph)
    _ = (p.withHeight facts.card).iterate s s.flowGraph entry limit
          ((p.withHeight facts.card).start s.flowGraph) := (iterate_withHeight _ _).symm
    _ = (p.withHeight facts.card).solved s s.flowGraph entry := iterate_of_drained enough drained

theorem RestsIn.solve_eq (rests : p.RestsIn s entry sol) (laws : p.MeetLaws facts)
    (mono : p.MonotoneOn s (· ∈ facts)) (setup : s.checkSetup s.flowGraph = .ok entry)
    (covers : p.HeightCovers facts) : p.solve s s.flowGraph = .ok sol := by
  obtain ⟨rank, strict, bound⟩ := covers
  have order : p.Semilattice (· ∈ facts) rank := laws.semilattice_of_rank strict bound
  have drained := queue_solved order (mono.steady_flowGraph order setup)
  rw [solve_eq_solved setup]
  exact congrArg Except.ok (rests.iterate_eq drained)

theorem MeetLaws.restsIn_solved (laws : p.MeetLaws facts) (mono : p.MonotoneOn s (· ∈ facts))
    (setup : s.checkSetup s.flowGraph = .ok entry) (covers : p.HeightCovers facts) :
    p.RestsIn s entry (p.solved s s.flowGraph entry) := by
  have rests := laws.restsIn mono setup
  have solves := rests.solve_eq laws mono setup covers
  rw [solve_eq_solved setup] at solves
  rw [Except.ok.inj solves]
  exact rests

end Problem

/-- The solver comes to rest on the greatest solution of the dataflow equations.  A problem of
either direction over finitely many facts, with monotone transfers, has a solution that every long
enough run ends with; no solution has a fact that is not below its own at the same block. -/
theorem Scope.solve_greatest (s : Scope) {entry : BlockId}
    (setup : s.body.checkSetup s.body.flowGraph = .ok entry) {F : Type} [DecidableEq F]
    (p : Problem F) {facts : Finset F} (laws : p.MeetLaws facts)
    (mono : p.MonotoneOn s.body (· ∈ facts)) :
    ∃ sol, p.RestsIn s.body entry sol ∧
      (p.HeightCovers facts → p.solve s.body s.body.flowGraph = .ok sol) ∧
      (∀ b ∈ s.body.layout.blocks, s.body.flowGraph.Reachable b) ∧
      p.IsSolution s.body entry (· ∈ facts) sol.blockFacts ∧
      ∀ v, p.IsSolution s.body entry (· ∈ facts) v →
        ∀ b, s.body.flowGraph.Reachable b → p.LowerAt v sol.blockFacts b := by
  have rests := laws.restsIn mono setup
  obtain ⟨rank, order⟩ := laws.semilattice
  have later := mono.withHeight facts.card
  have listed := (Body.checkSetup_eq_ok_iff.mp setup).2.2
  refine ⟨_, rests, rests.solve_eq laws mono setup, listed, ?_, ?_⟩
  · exact Problem.isSolution_solved order later setup
  · intro v solution b reachable
    exact Problem.IsSolution.lower_solved order later setup solution reachable

/-- A closure that fetches into a local of the enclosing scope until it gets something, and notes
what it had when fetching fails. -/
def retrying : Scope :=
  .node
    { name := "retrying"
      kind := .closure
      layout := ({} : Layout).appendBlock 0 |>.appendBlock 1 |>.appendBlock 2
        |>.appendInsn 0 0 |>.appendInsn 1 0 |>.appendInsn 2 1 |>.appendInsn 3 1 |>.appendInsn 4 1
        |>.appendInsn 5 2
      handlers := #[some 1, none, none]
      insns := #[.call (some 0) .selfValue "fetch" [] none, .branch (.var 0) 2 0,
        .receiveException 1, .call none .selfValue "note" [.var 0] none, .jump 0, .ret (.var 0)]
      vars := ((({} : VarTable).intern (.named "found" 1)).2.intern (.named "error" 0)).2 } []

def retryingFacts : Finset IdSet := {∅, IdSet.ofList [0]}

theorem solve_greatest_retrying :
    retrying.body.checkSetup retrying.body.flowGraph = .ok 0 ∧
      ∃ sol, (Classic.live retrying.body ∅).solve retrying.body retrying.body.flowGraph = .ok sol ∧
        (Classic.live retrying.body ∅).IsSolution retrying.body 0 (· ∈ retryingFacts)
          sol.blockFacts ∧
        ∀ v, (Classic.live retrying.body ∅).IsSolution retrying.body 0 (· ∈ retryingFacts) v →
          ∀ b, retrying.body.flowGraph.Reachable b →
            (Classic.live retrying.body ∅).LowerAt v sol.blockFacts b := by
  have setup : retrying.body.checkSetup retrying.body.flowGraph = .ok 0 := by decide
  generalize defined : Classic.live retrying.body ∅ = p
  have laws : p.MeetLaws retryingFacts := by
    subst defined
    constructor <;> decide
  have facts : ∀ one ∈ retrying.body.allCode, ∀ a ∈ retryingFacts,
      p.transfer one.1 one.2 a ∈ retryingFacts ∧ p.transferRaise one.1 one.2 a ∈ retryingFacts := by
    subst defined
    decide
  have below : ∀ one ∈ retrying.body.allCode, ∀ a ∈ retryingFacts, ∀ b ∈ retryingFacts,
      p.Below a b → p.Below (p.transfer one.1 one.2 a) (p.transfer one.1 one.2 b) ∧
        p.Below (p.transferRaise one.1 one.2 a) (p.transferRaise one.1 one.2 b) := by
    subst defined
    decide
  have covers : p.HeightCovers retryingFacts := by
    subst defined
    exact ⟨fun a => 1 - a.size, by decide, by decide⟩
  have mono : p.MonotoneOn retrying.body (· ∈ retryingFacts) :=
    { transfer_fact := fun inside memA => (facts _ inside _ memA).1
      transfer_mono := fun inside memA memB order => (below _ inside _ memA _ memB order).1
      raise_fact := fun inside memA => (facts _ inside _ memA).2
      raise_mono := fun inside memA memB order => (below _ inside _ memA _ memB order).2 }
  obtain ⟨sol, _, solved, _, solution, greatest⟩ := retrying.solve_greatest setup p laws mono
  exact ⟨setup, sol, solved covers, solution, greatest⟩

end FramePlacement
