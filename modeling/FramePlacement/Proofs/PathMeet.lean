import FramePlacement.Proofs.Equations
/-!
# Solved facts as meets over paths

A path from the entry passes the code of the blocks it leaves at their end, and where it leaves a
block by an exception it passes the instructions before a raising one and then that one.  Each path
brings a fact to the block it ends at (`Problem.PathFact`).

Every solution of a forward problem is below all these facts (`IsSolution.below_along`).  When the
transfers commute with the meet, the meets over the paths form a solution themselves
(`MeetsPaths.isSolution`), so the greatest one is at least as great: it is the meet over
all paths (`DistributiveOn.solved_isMeet`).
-/

set_option autoImplicit false

namespace FramePlacement

abbrev Crossing := Passage × (InsnId × Insn)

abbrev Trail := List Crossing

def completing (code : Code) : Trail := code.map fun one => (.completes, one)

/-- A path from the entry leads to the top of the block and has passed these instructions. -/
inductive Body.TrailTo (s : Body) : BlockId → Trail → Prop where
  | entry {b : BlockId} : s.layout.entry? = some b → TrailTo s b []
  | edge {b c : BlockId} {trail : Trail} :
      TrailTo s b trail → c ∈ s.flowGraph.succs b → TrailTo s c (trail ++ completing (s.code b))
  | raise {b handler : BlockId} {trail : Trail} {above rest : Code} {one : InsnId × Insn} :
      TrailTo s b trail → s.code b = above ++ one :: rest → one.2.canRaise = true →
      handler ∈ s.flowGraph.excSuccs b →
      TrailTo s handler (trail ++ (completing above ++ [(.raises, one)]))

namespace Body

variable {s : Body} {b : BlockId} {trail : Trail}

theorem TrailTo.inside (path : s.TrailTo b trail) :
    ∀ crossing ∈ trail, crossing.2 ∈ s.allCode := by
  have completed : ∀ {code : Code}, (∀ one ∈ code, one ∈ s.allCode) →
      ∀ crossing ∈ completing code, crossing.2 ∈ s.allCode := by
    intro code among crossing member
    obtain ⟨one, listed, rfl⟩ := List.mem_map.mp member
    exact among one listed
  induction path with
  | entry _ => exact fun crossing member => absurd member List.not_mem_nil
  | edge _ _ ih =>
      intro crossing member
      rcases List.mem_append.mp member with earlier | last
      · exact ih crossing earlier
      · exact completed (fun _ => mem_allCode_of_mem_code) crossing last
  | raise _ code _ _ ih =>
      intro crossing member
      rcases List.mem_append.mp member with earlier | last
      · exact ih crossing earlier
      · rcases List.mem_append.mp last with before | raised
        · exact completed (mem_allCode_of_above code) crossing before
        · rw [List.mem_singleton.mp raised]
          exact mem_allCode_of_code code

theorem TrailTo.reachable {entry : BlockId} (setup : s.checkSetup s.flowGraph = .ok entry)
    (path : s.TrailTo b trail) : s.flowGraph.Reachable b := by
  obtain ⟨_, _, all⟩ := checkSetup_eq_ok_iff.mp setup
  induction path with
  | entry first => exact all _ (List.mem_of_head? first)
  | edge _ target ih => exact ih.step (IdSet.mem_union.mpr (Or.inl target))
  | raise _ _ _ target ih => exact ih.step (IdSet.mem_union.mpr (Or.inr target))

theorem exists_trailTo (reachable : s.flowGraph.Reachable b) : ∃ trail, s.TrailTo b trail := by
  obtain ⟨entry, first, linked⟩ := reachable
  induction linked with
  | refl => exact ⟨[], TrailTo.entry first⟩
  | @tail c d _ link ih =>
      obtain ⟨trail, path⟩ := ih
      rcases IdSet.mem_union.mp link with normal | exceptional
      · exact ⟨_, path.edge normal⟩
      · obtain ⟨_, raises, _⟩ := mem_excSuccs_flowGraph.mp exceptional
        obtain ⟨one, member, raising⟩ := List.any_eq_true.mp raises
        obtain ⟨above, rest, code⟩ := List.append_of_mem member
        exact ⟨_, path.raise code raising exceptional⟩

end Body

namespace Problem

variable {F : Type}

/-! ## Facts along a path -/

def cross (p : Problem F) (fact : F) (crossing : Crossing) : F :=
  match crossing.1 with
  | .completes => p.transfer crossing.2.1 crossing.2.2 fact
  | .raises => p.transferRaise crossing.2.1 crossing.2.2 fact

def along (p : Problem F) (trail : Trail) (fact : F) : F := trail.foldl p.cross fact

/-- A fact that some path brings to the top of the block. -/
def PathFact (p : Problem F) (s : Body) (b : BlockId) (x : F) : Prop :=
  ∃ trail, s.TrailTo b trail ∧ x = p.along trail p.boundary

section Along

variable {p : Problem F} {s : Body} {Fact : F → Prop} {fact : F}

theorem along_append (first second : Trail) :
    p.along (first ++ second) fact = p.along second (p.along first fact) := List.foldl_append

theorem along_completing (code : Code) : p.along (completing code) fact = p.after code fact := by
  rw [along, completing, List.foldl_map]
  rfl

theorem along_raise (trail : Trail) (above : Code) (one : InsnId × Insn) :
    p.along (trail ++ (completing above ++ [(.raises, one)])) fact =
      p.transferRaise one.1 one.2 (p.after above (p.along trail fact)) := by
  rw [along_append, along_append, along_completing]
  rfl

theorem along_fact (mono : p.MonotoneOn s Fact) {trail : Trail}
    (inside : ∀ crossing ∈ trail, crossing.2 ∈ s.allCode) (start : Fact fact) :
    Fact (p.along trail fact) := by
  induction trail generalizing fact with
  | nil => exact start
  | cons crossing rest ih =>
      have here := inside crossing List.mem_cons_self
      apply ih fun other member => inside other (List.mem_cons_of_mem crossing member)
      unfold cross
      split
      · exact mono.transfer_fact here start
      · exact mono.raise_fact here start

theorem PathFact.isFact {rank : F → Nat} (order : p.Semilattice Fact rank)
    (mono : p.MonotoneOn s Fact) {b : BlockId} {x : F} (path : p.PathFact s b x) : Fact x := by
  obtain ⟨trail, leads, rfl⟩ := path
  exact along_fact mono leads.inside order.boundary_fact

end Along

/-! ## Solutions are below every path -/

section Below

variable {p : Problem F} {s : Body} {Fact : F → Prop} {rank : F → Nat} {entry b : BlockId}
  {v : BlockFacts F} {a x : F} {trail : Trail}

theorem below_along_edge (order : p.Semilattice Fact rank) (mono : p.MonotoneOn s Fact)
    (path : s.TrailTo b trail) (factA : Fact a) (factX : Fact x)
    (leaves : p.Below a (p.after (s.code b) x)) (lower : p.Below x (p.along trail p.boundary)) :
    p.Below a (p.along (trail ++ completing (s.code b)) p.boundary) := by
  have inside : ∀ one ∈ s.code b, one ∈ s.allCode := fun one => Body.mem_allCode_of_mem_code
  have arrived := along_fact mono path.inside order.boundary_fact
  rw [along_append, along_completing]
  apply order.below_trans factA (after_fact mono inside factX)
    (after_fact mono inside arrived) leaves
  exact after_mono mono inside factX arrived lower

theorem below_along_raise (order : p.Semilattice Fact rank) (mono : p.MonotoneOn s Fact)
    (path : s.TrailTo b trail) {above rest : Code} {one : InsnId × Insn}
    (code : s.code b = above ++ one :: rest) (factA : Fact a) (factX : Fact x)
    (leaves : p.Below a (p.transferRaise one.1 one.2 (p.after above x)))
    (lower : p.Below x (p.along trail p.boundary)) :
    p.Below a (p.along (trail ++ (completing above ++ [(.raises, one)])) p.boundary) := by
  have here := Body.mem_allCode_of_code code
  have inside := Body.mem_allCode_of_above code
  have arrived := along_fact mono path.inside order.boundary_fact
  have before := after_fact mono inside factX
  have beyond := after_fact mono inside arrived
  rw [along_raise]
  apply order.below_trans factA (mono.raise_fact here before) (mono.raise_fact here beyond) leaves
  exact mono.raise_mono here before beyond (after_mono mono inside factX arrived lower)

theorem IsSolution.below_along (order : p.Semilattice Fact rank) (mono : p.MonotoneOn s Fact)
    (direction : p.direction = .forward) (setup : s.checkSetup s.flowGraph = .ok entry)
    (solution : p.IsSolution s entry Fact v) (path : s.TrailTo b trail) :
    p.Below (v.ins b) (p.along trail p.boundary) := by
  obtain ⟨within, solves⟩ := solution
  simp only [SolvesAt, direction] at solves
  have joins : ∀ {c trail}, s.TrailTo c trail → ∀ x, p.JoinsAt s entry v c x →
      p.Below (v.ins c) x := fun path => (solves _ (path.reachable setup)).1.2.1
  induction path with
  | entry first =>
      refine joins (Body.TrailTo.entry first) _ (Or.inl ⟨?_, rfl⟩)
      exact Option.some.inj (first.symm.trans (Body.checkSetup_eq_ok_iff.mp setup).1)
  | @edge b c trail path target ih =>
      obtain ⟨_, outs, _⟩ := solves b (path.reachable setup)
      have leaves := joins (path.edge target) _
        (Or.inr (Or.inl ⟨b, FlowGraph.mem_preds_iff.mpr target, rfl⟩))
      rw [outs] at leaves
      exact below_along_edge order mono path (within c).1 (within b).1 leaves ih
  | @raise b handler trail above rest one path code raises target ih =>
      obtain ⟨_, _, _, throws, _⟩ := solves b (path.reachable setup)
      have leaves := joins (path.raise code raises target) _
        (Or.inr (Or.inr ⟨b, FlowGraph.mem_excPreds_iff.mpr target, rfl⟩))
      have thrown := throws _
        ⟨Body.handler?_isSome_of_mem_excSuccs target, above, one, rest, code, raises, rfl⟩
      have factR := mono.raise_fact (Body.mem_allCode_of_code code)
        (after_fact mono (Body.mem_allCode_of_above code) (within b).1)
      apply below_along_raise order mono path code (within handler).1 (within b).1 _ ih
      exact order.below_trans (within handler).1 (within b).2.2 factR leaves thrown

end Below

/-! ## Meets of finitely many facts -/

def meetOf (p : Problem F) (l : List F) : F := l.foldl p.meet p.initial

section Finite

variable {p : Problem F} {Fact : F → Prop} {rank : F → Nat} {values : F → Prop} {m n : F}

theorem IsMeet.unique (order : p.Semilattice Fact rank) (first : p.IsMeet Fact values m)
    (second : p.IsMeet Fact values n) : m = n := by
  calc m = p.meet m n := (second.2.2 m first.1 first.2.1).symm
    _ = p.meet n m := order.meet_comm first.1 second.1
    _ = n := first.2.2 n second.1 second.2.1

theorem isMeet_meetOf (order : p.Semilattice Fact rank) {l : List F} (within : ∀ x ∈ l, Fact x)
    (same : ∀ x, x ∈ l ↔ values x) : p.IsMeet Fact values (p.meetOf l) := by
  apply order.isMeet_of_below_iff
  · exact List.foldlRecOn l p.meet order.initial_fact fun a factA x member =>
      order.meet_fact factA (within x member)
  · intro a factA
    rw [meetOf, below_foldl_meet_iff order within order.initial_fact factA]
    simp only [same]
    exact and_iff_right (order.meet_initial factA)

theorem Distributes.foldl {f : F → F} (distributes : p.Distributes Fact f)
    (order : p.Semilattice Fact rank) {l : List F} (within : ∀ x ∈ l, Fact x) {a : F}
    (fact : Fact a) : f (l.foldl p.meet a) = (l.map f).foldl p.meet (f a) := by
  induction l generalizing a with
  | nil => rfl
  | cons x rest ih =>
      have factX := within x List.mem_cons_self
      rw [List.foldl_cons, ih (fun y member => within y (List.mem_cons_of_mem x member))
        (order.meet_fact fact factX), distributes.meet a x fact factX]
      rfl

theorem Distributes.meetOf {f : F → F} (distributes : p.Distributes Fact f)
    (order : p.Semilattice Fact rank) {l : List F} (within : ∀ x ∈ l, Fact x) (some : l ≠ []) :
    f (p.meetOf l) = p.meetOf (l.map f) := by
  obtain ⟨x, rest, rfl⟩ := List.exists_cons_of_ne_nil some
  have initial_meet : ∀ y, Fact y → p.meet p.initial y = y := by
    intro y factY
    rw [order.meet_comm order.initial_fact factY]
    exact order.meet_initial factY
  have factX := within x List.mem_cons_self
  simp only [Problem.meetOf, List.map_cons, List.foldl_cons]
  rw [initial_meet x factX, initial_meet (f x) (distributes.fact x factX)]
  exact distributes.foldl order (fun y member => within y (List.mem_cons_of_mem x member)) factX

variable {facts : Finset F}

theorem exists_list (within : ∀ x, values x → x ∈ facts) : ∃ l : List F, ∀ x, x ∈ l ↔ values x := by
  classical
  refine ⟨(facts.filter values).toList, fun x => ?_⟩
  rw [Finset.mem_toList, Finset.mem_filter]
  exact and_iff_right_of_imp (within x)

/-- Some facts have a meet, and maps that commute with meets take it to the meet of the images. -/
theorem Semilattice.exists_isMeet (order : p.Semilattice (· ∈ facts) rank)
    (within : ∀ x, values x → x ∈ facts) : ∃ m, p.IsMeet (· ∈ facts) values m ∧
      ((∃ x, values x) → ∀ f, p.Distributes (· ∈ facts) f →
        p.IsMeet (· ∈ facts) (fun y => ∃ x, values x ∧ y = f x) (f m)) := by
  obtain ⟨l, listed⟩ := exists_list within
  have inside : ∀ x ∈ l, x ∈ facts := fun x member => within x ((listed x).mp member)
  refine ⟨p.meetOf l, isMeet_meetOf order inside listed, ?_⟩
  rintro ⟨x, value⟩ f distributes
  rw [distributes.meetOf order inside (List.ne_nil_of_mem ((listed x).mpr value))]
  apply isMeet_meetOf order
  · intro y member
    obtain ⟨z, among, rfl⟩ := List.mem_map.mp member
    exact distributes.fact z (inside z among)
  · intro y
    rw [List.mem_map]
    exact exists_congr fun z => and_congr (listed z) eq_comm

end Finite

/-! ## The meets over the paths solve the equations -/

/-- What flows into each block is the meet over the paths to it, what flows out follows from that,
and maps that commute with meets take the meets over the paths to the meets of the images. -/
structure MeetsPaths (p : Problem F) (s : Body) (facts : Finset F) (v : BlockFacts F) : Prop where
  ins : ∀ b, p.IsMeet (· ∈ facts) (p.PathFact s b) (v.ins b)
  image : ∀ {b f}, s.flowGraph.Reachable b → p.Distributes (· ∈ facts) f →
    p.IsMeet (· ∈ facts) (fun y => ∃ x, p.PathFact s b x ∧ y = f x) (f (v.ins b))
  outs : ∀ b, v.outs b = p.after (s.code b) (v.ins b)
  excOuts : ∀ b, p.IsMeet (· ∈ facts)
    (fun x => (s.handler? b).isSome ∧ p.Throws (s.code b) (v.ins b) x) (v.excOuts b)

section Coincidence

variable {p : Problem F} {s : Body} {facts : Finset F} {rank : F → Nat} {entry b : BlockId}
  {v : BlockFacts F}

theorem DistributiveOn.exists_meetsPaths (dist : p.DistributiveOn s (· ∈ facts))
    (order : p.Semilattice (· ∈ facts) rank) : ∃ v, p.MeetsPaths s facts v := by
  have mono := dist.monotoneOn
  have arrives : ∀ b x, p.PathFact s b x → x ∈ facts := fun b x path => path.isFact order mono
  choose joins isMeet carried using fun b => order.exists_isMeet (arrives b)
  have raised : ∀ b x, (s.handler? b).isSome ∧ p.Throws (s.code b) (joins b) x → x ∈ facts := by
    rintro b x ⟨_, above, one, rest, code, _, rfl⟩
    exact mono.raise_fact (Body.mem_allCode_of_code code)
      (after_fact mono (Body.mem_allCode_of_above code) (isMeet b).1)
  choose thrown isThrown _ using fun b => order.exists_isMeet (raised b)
  refine ⟨⟨joins, fun b => p.after (s.code b) (joins b), thrown⟩, isMeet, ?_, fun _ => rfl,
    isThrown⟩
  intro b f reachable distributes
  obtain ⟨trail, path⟩ := Body.exists_trailTo reachable
  exact carried b ⟨_, trail, path, rfl⟩ f distributes

namespace MeetsPaths

/-- The meet over the paths to a block is below what its neighbours send: every path to a neighbour
goes on to the block. -/
theorem below_joins (meets : p.MeetsPaths s facts v) (dist : p.DistributiveOn s (· ∈ facts))
    (setup : s.checkSetup s.flowGraph = .ok entry) {y : F} (joins : p.JoinsAt s entry v b y) :
    p.Below (v.ins b) y := by
  obtain ⟨first, _, listed⟩ := Body.checkSetup_eq_ok_iff.mp setup
  have fact := (meets.ins b).1
  rcases joins with ⟨rfl, rfl⟩ | ⟨c, source, rfl⟩ | ⟨c, source, rfl⟩
  · exact (meets.ins b).2.1 _ ⟨[], Body.TrailTo.entry first, rfl⟩
  · have target := FlowGraph.mem_preds_iff.mp source
    have before := listed c (Body.mem_succs_flowGraph.mp target).1
    have inside : ∀ one ∈ s.code c, one ∈ s.allCode := fun one => Body.mem_allCode_of_mem_code
    have through := dist.after inside
    rw [meets.outs]
    refine (meets.image before through).2.2 _ fact ?_
    rintro y ⟨x, ⟨trail, path, rfl⟩, rfl⟩
    apply (meets.ins b).2.1
    exact ⟨_, path.edge target, by rw [along_append, along_completing]⟩
  · have target := FlowGraph.mem_excPreds_iff.mp source
    have before := listed c (Body.mem_excSuccs_flowGraph.mp target).1
    refine (meets.excOuts c).2.2 _ fact ?_
    rintro y ⟨_, above, one, rest, code, raises, rfl⟩
    have upTo := dist.after (Body.mem_allCode_of_above code)
    have whole := (dist.raise one (Body.mem_allCode_of_code code)).comp upTo
    refine (meets.image before whole).2.2 _ fact ?_
    rintro y ⟨x, ⟨trail, path, rfl⟩, rfl⟩
    apply (meets.ins b).2.1
    exact ⟨_, path.raise code raises target, by rw [along_raise]⟩

theorem below_along (meets : p.MeetsPaths s facts v) (mono : p.MonotoneOn s (· ∈ facts))
    (order : p.Semilattice (· ∈ facts) rank) (setup : s.checkSetup s.flowGraph = .ok entry) {a : F}
    (factA : a ∈ facts) (all : ∀ y, p.JoinsAt s entry v b y → p.Below a y) {trail : Trail}
    (path : s.TrailTo b trail) : p.Below a (p.along trail p.boundary) := by
  have lower : ∀ {c trail}, s.TrailTo c trail → p.Below (v.ins c) (p.along trail p.boundary) :=
    fun path => (meets.ins _).2.1 _ ⟨_, path, rfl⟩
  cases path with
  | entry start =>
      have first := (Body.checkSetup_eq_ok_iff.mp setup).1
      exact all _ (Or.inl ⟨Option.some.inj (start.symm.trans first), rfl⟩)
  | @edge c _ trail path target =>
      have leaves := all _ (Or.inr (Or.inl ⟨c, FlowGraph.mem_preds_iff.mpr target, rfl⟩))
      rw [meets.outs] at leaves
      exact below_along_edge order mono path factA (meets.ins c).1 leaves (lower path)
  | @raise c _ trail above rest one path code raises target =>
      have leaves := all _ (Or.inr (Or.inr ⟨c, FlowGraph.mem_excPreds_iff.mpr target, rfl⟩))
      have sent := (meets.excOuts c).2.1 _
        ⟨Body.handler?_isSome_of_mem_excSuccs target, above, one, rest, code, raises, rfl⟩
      have factR := mono.raise_fact (Body.mem_allCode_of_code code)
        (after_fact mono (Body.mem_allCode_of_above code) (meets.ins c).1)
      apply below_along_raise order mono path code factA (meets.ins c).1 _ (lower path)
      exact order.below_trans factA (meets.excOuts c).1 factR leaves sent

theorem isSolution (meets : p.MeetsPaths s facts v) (dist : p.DistributiveOn s (· ∈ facts))
    (order : p.Semilattice (· ∈ facts) rank) (direction : p.direction = .forward)
    (setup : s.checkSetup s.flowGraph = .ok entry) : p.IsSolution s entry (· ∈ facts) v := by
  have mono := dist.monotoneOn
  refine ⟨fun b => ⟨(meets.ins b).1, ?_, (meets.excOuts b).1⟩, fun b _ => ?_⟩
  · rw [meets.outs]
    exact after_fact mono (fun one => Body.mem_allCode_of_mem_code) (meets.ins b).1
  · simp only [SolvesAt, direction]
    refine ⟨⟨(meets.ins b).1, fun y => meets.below_joins dist setup, ?_⟩, meets.outs b,
      meets.excOuts b⟩
    intro a factA all
    apply (meets.ins b).2.2 a factA
    rintro x ⟨trail, path, rfl⟩
    exact meets.below_along mono order setup factA all path

end MeetsPaths

/-- The solved fact at the top of a block is the meet over all paths to it. -/
theorem DistributiveOn.solved_isMeet [DecidableEq F] (dist : p.DistributiveOn s (· ∈ facts))
    (order : p.Semilattice (· ∈ facts) rank) (direction : p.direction = .forward)
    (setup : s.checkSetup s.flowGraph = .ok entry) (reachable : s.flowGraph.Reachable b) :
    p.IsMeet (· ∈ facts) (p.PathFact s b) ((p.solved s s.flowGraph entry).ins.get b) := by
  have mono := dist.monotoneOn
  have solution := isSolution_solved order mono setup
  obtain ⟨v, meets⟩ := dist.exists_meetsPaths order
  have other := meets.isSolution dist order direction setup
  have greatest := (other.lower_solved order mono setup reachable).1
  refine ⟨(solution.1 b).1, ?_, ?_⟩
  · rintro x ⟨trail, path, rfl⟩
    exact solution.below_along order mono direction setup path
  · intro a factA all
    have below := (meets.ins b).2.2 a factA all
    exact order.below_trans factA (meets.ins b).1 (solution.1 b).1 below greatest

end Coincidence

end Problem

end FramePlacement
