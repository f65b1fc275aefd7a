import FramePlacement.Capture
/-!
# Closures at any depth

A path of closure identifiers leads from a scope inwards; its length is the number of closure levels
it crosses.  The free accesses of a scope are exactly the accesses that the code at the end of such
a path makes to a local living further out than the scope itself (`mem_keys_freeAccesses`): a path
of `n` levels lowers the depth of the local by `n`.

Reading and writing go through the same steps, so both are stated once for an `Access`.
-/

set_option autoImplicit false

namespace FramePlacement

inductive Access where
  | read
  | write

def Access.vars : Access → Insn → List VarId
  | read, insn => insn.usedVars
  | write, insn => insn.result?.toList

def FreeAccesses.keys (a : FreeAccesses) : Access → List OuterLocal
  | .read => a.reads
  | .write => a.writes

/-- An instruction of the scope's own touches the variable.  Frame instructions only move values
between a slot and a frame, so they touch nothing. -/
def Body.Touches (s : Body) (access : Access) (x : Variable) : Prop :=
  ∃ i insn v, (i, insn) ∈ s.allCode ∧ insn.isFrameInsn = false ∧ v ∈ access.vars insn ∧
    s.vars.var? v = some x

namespace Scope

def at? : List ClosureId → Scope → Option Scope
  | [], s => some s
  | c :: path, s => (s.closures[c]?).bind (at? path)

theorem inward {motive : Scope → Prop}
    (outward : ∀ body closures, (∀ closure ∈ closures, motive closure) →
      motive (node body closures)) (s : Scope) : motive s :=
  match s with
  | node body closures => outward body closures fun closure _ => inward outward closure

/-! ## The accesses of a scope that reach further out -/

theorem mem_keys_append {a b : FreeAccesses} {access : Access} {key : OuterLocal} :
    key ∈ (a.append b).keys access ↔ key ∈ a.keys access ∨ key ∈ b.keys access := by
  cases access <;> exact List.mem_append

theorem lift?_eq_some_iff {key lifted : OuterLocal} :
    key.lift? = some lifted ↔
      0 < lifted.depth ∧ key = { lifted with depth := lifted.depth + 1 } := by
  obtain ⟨name, depth⟩ := key
  obtain ⟨otherName, otherDepth⟩ := lifted
  simp only [OuterLocal.lift?, Option.ite_none_right_eq_some, Option.some.injEq,
    OuterLocal.mk.injEq]
  constructor
  · rintro ⟨further, rfl, rfl⟩
    exact ⟨by omega, rfl, by omega⟩
  · rintro ⟨positive, rfl, rfl⟩
    exact ⟨by omega, rfl, by omega⟩

theorem mem_keys_lift {a : FreeAccesses} {access : Access} {key : OuterLocal} :
    key ∈ a.lift.keys access ↔
      0 < key.depth ∧ { key with depth := key.depth + 1 } ∈ a.keys access := by
  have filtered : ∀ keys : List OuterLocal, key ∈ keys.filterMap OuterLocal.lift? ↔
      0 < key.depth ∧ { key with depth := key.depth + 1 } ∈ keys := by
    intro keys
    rw [List.mem_filterMap]
    constructor
    · rintro ⟨inner, member, lifted⟩
      obtain ⟨positive, rfl⟩ := lift?_eq_some_iff.mp lifted
      exact ⟨positive, member⟩
    · rintro ⟨positive, member⟩
      exact ⟨_, member, lift?_eq_some_iff.mpr ⟨positive, rfl⟩⟩
  cases access <;> exact filtered _

theorem ofVariable?_eq_some_iff {x : Variable} {key : OuterLocal} :
    OuterLocal.ofVariable? x = some key ↔ 0 < key.depth ∧ x = .named key.name key.depth := by
  obtain ⟨name, depth⟩ := key
  cases x with
  | named other level =>
      simp only [OuterLocal.ofVariable?, Option.ite_none_right_eq_some, Option.some.injEq,
        OuterLocal.mk.injEq, Variable.named.injEq]
      constructor
      · rintro ⟨positive, rfl, rfl⟩
        exact ⟨positive, rfl, rfl⟩
      · rintro ⟨positive, rfl, rfl⟩
        exact ⟨positive, rfl, rfl⟩
  | temporary index => simp [OuterLocal.ofVariable?]

theorem outerLocal?_eq_some_iff {s : Body} {v : VarId} {key : OuterLocal} :
    s.outerLocal? v = some key ↔
      0 < key.depth ∧ s.vars.var? v = some (.named key.name key.depth) := by
  unfold Body.outerLocal?
  rw [Option.bind_eq_some_iff]
  constructor
  · rintro ⟨x, read, outer⟩
    obtain ⟨positive, rfl⟩ := ofVariable?_eq_some_iff.mp outer
    exact ⟨positive, read⟩
  · rintro ⟨positive, read⟩
    exact ⟨_, read, ofVariable?_eq_some_iff.mpr ⟨positive, rfl⟩⟩

theorem mem_keys_ownAccesses {s : Body} {access : Access} {key : OuterLocal} :
    key ∈ s.ownAccesses.keys access ↔
      0 < key.depth ∧ s.Touches access (.named key.name key.depth) := by
  have listed : key ∈ s.ownAccesses.keys access ↔ ∃ v, (∃ i insn, (i, insn) ∈ s.allCode ∧
      insn.isFrameInsn = false ∧ v ∈ access.vars insn) ∧ s.outerLocal? v = some key := by
    cases access with
    | read =>
        simp only [FreeAccesses.keys, Body.ownAccesses, List.mem_filterMap, List.mem_flatMap,
          List.mem_filter, Bool.not_eq_true', Access.vars, Prod.exists, and_assoc]
    | write =>
        simp only [FreeAccesses.keys, Body.ownAccesses, List.mem_filterMap, List.mem_filter,
          Bool.not_eq_true', Access.vars, Prod.exists, and_assoc, Option.mem_toList]
  rw [listed]
  unfold Body.Touches
  constructor
  · rintro ⟨v, ⟨i, insn, inside, plain, touched⟩, outer⟩
    obtain ⟨positive, read⟩ := outerLocal?_eq_some_iff.mp outer
    exact ⟨positive, i, insn, v, inside, plain, touched, read⟩
  · rintro ⟨positive, i, insn, v, inside, plain, touched, read⟩
    exact ⟨v, ⟨i, insn, inside, plain, touched⟩, outerLocal?_eq_some_iff.mpr ⟨positive, read⟩⟩

theorem mem_keys_freeAccessesOfList {closures : List Scope} {access : Access} {key : OuterLocal} :
    key ∈ (freeAccessesOfList closures).keys access ↔
      ∃ closure ∈ closures, key ∈ closure.freeAccesses.keys access := by
  induction closures with
  | nil => cases access <;> simp [freeAccessesOfList, FreeAccesses.keys]
  | cons closure rest ih =>
      rw [freeAccessesOfList, mem_keys_append, ih]
      simp only [List.mem_cons, or_and_right, exists_or, exists_eq_left]

/-- Code at the end of some path inwards touches the local that the key names as seen from the
scope itself. -/
def Reaches (s : Scope) (access : Access) (key : OuterLocal) : Prop :=
  ∃ path inner, s.at? path = some inner ∧
    inner.body.Touches access (.named key.name (key.depth + path.length))

theorem reaches_node_iff {body : Body} {closures : List Scope} {access : Access}
    {key : OuterLocal} : (node body closures).Reaches access key ↔
      body.Touches access (.named key.name key.depth) ∨
        ∃ closure ∈ closures, closure.Reaches access { key with depth := key.depth + 1 } := by
  have level : ∀ n, key.depth + (n + 1) = key.depth + 1 + n := fun n => by omega
  constructor
  · rintro ⟨path, inner, found, touches⟩
    cases path with
    | nil =>
        cases found
        exact Or.inl touches
    | cons c path =>
        obtain ⟨closure, listed, rest⟩ := Option.bind_eq_some_iff.mp found
        rw [List.length_cons, level] at touches
        exact Or.inr ⟨closure, List.mem_of_getElem? listed, path, inner, rest, touches⟩
  · rintro (touches | ⟨closure, member, path, inner, found, touches⟩)
    · exact ⟨[], _, rfl, touches⟩
    · obtain ⟨c, listed⟩ := List.getElem?_of_mem member
      refine ⟨c :: path, inner, Option.bind_eq_some_iff.mpr ⟨closure, listed, found⟩, ?_⟩
      rw [List.length_cons, level]
      exact touches

/-- The free accesses of a scope are the accesses at any depth that reach beyond it. -/
theorem mem_keys_freeAccesses (access : Access) (s : Scope) (key : OuterLocal) :
    key ∈ s.freeAccesses.keys access ↔ 0 < key.depth ∧ s.Reaches access key := by
  induction s using inward generalizing key with
  | outward body closures ih =>
      rw [freeAccesses, mem_keys_append, mem_keys_ownAccesses, mem_keys_lift,
        mem_keys_freeAccessesOfList, reaches_node_iff, ← and_or_left]
      refine and_congr_right fun _ => or_congr_right (exists_congr fun closure => ?_)
      refine and_congr_right fun member => ?_
      rw [ih closure member]
      exact and_iff_right (Nat.succ_pos key.depth)

end Scope

end FramePlacement
