import FramePlacement.Proofs.CaptureSummaries
import FramePlacement.Scope.Indexed
/-!
# Identifiers of variables while a scope is built

In every scope that is built from nothing, and in every closure in it at any depth, the hash index
and the array of variables stay inverse to each other, an identifier once given out keeps its
variable, and a temporary is always a new one (`bijective_and_fresh`).

Two things are carried through the steps.  The array and its index are sound and list what the table
of the scope lists (`Tracks`), in every scope of the tree (`Coherent`); and no step takes a variable
away (`Keeps`).  Collecting captures is the only step that reaches into the closures, and it treats
all scopes of the tree alike (`at?_collect`).
-/

set_option autoImplicit false

namespace FramePlacement

variable [Hashable Variable]

namespace IndexedVars

/-! ## An array with an index beside a table -/

/-- The indexed variables are sound and stand in the same order as in the table. -/
structure Tracks (k : IndexedVars) (t : VarTable) : Prop where
  sound : k.Sound
  same : k.entries.toList = t.entries

namespace Tracks

variable {k : IndexedVars} {t : VarTable} {x : Variable}

theorem empty : Tracks {} {} := ⟨Sound.empty, rfl⟩

theorem var?_eq (tracks : k.Tracks t) (v : VarId) : t.var? v = k.var? v := by
  unfold VarTable.var? IndexedVars.var?
  rw [← tracks.same, Array.getElem?_toList]

theorem lookup?_eq (tracks : k.Tracks t) (x : Variable) : t.lookup? x = k.lookup? x := by
  ext v
  rw [tracks.sound.lookup?_iff, VarTable.lookup?_eq_some_iff, tracks.var?_eq]

theorem intern_eq (tracks : k.Tracks t) (x : Variable) :
    (t.intern x).1 = (k.intern x).1 ∧ (k.intern x).2.entries.toList = (t.intern x).2.entries := by
  cases found : k.lookup? x with
  | some v =>
      have read : t.var? v = some x := by
        rw [tracks.var?_eq]
        exact (tracks.sound.lookup?_iff x v).mp found
      rw [VarTable.intern_of_var? read, intern, found]
      exact ⟨rfl, tracks.same⟩
  | none =>
      have missing : ¬ x ∈ t.entries := by
        intro member
        rw [← tracks.lookup?_eq, VarTable.lookup?, if_pos member] at found
        cases found
      rw [VarTable.intern, dif_neg missing, intern, found]
      constructor
      · change t.entries.length = k.entries.size
        rw [← tracks.same, Array.length_toList]
      · change (k.entries.push x).toList = t.entries ++ [x]
        rw [Array.toList_push, tracks.same]

theorem intern (tracks : k.Tracks t)
    (next : ∀ index, x = .temporary index → index = k.temporaries.length) :
    (k.intern x).2.Tracks (t.intern x).2 :=
  ⟨tracks.sound.intern next, (tracks.intern_eq x).2⟩

theorem intern_named (tracks : k.Tracks t) (name : String) (depth : Nat) :
    (k.intern (.named name depth)).2.Tracks (t.intern (.named name depth)).2 :=
  tracks.intern fun index same => by cases same

theorem makeTemporary_id (tracks : k.Tracks t) : t.makeTemporary.1 = k.makeTemporary.1 := by
  unfold VarTable.makeTemporary IndexedVars.makeTemporary
  rw [← tracks.same, Array.countP_toList]
  exact (tracks.intern_eq _).1

theorem makeTemporary (tracks : k.Tracks t) : k.makeTemporary.2.Tracks t.makeTemporary.2 := by
  unfold VarTable.makeTemporary IndexedVars.makeTemporary
  rw [← tracks.same, Array.countP_toList, countP_isTemporary]
  exact tracks.intern fun index same => (Variable.temporary.inj same).symm

theorem internAll {s : Body} (tracks : k.Tracks s.vars) (keys : List OuterLocal) :
    (k.internAll keys).Tracks (keys.foldl Scope.recordCapture s).vars := by
  induction keys generalizing k s with
  | nil => exact tracks
  | cons key rest ih =>
      refine ih ?_
      rw [Scope.vars_recordCapture]
      exact tracks.intern_named key.name (key.depth - 1)

end Tracks

def Within (k after : IndexedVars) : Prop := ∀ v x, k.var? v = some x → after.var? v = some x

namespace Within

variable {k middle after : IndexedVars}

theorem refl (k : IndexedVars) : k.Within k := fun _ _ read => read

theorem trans (first : k.Within middle) (second : middle.Within after) : k.Within after :=
  fun v x read => second v x (first v x read)

theorem intern (k : IndexedVars) (x : Variable) : k.Within (k.intern x).2 :=
  fun _ _ read => var?_intern_of_some read

theorem internAll (k : IndexedVars) (keys : List OuterLocal) : k.Within (k.internAll keys) := by
  induction keys generalizing k with
  | nil => exact refl k
  | cons key rest ih => exact (intern k key.inParent).trans (ih _)

end Within

end IndexedVars

namespace IndexedScope

open IndexedVars

variable {t after : IndexedScope}

/-! ## The closures of a tree -/

theorem scopes_eq_map (closures : List IndexedScope) : scopes closures = closures.map scope := by
  induction closures with
  | nil => rfl
  | cons closure rest ih => rw [scopes, ih, List.map_cons]

theorem collectOfList_eq_map (closures : List IndexedScope) :
    collectOfList closures = closures.map collect := by
  induction closures with
  | nil => rfl
  | cons closure rest ih => rw [collectOfList, ih, List.map_cons]

theorem closures_collect (t : IndexedScope) : t.collect.closures = t.closures.map collect := by
  cases t with
  | node body vars closures => exact collectOfList_eq_map closures

theorem at?_collect (path : List ClosureId) (t : IndexedScope) :
    t.collect.at? path = (t.at? path).map collect := by
  induction path generalizing t with
  | nil => rfl
  | cons c path ih =>
      rw [at?, at?, closures_collect, List.getElem?_map, Option.bind_map, Option.map_bind]
      exact congrArg _ (funext ih)

/-! ## What the steps preserve -/

/-- In every scope of the tree the indexed variables track the table. -/
def Coherent (t : IndexedScope) : Prop :=
  ∀ path s, t.at? path = some s → s.vars.Tracks s.body.vars

theorem coherent_iff :
    t.Coherent ↔ t.vars.Tracks t.body.vars ∧ ∀ closure ∈ t.closures, closure.Coherent := by
  constructor
  · intro coherent
    refine ⟨coherent [] t rfl, ?_⟩
    intro closure member path s found
    obtain ⟨c, listed⟩ := List.getElem?_of_mem member
    exact coherent (c :: path) s (by rw [at?, listed, Option.bind_some, found])
  · rintro ⟨own, nested⟩ path s found
    cases path with
    | nil =>
        cases found
        exact own
    | cons c path =>
        rw [at?, Option.bind_eq_some_iff] at found
        obtain ⟨closure, listed, inner⟩ := found
        exact nested closure (List.mem_of_getElem? listed) path s inner

theorem coherent_empty (name : String) (kind : ScopeKind) : (empty name kind).Coherent :=
  coherent_iff.mpr ⟨Tracks.empty, fun _ member => by cases member⟩

theorem Coherent.withBody (coherent : t.Coherent) {body : Body} {vars : IndexedVars}
    (tracks : vars.Tracks body.vars) : (t.withBody body vars).Coherent :=
  coherent_iff.mpr ⟨tracks, (coherent_iff.mp coherent).2⟩

theorem Coherent.addClosure (coherent : t.Coherent) {closure : IndexedScope}
    (nested : closure.Coherent) : (t.addClosure closure).Coherent := by
  obtain ⟨own, before⟩ := coherent_iff.mp coherent
  refine coherent_iff.mpr ⟨own, ?_⟩
  intro other member
  rcases List.mem_append.mp member with old | new
  · exact before other old
  · rw [List.mem_singleton.mp new]
    exact nested

theorem tracks_collect (tracks : t.vars.Tracks t.body.vars) :
    t.collect.vars.Tracks t.collect.body.vars := by
  cases t with
  | node body vars closures => exact tracks.internAll _

theorem Coherent.collect (coherent : t.Coherent) : t.collect.Coherent := by
  intro path s found
  rw [at?_collect, Option.map_eq_some_iff] at found
  obtain ⟨before, there, rfl⟩ := found
  exact tracks_collect (coherent path before there)

-- By induction on the steps, inner ones included: nesting a closure takes all the steps of the
-- closure first.
mutual
theorem Coherent.take {t : IndexedScope} (coherent : t.Coherent) :
    ∀ step, (t.take step).Coherent
  | .named name depth =>
      coherent.withBody ((coherent_iff.mp coherent).1.intern_named name depth)
  | .temporary => coherent.withBody (coherent_iff.mp coherent).1.makeTemporary
  | .closure name steps =>
      coherent.addClosure ((coherent_empty name .closure).takeAll steps)
  | .collect => coherent.collect
  | .edit _ => coherent.withBody (coherent_iff.mp coherent).1

theorem Coherent.takeAll {t : IndexedScope} (coherent : t.Coherent) :
    ∀ steps, (t.takeAll steps).Coherent
  | [] => coherent
  | step :: rest => (coherent.take step).takeAll rest
end

def Keeps (t after : IndexedScope) : Prop :=
  ∀ path s, t.at? path = some s → ∃ later, after.at? path = some later ∧ s.vars.Within later.vars

namespace Keeps

theorem refl (t : IndexedScope) : t.Keeps t := fun _ s found => ⟨s, found, Within.refl _⟩

theorem trans {middle : IndexedScope} (first : t.Keeps middle) (second : middle.Keeps after) :
    t.Keeps after := by
  intro path s found
  obtain ⟨between, there, early⟩ := first path s found
  obtain ⟨later, still, late⟩ := second path between there
  exact ⟨later, still, early.trans late⟩

theorem of_own (own : t.vars.Within after.vars)
    (nested : ∀ (c : ClosureId) (closure : IndexedScope), t.closures[c]? = some closure →
      after.closures[c]? = some closure) :
    t.Keeps after := by
  intro path s found
  cases path with
  | nil =>
      cases found
      exact ⟨after, rfl, own⟩
  | cons c path =>
      rw [at?, Option.bind_eq_some_iff] at found
      obtain ⟨closure, listed, inner⟩ := found
      exact ⟨s, by rw [at?, nested c closure listed, Option.bind_some, inner], Within.refl _⟩

theorem withBody (t : IndexedScope) (body : Body) {vars : IndexedVars}
    (own : t.vars.Within vars) : t.Keeps (t.withBody body vars) :=
  of_own own fun _ _ listed => listed

theorem addClosure (t closure : IndexedScope) : t.Keeps (t.addClosure closure) := by
  refine of_own (Within.refl _) ?_
  intro c other listed
  exact (List.getElem?_append_left (List.getElem?_eq_some_iff.mp listed).1).trans listed

theorem collect (t : IndexedScope) : t.Keeps t.collect := by
  intro path s found
  refine ⟨s.collect, by rw [at?_collect, found, Option.map_some], ?_⟩
  cases s with
  | node body vars closures => exact Within.internAll vars _

theorem take (t : IndexedScope) (step : ScopeStep) : t.Keeps (t.take step) := by
  cases step with
  | named name depth => exact withBody t _ (Within.intern _ _)
  | temporary => exact withBody t _ (Within.intern _ _)
  | closure name steps => exact addClosure t _
  | collect => exact collect t
  | edit change => exact withBody t _ (Within.refl _)

theorem takeAll (t : IndexedScope) (steps : List ScopeStep) : t.Keeps (t.takeAll steps) := by
  induction steps generalizing t with
  | nil => exact refl t
  | cons step rest ih => exact (take t step).trans (ih _)

end Keeps

theorem takeAll_append (t : IndexedScope) (steps more : List ScopeStep) :
    t.takeAll (steps ++ more) = (t.takeAll steps).takeAll more := by
  induction steps generalizing t with
  | nil => rfl
  | cons step rest ih => exact ih (t.take step)

/-! ## Leaving out the indexes -/

theorem scope_withBody (t : IndexedScope) (body : Body) (vars : IndexedVars) :
    (t.withBody body vars).scope = t.scope.withBody body := by
  cases t; rfl

theorem body_scope (t : IndexedScope) : t.scope.body = t.body := by
  cases t; rfl

theorem scope_addClosure (t closure : IndexedScope) :
    (t.addClosure closure).scope = (t.scope.addClosure closure.scope).2 := by
  cases t with
  | node body vars closures =>
      simp only [addClosure, IndexedScope.body, IndexedScope.vars, IndexedScope.closures, scope,
        scopes_eq_map, List.map_append, List.map_singleton, Scope.addClosure, Scope.body,
        Scope.closures]

mutual
theorem scope_collect : ∀ t : IndexedScope, t.collect.scope = t.scope.collectCaptures
  | node body vars closures => by
      rw [collect, scope, scope, Scope.collectCaptures, scopes_collect closures]

theorem scopes_collect : ∀ closures : List IndexedScope,
    scopes (collectOfList closures) = Scope.collectCapturesOfList (scopes closures)
  | [] => rfl
  | closure :: rest => by
      rw [collectOfList, scopes, scopes, Scope.collectCapturesOfList, scope_collect closure,
        scopes_collect rest]
end

mutual
theorem scope_take (t : IndexedScope) : ∀ step, (t.take step).scope = t.scope.take step
  | .named name depth => by rw [take, Scope.take, scope_withBody, body_scope]
  | .temporary => by rw [take, Scope.take, scope_withBody, body_scope]
  | .closure name steps => by
      rw [take, Scope.take, scope_addClosure, scope_takeAll (empty name .closure) steps]
      rfl
  | .collect => by rw [take, Scope.take, scope_collect]
  | .edit change => by rw [take, Scope.take, scope_withBody, body_scope]

theorem scope_takeAll (t : IndexedScope) : ∀ steps, (t.takeAll steps).scope = t.scope.takeAll steps
  | [] => rfl
  | step :: rest => by rw [takeAll, Scope.takeAll, scope_takeAll (t.take step) rest, scope_take]
end

/-- A scope built from nothing by any steps is, without its indexes, the scope that the same steps
build.  Further steps keep all identifiers.  In the scope itself and in every closure in it, at any
depth, two identifiers never name one variable; the index gives an identifier for a variable just
when the identifier names it, so it can stand for the table of the scope; the temporaries are
numbered from zero in the order of their identifiers; and so the identifier of the next temporary is
one that named nothing before. -/
theorem bijective_and_fresh (name : String) (kind : ScopeKind) (steps : List ScopeStep) :
    (built name kind steps).scope = (Scope.empty name kind).takeAll steps ∧
      (∀ more, (built name kind steps).Keeps (built name kind (steps ++ more))) ∧
      ∀ path s, (built name kind steps).at? path = some s →
        (∀ v w x, s.vars.var? v = some x → s.vars.var? w = some x → v = w) ∧
        (∀ x v, s.vars.lookup? x = some v ↔ s.vars.var? v = some x) ∧
        (∀ v, s.body.vars.var? v = s.vars.var? v) ∧
        (∀ x, s.body.vars.lookup? x = s.vars.lookup? x) ∧
        s.body.vars.makeTemporary.1 = s.vars.makeTemporary.1 ∧
        s.vars.temporaries = List.range s.vars.temporaries.length ∧
        s.vars.var? s.vars.makeTemporary.1 = none ∧
        s.vars.makeTemporary.2.var? s.vars.makeTemporary.1 =
          some (.temporary s.vars.temporaries.length) := by
  refine ⟨scope_takeAll _ steps, ?_, ?_⟩
  · intro more
    unfold built
    rw [takeAll_append]
    exact Keeps.takeAll _ more
  · intro path s found
    have tracks := (coherent_empty name kind).takeAll steps path s found
    have sound := tracks.sound
    refine ⟨fun v w x => sound.var?_inj, sound.lookup?_iff, tracks.var?_eq, tracks.lookup?_eq,
      tracks.makeTemporary_id, sound.dense, ?_⟩
    rw [sound.makeTemporary_eq]
    exact ⟨var?_size _, by rw [var?_add, if_pos rfl]⟩

end IndexedScope

end FramePlacement
