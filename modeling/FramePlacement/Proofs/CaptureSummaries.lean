import FramePlacement.Proofs.Exposure
import FramePlacement.Proofs.Nesting
/-!
# Capture summaries of a collected tree

Collecting works from the inside out: when the captures of a scope are recorded, its closures are
done, and recording changes nothing but the variable table and the captured set (`Records`).  The
scope at a path of the collected tree is therefore the collected scope at that path (`at?_collect`),
a summary lists exactly the accesses of code at any depth (`mem_summary_iff`), and collecting a
second time finds everything recorded already (`collect_collect`).
-/

set_option autoImplicit false

namespace FramePlacement

/-! ## Small facts about variable tables and keys -/

namespace VarTable

theorem mem_idsWhere {t : VarTable} {kind : Variable → Bool} {v : VarId} :
    v ∈ t.idsWhere kind ↔ ∃ x, t.var? v = some x ∧ kind x = true := by
  unfold idsWhere
  rw [List.mem_filter, List.mem_range, Option.any_eq_true]
  constructor
  · rintro ⟨_, x, read, holds⟩
    exact ⟨x, read, holds⟩
  · rintro ⟨x, read, holds⟩
    exact ⟨(List.getElem?_eq_some_iff.mp read).1, x, read, holds⟩

theorem intern_of_var? {t : VarTable} {x : Variable} {v : VarId} (read : t.var? v = some x) :
    t.intern x = (v, t) := by
  have known : x ∈ t.entries := List.mem_of_getElem? read
  have found : t.lookup? x = some v := lookup?_eq_some_iff.mpr read
  unfold lookup? at found
  rw [if_pos known] at found
  unfold intern
  rw [dif_pos known, Option.some.inj found]

end VarTable

namespace OuterLocal

theorem mem_enter {key x : OuterLocal} {keys : List OuterLocal} :
    x ∈ enter key keys ↔ x = key ∨ x ∈ keys := by
  induction keys with
  | nil => simp [enter]
  | cons other rest ih =>
      rw [enter]
      split
      · next same =>
          subst same
          simp
      · split
        · simp
        · rw [List.mem_cons, ih, List.mem_cons, or_left_comm]

theorem mem_sort {x : OuterLocal} {keys : List OuterLocal} : x ∈ sort keys ↔ x ∈ keys := by
  induction keys with
  | nil => simp [sort]
  | cons key rest ih =>
      change x ∈ enter key (sort rest) ↔ _
      rw [mem_enter, ih, List.mem_cons]

end OuterLocal

def CaptureSummary.part (summary : CaptureSummary) : Access → IdSet
  | .read => summary.reads
  | .write => summary.writes

namespace Scope

theorem mem_capturedKeys {closures : List Scope} {key : OuterLocal} :
    key ∈ capturedKeys closures ↔
      ∃ closure ∈ closures, ∃ access, key ∈ closure.freeAccesses.keys access := by
  have either : key ∈ capturedKeys closures ↔
      ∃ access, key ∈ (freeAccessesOfList closures).keys access := by
    unfold capturedKeys
    rw [OuterLocal.mem_sort, List.mem_append]
    constructor
    · rintro (reads | writes)
      · exact ⟨.read, reads⟩
      · exact ⟨.write, writes⟩
    · rintro ⟨access, member⟩
      cases access with
      | read => exact Or.inl member
      | write => exact Or.inr member
  rw [either]
  simp only [mem_keys_freeAccessesOfList]
  constructor
  · rintro ⟨access, closure, member, found⟩
    exact ⟨closure, member, access, found⟩
  · rintro ⟨closure, member, access, found⟩
    exact ⟨access, closure, member, found⟩

/-! ## Recording captures -/

/-- What recording some keys does to a scope: every variable keeps its identifier, every key has
one, and the own locals among the keys have joined the captured set. -/
structure Records (keys : List OuterLocal) (body after : Body) : Prop where
  kept : ∀ v x, body.vars.var? v = some x → after.vars.var? v = some x
  interned : ∀ key ∈ keys, ∃ v, after.vars.var? v = some key.inParent
  captured : ∀ v, v ∈ after.captured ↔ v ∈ body.captured ∨
    ∃ key ∈ keys, key.depth = 1 ∧ after.vars.var? v = some key.inParent

namespace Records

variable {keys more : List OuterLocal} {body middle after : Body}

theorem nothing (body : Body) : Records [] body body where
  kept _ _ read := read
  interned _ member := by cases member
  captured v := by simp

/-- An identifier that names a key halfway names it at the end, and no other one does. -/
theorem var?_iff (first : Records keys body middle) (second : Records more middle after)
    {key : OuterLocal} (member : key ∈ keys) {v : VarId} :
    after.vars.var? v = some key.inParent ↔ middle.vars.var? v = some key.inParent := by
  constructor
  · intro read
    obtain ⟨w, known⟩ := first.interned key member
    have same : v = w := VarTable.var?_inj read (second.kept w _ known)
    exact same ▸ known
  · exact second.kept v _

theorem trans (first : Records keys body middle) (second : Records more middle after) :
    Records (keys ++ more) body after where
  kept v x read := second.kept v x (first.kept v x read)
  interned key member := by
    rcases List.mem_append.mp member with early | late
    · obtain ⟨v, known⟩ := first.interned key early
      exact ⟨v, second.kept v _ known⟩
    · exact second.interned key late
  captured v := by
    rw [second.captured, first.captured, or_assoc]
    refine or_congr_right ?_
    constructor
    · rintro (⟨key, member, own, read⟩ | ⟨key, member, own, read⟩)
      · exact ⟨key, List.mem_append_left _ member, own, second.kept v _ read⟩
      · exact ⟨key, List.mem_append_right _ member, own, read⟩
    · rintro ⟨key, member, own, read⟩
      rcases List.mem_append.mp member with early | late
      · exact Or.inl ⟨key, early, own, (first.var?_iff second early).mp read⟩
      · exact Or.inr ⟨key, late, own, read⟩

end Records

theorem vars_recordCapture (body : Body) (key : OuterLocal) :
    (recordCapture body key).vars = (body.vars.intern key.inParent).2 := by
  unfold recordCapture
  dsimp only
  split <;> rfl

theorem recordCapture_records (body : Body) (key : OuterLocal) :
    Records [key] body (recordCapture body key) := by
  have read : (body.intern key.inParent).2.vars.var? (body.intern key.inParent).1 =
      some key.inParent := body.vars.var?_intern key.inParent
  have vars : (recordCapture body key).vars = (body.intern key.inParent).2.vars :=
    vars_recordCapture body key
  refine ⟨?_, ?_, ?_⟩
  · intro v x known
    rw [vars]
    exact VarTable.var?_intern_of_some known
  · intro other member
    rw [List.mem_singleton] at member
    exact ⟨_, by rw [vars, member, read]⟩
  · intro v
    simp only [List.mem_singleton, exists_eq_left]
    rw [vars]
    unfold recordCapture
    dsimp only
    split
    · next own =>
        rw [IdSet.mem_insert, or_comm, and_iff_right own]
        refine or_congr_right ⟨?_, fun known => VarTable.var?_inj known read⟩
        rintro rfl
        exact read
    · next further =>
        rw [or_iff_left fun both => further both.1]
        rfl

theorem foldl_recordCapture_records (keys : List OuterLocal) (body : Body) :
    Records keys body (keys.foldl recordCapture body) := by
  induction keys generalizing body with
  | nil => exact Records.nothing body
  | cons key rest ih => exact (recordCapture_records body key).trans (ih _)

theorem recordCapture_of_recorded {body : Body} {key : OuterLocal} {v : VarId}
    (known : body.vars.var? v = some key.inParent) (held : key.depth = 1 → v ∈ body.captured) :
    recordCapture body key = body := by
  unfold recordCapture Body.intern
  rw [VarTable.intern_of_var? known]
  dsimp only
  split
  · next own =>
      have same : body.captured.insert v = body.captured := by
        ext w
        rw [IdSet.mem_insert]
        exact or_iff_right_of_imp fun equal => equal ▸ held own
      rw [same]
  · rfl

theorem Records.foldl_again {keys : List OuterLocal} {body after : Body}
    (records : Records keys body after) {again : List OuterLocal}
    (among : ∀ key ∈ again, key ∈ keys) :
    again.foldl recordCapture after = after := by
  induction again with
  | nil => rfl
  | cons key rest ih =>
      have member := among key List.mem_cons_self
      obtain ⟨v, known⟩ := records.interned key member
      have held : key.depth = 1 → v ∈ after.captured :=
        fun own => (records.captured v).mpr (Or.inr ⟨key, member, own, known⟩)
      rw [List.foldl_cons, recordCapture_of_recorded known held]
      exact ih fun other later => among other (List.mem_cons_of_mem key later)

/-! ## Collecting a tree -/

theorem collectCapturesOfList_eq_map (closures : List Scope) :
    collectCapturesOfList closures = closures.map collectCaptures := by
  induction closures with
  | nil => rfl
  | cons closure rest ih => rw [collectCapturesOfList, ih, List.map_cons]

theorem closures_collect (s : Scope) :
    s.collectCaptures.closures = s.closures.map collectCaptures := by
  cases s with
  | node body closures =>
      rw [collectCaptures, collectCapturesOfList_eq_map]
      rfl

theorem records_collect (s : Scope) :
    Records (capturedKeys s.collectCaptures.closures) s.body s.collectCaptures.body := by
  cases s with
  | node body closures =>
      rw [collectCaptures]
      exact foldl_recordCapture_records _ body

theorem at?_collect (path : List ClosureId) (s : Scope) :
    s.collectCaptures.at? path = (s.at? path).map collectCaptures := by
  induction path generalizing s with
  | nil => rfl
  | cons c path ih =>
      rw [at?, at?, closures_collect, List.getElem?_map, Option.bind_map, Option.map_bind]
      exact congrArg _ (funext ih)

/-- Collecting a tree that was collected before changes nothing anywhere in it. -/
theorem collect_collect (s : Scope) : s.collectCaptures.collectCaptures = s.collectCaptures := by
  induction s using inward with
  | outward body closures ih =>
      have inner : (closures.map collectCaptures).map collectCaptures =
          closures.map collectCaptures := by
        rw [List.map_map]
        exact List.map_congr_left ih
      have records :=
        foldl_recordCapture_records (capturedKeys (closures.map collectCaptures)) body
      rw [collectCaptures, collectCapturesOfList_eq_map, collectCaptures,
        collectCapturesOfList_eq_map, inner, records.foldl_again fun key member => member]

/-! ## Summaries -/

theorem mem_resolve {t : VarTable} {keys : List OuterLocal} {v : VarId} :
    v ∈ resolve t keys ↔ ∃ key ∈ keys, t.var? v = some key.inParent := by
  unfold resolve
  rw [IdSet.mem_ofList, List.mem_filterMap]
  simp only [VarTable.lookup?_eq_some_iff]

theorem mem_summary_keys {s : Scope} {c : ClosureId} {access : Access} {v : VarId} :
    v ∈ (s.captures.summary c).part access ↔ ∃ closure, s.closures[c]? = some closure ∧
      ∃ key ∈ closure.freeAccesses.keys access, s.body.vars.var? v = some key.inParent := by
  unfold captures Captures.summary
  rw [List.getElem?_map]
  cases found : s.closures[c]? with
  | none => cases access <;> simp [CaptureSummary.part]
  | some closure =>
      have resolved : (captureSummary s.body.vars closure).part access =
          resolve s.body.vars (closure.freeAccesses.keys access) := by
        cases access <;> rfl
      rw [Option.map_some, Option.getD_some, resolved, mem_resolve]
      simp

/-- The summary of a closure lists the locals, of the scope itself or further out, that code at the
closure or at any depth inside touches. -/
theorem mem_summary_iff {s : Scope} {c : ClosureId} {closure : Scope} {access : Access} {v : VarId}
    (found : s.closures[c]? = some closure) :
    v ∈ (s.captures.summary c).part access ↔
      ∃ name depth, s.body.vars.var? v = some (.named name depth) ∧
        closure.Reaches access ⟨name, depth + 1⟩ := by
  rw [mem_summary_keys]
  constructor
  · rintro ⟨other, also, key, member, read⟩
    rw [found] at also
    cases also
    obtain ⟨positive, reaches⟩ := (mem_keys_freeAccesses access closure key).mp member
    have level : key.depth - 1 + 1 = key.depth := by omega
    refine ⟨key.name, key.depth - 1, read, ?_⟩
    rw [level]
    exact reaches
  · rintro ⟨name, depth, read, reaches⟩
    exact ⟨closure, found, ⟨name, depth + 1⟩,
      (mem_keys_freeAccesses access closure _).mpr ⟨Nat.succ_pos depth, reaches⟩, read⟩

theorem interned_of_reaches {s closure : Scope} {c : ClosureId} {access : Access} {name : String}
    {depth : Nat} (found : s.collectCaptures.closures[c]? = some closure)
    (reaches : closure.Reaches access ⟨name, depth + 1⟩) :
    ∃ v, s.collectCaptures.body.vars.var? v = some (.named name depth) := by
  have free := (mem_keys_freeAccesses access closure _).mpr ⟨Nat.succ_pos depth, reaches⟩
  have captured := mem_capturedKeys.mpr ⟨closure, List.mem_of_getElem? found, access, free⟩
  exact s.records_collect.interned _ captured

theorem mem_captured_collect_iff {s : Scope} {v : VarId} :
    v ∈ s.collectCaptures.body.captured ↔ v ∈ s.body.captured ∨
      (∃ name, s.collectCaptures.body.vars.var? v = some (.named name 0)) ∧
        ∃ c access, v ∈ (s.collectCaptures.captures.summary c).part access := by
  rw [s.records_collect.captured]
  refine or_congr_right ⟨?_, ?_⟩
  · rintro ⟨key, member, own, read⟩
    obtain ⟨closure, listed, access, free⟩ := mem_capturedKeys.mp member
    obtain ⟨c, found⟩ := List.getElem?_of_mem listed
    refine ⟨⟨key.name, ?_⟩, c, access, mem_summary_keys.mpr ⟨closure, found, key, free, read⟩⟩
    rw [read, OuterLocal.inParent, own]
  · rintro ⟨⟨name, own⟩, c, access, member⟩
    obtain ⟨closure, found, key, free, read⟩ := mem_summary_keys.mp member
    refine ⟨key, mem_capturedKeys.mpr ⟨closure, List.mem_of_getElem? found, access, free⟩, ?_, read⟩
    have positive := ((mem_keys_freeAccesses access closure key).mp free).1
    rw [own, OuterLocal.inParent, Option.some.injEq, Variable.named.injEq] at read
    omega

theorem candidate_of_mem_summary {s : Scope} {c : ClosureId} {access : Access} {v : VarId}
    (member : v ∈ (s.collectCaptures.captures.summary c).part access) :
    v ∈ s.collectCaptures.effects.candidates := by
  obtain ⟨closure, _, key, _, read⟩ := mem_summary_keys.mp member
  by_cases own : key.depth - 1 = 0
  · have captured : v ∈ s.collectCaptures.body.captured :=
      mem_captured_collect_iff.mpr (Or.inr ⟨⟨key.name, by rw [read, OuterLocal.inParent, own]⟩,
        c, access, member⟩)
    exact Body.mem_frameCandidates_of_captured captured
  · have enclosing : v ∈ s.collectCaptures.body.vars.enclosing :=
      VarTable.mem_idsWhere.mpr ⟨_, read, decide_eq_true (Nat.pos_of_ne_zero own)⟩
    exact Body.mem_frameCandidates_of_enclosing enclosing

/-- The capture summaries of a collected tree are exact at every scope `s` of it.  The summary of a
closure lists just the variables that code at the closure or at any depth inside touches; none of
them is missing from the table of `s`; the captured set has grown by just the own locals among
them; all of them are candidates.  Collecting once more changes nothing. -/
theorem captures_exact (root : Scope) :
    root.collectCaptures.collectCaptures = root.collectCaptures ∧
      ∀ path s, root.collectCaptures.at? path = some s →
        ∃ before, root.at? path = some before ∧
          (∀ (c : ClosureId) (closure : Scope), s.closures[c]? = some closure → ∀ access v,
            v ∈ (s.captures.summary c).part access ↔
              ∃ name depth, s.body.vars.var? v = some (.named name depth) ∧
                closure.Reaches access ⟨name, depth + 1⟩) ∧
          (∀ (c : ClosureId) (closure : Scope), s.closures[c]? = some closure → ∀ access name depth,
            closure.Reaches access ⟨name, depth + 1⟩ →
              ∃ v, s.body.vars.lookup? (.named name depth) = some v) ∧
          (∀ v, v ∈ s.body.captured ↔ v ∈ before.body.captured ∨
            (∃ name, s.body.vars.var? v = some (.named name 0)) ∧
              ∃ c access, v ∈ (s.captures.summary c).part access) ∧
          ∀ c access v, v ∈ (s.captures.summary c).part access → v ∈ s.effects.candidates := by
  refine ⟨collect_collect root, ?_⟩
  intro path s found
  rw [at?_collect, Option.map_eq_some_iff] at found
  obtain ⟨before, there, rfl⟩ := found
  refine ⟨before, there, ?_, ?_, fun v => mem_captured_collect_iff, ?_⟩
  · intro c closure direct access v
    exact mem_summary_iff direct
  · intro c closure direct access name depth reaches
    obtain ⟨v, read⟩ := interned_of_reaches direct reaches
    exact ⟨v, VarTable.lookup?_eq_some_iff.mpr read⟩
  · intro c access v member
    exact candidate_of_mem_summary member

end Scope

/-! ## A local written two levels further in -/

/-- A closure that writes a local two scopes further out. -/
def resetting : Scope :=
  .node
    { name := "resetting"
      kind := .closure
      layout := ({} : Layout).appendBlock 0 |>.appendInsn 0 0 |>.appendInsn 1 0
      handlers := #[none]
      insns := #[.copy 0 (.int 42), .ret .nil]
      vars := (({} : VarTable).intern (.named "x" 2)).2 } []

/-- A closure that returns the closure nested in it. -/
def handingOut : Scope :=
  .node
    { name := "handingOut"
      kind := .closure
      layout := ({} : Layout).appendBlock 0 |>.appendInsn 0 0
      handlers := #[none]
      insns := #[.ret (.closure 0)] } [resetting]

/-- A method that passes the outer closure to one call, and its own local to the next. -/
def stashing : Scope :=
  .node
    { name := "stashing"
      kind := .method
      layout := ({} : Layout).appendBlock 0 |>.appendInsn 0 0 |>.appendInsn 1 0 |>.appendInsn 2 0
        |>.appendInsn 3 0
      handlers := #[none]
      insns := #[.copy 0 (.int 1), .call none .selfValue "each" [] (some (.closure 0)),
        .call none .selfValue "puts" [.var 0] none, .ret .nil]
      vars := (({} : VarTable).intern (.named "x" 0)).2 } [handingOut]

theorem resetting_touches : resetting.body.Touches .write (.named "x" 2) :=
  ⟨0, .copy 0 (.int 42), 0, List.mem_cons_self, rfl, List.mem_singleton.mpr rfl, rfl⟩

theorem captures_exact_stashing :
    ∃ closure, stashing.collectCaptures.closures[0]? = some closure ∧
      closure.Reaches .write ⟨"x", 1⟩ ∧
      ∃ v, stashing.collectCaptures.body.vars.lookup? (.named "x" 0) = some v ∧
        v ∈ (stashing.collectCaptures.captures.summary 0).part .write ∧
        v ∈ stashing.collectCaptures.effects.candidates := by
  have reaches : handingOut.collectCaptures.Reaches .write ⟨"x", 1⟩ :=
    ⟨[0], resetting, rfl, resetting_touches⟩
  obtain ⟨_, _, summary, interned, _, candidate⟩ := (Scope.captures_exact stashing).2 [] _ rfl
  obtain ⟨v, known⟩ := interned 0 _ rfl .write "x" 0 reaches
  have member := (summary 0 _ rfl .write v).mpr
    ⟨"x", 0, VarTable.lookup?_eq_some_iff.mp known, reaches⟩
  exact ⟨_, rfl, reaches, v, known, member, candidate 0 .write v member⟩

end FramePlacement
