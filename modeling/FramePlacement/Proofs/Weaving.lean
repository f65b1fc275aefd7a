import FramePlacement.Checked
import FramePlacement.Proofs.Exposure
/-!
# Weaving instructions into a scope

Stores are put right behind an instruction and loads right before one, each under a new identifier,
so a scope with its stores or loads is the old one with some code woven around its instructions
(`Body.Woven`).  Weaving leaves the old code in its order: it is what remains when the new
identifiers are dropped (`Body.Extends`), and the graph and the effects of the scope stay the same.
-/

set_option autoImplicit false

namespace FramePlacement

/-! ## Lists -/

/-- Every element with some others before and behind it. -/
def weave {α β : Type} (key : α → β) (before behind : β → List α) (l : List α) : List α :=
  l.flatMap fun x => before (key x) ++ x :: behind (key x)

section Lists

variable {α β : Type} {key : α → β} {before behind : β → List α}

theorem weave_cons (x : α) (rest : List α) : weave key before behind (x :: rest) =
    before (key x) ++ x :: behind (key x) ++ weave key before behind rest := rfl

theorem weave_append (l rest : List α) : weave key before behind (l ++ rest) =
    weave key before behind l ++ weave key before behind rest := List.flatMap_append

theorem weave_of_nil {l : List α} (none : ∀ x ∈ l, before (key x) = [] ∧ behind (key x) = []) :
    weave key before behind l = l := by
  induction l with
  | nil => rfl
  | cons x rest ih =>
      have here := none x List.mem_cons_self
      rw [weave_cons, here.1, here.2, ih fun y member => none y (List.mem_cons_of_mem x member)]
      rfl

end Lists

inductive Side where
  | before
  | behind

namespace Side

variable {α : Type}

def above (side : Side) (around : InsnId → List α) : InsnId → List α :=
  match side with
  | before => around
  | behind => fun _ => []

def below (side : Side) (around : InsnId → List α) : InsnId → List α :=
  match side with
  | before => fun _ => []
  | behind => around

theorem mem_around {side : Side} {around : InsnId → List α} {i : InsnId} {x : α} :
    x ∈ side.above around i ++ side.below around i ↔ x ∈ around i := by
  cases side with
  | before => rw [List.mem_append]; exact or_iff_left List.not_mem_nil
  | behind => rfl

/-- Two lists put next to one instruction, `near` closer to it than `far`. -/
def join (side : Side) (near far : List α) : List α :=
  match side with
  | before => far ++ near
  | behind => near ++ far

theorem mem_join {side : Side} {near far : List α} {x : α} :
    x ∈ side.join near far ↔ x ∈ near ∨ x ∈ far := by
  cases side with
  | before => exact List.mem_append.trans or_comm
  | behind => exact List.mem_append

theorem above_join (side : Side) (near far : InsnId → List α) :
    side.above (fun i => side.join (near i) (far i)) =
      fun i => side.above far i ++ side.above near i := by
  cases side <;> rfl

theorem below_join (side : Side) (near far : InsnId → List α) :
    side.below (fun i => side.join (near i) (far i)) =
      fun i => side.below near i ++ side.below far i := by
  cases side <;> rfl

theorem alone (side : Side) {anchor i : InsnId} (other : i ≠ anchor) (row : List α) :
    side.above (fun i => if i = anchor then row else []) i = [] ∧
      side.below (fun i => if i = anchor then row else []) i = [] := by
  cases side with
  | before => exact ⟨if_neg other, rfl⟩
  | behind => exact ⟨rfl, if_neg other⟩

def insert (side : Side) (x anchor : Nat) (l : List Nat) : List Nat :=
  match side with
  | before => Row.insertBefore x anchor l
  | behind => Row.insertAfter x anchor l

theorem insert_eq_weave (side : Side) {x anchor : Nat} {l : List Nat} (distinct : l.Nodup) :
    side.insert x anchor l =
      weave id (side.above fun i => if i = anchor then [x] else [])
        (side.below fun i => if i = anchor then [x] else []) l := by
  induction l with
  | nil => cases side <;> rfl
  | cons y rest ih =>
      have parts := List.nodup_cons.mp distinct
      by_cases here : y = anchor
      · subst here
        have untouched : weave id (side.above fun i => if i = y then [x] else [])
            (side.below fun i => if i = y then [x] else []) rest = rest := by
          refine weave_of_nil fun z member => side.alone ?_ [x]
          exact fun same => parts.1 (same ▸ member)
        rw [weave_cons, untouched]
        cases side with
        | before => simp [insert, Row.insertBefore, above, below]
        | behind => simp [insert, Row.insertAfter, above, below]
      · rw [weave_cons, ← ih parts.2]
        cases side with
        | before => simp [insert, Row.insertBefore, above, below, here]
        | behind => simp [insert, Row.insertAfter, above, below, here]

end Side

/-! ## One insertion -/

namespace Body

variable {s t : Body}

theorem insnsKnown_iff :
    s.insnsKnown = true ↔ ∀ i ∈ s.layout.allInsns, i < s.insns.size := by
  unfold insnsKnown
  simp

theorem lt_size_of_mem_code {b : BlockId} {entry : InsnId × Insn} (member : entry ∈ s.code b) :
    entry.1 < s.insns.size := by
  obtain ⟨i, insn⟩ := entry
  exact (Array.getElem?_eq_some_iff.mp (mem_code_iff.mp member).2).1

theorem getElem?_push_cases (insns : Array Insn) (new : Insn) (i : InsnId) :
    (insns.push new)[i]? =
      if i < insns.size then insns[i]? else if i = insns.size then some new else none := by
  rw [Array.getElem?_push]
  by_cases last : i = insns.size
  · simp [last]
  · by_cases below : i < insns.size
    · simp [last, below]
    · have outside : insns[i]? = none := Array.getElem?_eq_none (Nat.le_of_not_lt below)
      rw [if_neg last, if_neg below, if_neg last, outside]

/-- New identifiers woven into a row show as new instructions woven into its code. -/
theorem filterMap_weave {insns : Array Insn} {new : Insn} {before behind : InsnId → List InsnId}
    {l : List InsnId} (known : ∀ i ∈ l, i < insns.size)
    (fresh : ∀ i, ∀ j ∈ before i ++ behind i, j = insns.size) :
    (weave id before behind l).filterMap (fun i => (insns.push new)[i]?.map fun insn => (i, insn)) =
      weave Prod.fst (fun i => (before i).map fun j => (j, new))
        (fun i => (behind i).map fun j => (j, new))
        (l.filterMap fun i => insns[i]?.map fun insn => (i, insn)) := by
  have added : ∀ row : List InsnId, (∀ j ∈ row, j = insns.size) →
      row.filterMap (fun i => (insns.push new)[i]?.map fun insn => (i, insn)) =
        row.map fun j => (j, new) := by
    intro row all
    rw [← List.filterMap_eq_map]
    refine List.filterMap_congr fun j member => ?_
    rw [all j member, getElem?_push_cases]
    simp
  induction l with
  | nil => rfl
  | cons i rest ih =>
      have here := known i List.mem_cons_self
      have old : (insns.push new)[i]? = some insns[i] := by
        rw [getElem?_push_cases, if_pos here, Array.getElem?_eq_getElem here]
      have tail := ih fun j member => known j (List.mem_cons_of_mem i member)
      rw [weave_cons, List.filterMap_append, List.filterMap_append, List.filterMap_cons,
        List.filterMap_cons, Array.getElem?_eq_getElem here]
      dsimp only [id_eq]
      rw [old, tail, added (before i) fun j member => fresh i j (List.mem_append_left _ member),
        added (behind i) fun j member => fresh i j (List.mem_append_right _ member)]
      rfl

theorem fresh_insn (known : s.insnsKnown = true) : ¬ s.insns.size ∈ s.layout.allInsns :=
  fun member => absurd (insnsKnown_iff.mp known _ member) (Nat.lt_irrefl _)

theorem code_of_row {new : Insn} (known : s.insnsKnown = true) {b : BlockId}
    {before behind : InsnId → List InsnId} (insns : t.insns = s.insns.push new)
    (row : t.layout.insns b = weave id before behind (s.layout.insns b))
    (fresh : ∀ i, ∀ j ∈ before i ++ behind i, j = s.insns.size) :
    t.code b = weave Prod.fst (fun i => (before i).map fun j => (j, new))
      (fun i => (behind i).map fun j => (j, new)) (s.code b) := by
  have inside : ∀ i ∈ s.layout.insns b, i < s.insns.size :=
    fun i member => insnsKnown_iff.mp known i (Layout.mem_allInsns_iff.mpr ⟨b, member⟩)
  unfold code insn?
  rw [row, insns]
  exact filterMap_weave inside fresh

def addBeside (s : Body) (side : Side) (new : Insn) (anchor : InsnId) : Body :=
  match side with
  | .before => s.addBefore new anchor
  | .behind => s.addAfter new anchor

def insertBeside (s : Body) (side : Side) (move : VarId → Insn) (marks : List Mark) : Body :=
  marks.foldl (fun s mark => s.addBeside side (move mark.2) mark.1) s

def withStores (s : Body) (marks : List Mark) : Body := s.insertBeside .behind .storeFrame marks

def withLoads (s : Body) (marks : List Mark) : Body := s.insertBeside .before .loadFrame marks

theorem addBeside_frame (s : Body) (side : Side) (new : Insn) (anchor : InsnId) :
    s.addBeside side new anchor =
        { s with layout := (s.addBeside side new anchor).layout, insns := s.insns.push new } ∧
      (s.addBeside side new anchor).layout.blocks = s.layout.blocks ∧
      ∀ i ∈ (s.addBeside side new anchor).layout.allInsns,
        i ∈ s.layout.allInsns ∨ i = s.insns.size := by
  cases side with
  | before =>
      exact ⟨rfl, s.layout.blocks_insertBefore _ _, fun _ => Layout.mem_allInsns_insertBefore⟩
  | behind =>
      exact ⟨rfl, s.layout.blocks_insertAfter _ _, fun _ => Layout.mem_allInsns_insertAfter⟩

theorem code_addBeside (known : s.insnsKnown = true) (side : Side) (new : Insn) (anchor : InsnId)
    (b : BlockId) : (s.addBeside side new anchor).code b = weave Prod.fst
      (side.above fun i => if i = anchor then [(s.insns.size, new)] else [])
      (side.below fun i => if i = anchor then [(s.insns.size, new)] else []) (s.code b) := by
  have layout : (s.addBeside side new anchor).layout.insns b =
      if anchor ∈ s.layout.allInsns ∧ ¬ s.insns.size ∈ s.layout.allInsns then
        side.insert s.insns.size anchor (s.layout.insns b)
      else s.layout.insns b := by
    cases side with
    | before => exact s.layout.insns_insertBefore _ _ b
    | behind => exact s.layout.insns_insertAfter _ _ b
  have row : (s.addBeside side new anchor).layout.insns b = weave id
      (side.above fun i => if i = anchor then [s.insns.size] else [])
      (side.below fun i => if i = anchor then [s.insns.size] else []) (s.layout.insns b) := by
    rw [layout]
    split
    · exact side.insert_eq_weave (s.layout.insns_nodup b)
    · next absent =>
        symm
        refine weave_of_nil fun i member => side.alone ?_ [s.insns.size]
        exact fun same => absent ⟨Layout.mem_allInsns_iff.mpr ⟨b, same ▸ member⟩, fresh_insn known⟩
  have insns : (s.addBeside side new anchor).insns = s.insns.push new := by
    rw [(s.addBeside_frame side new anchor).1]
  have made : (fun i => (if i = anchor then [s.insns.size] else []).map fun j => (j, new)) =
      fun i => if i = anchor then [(s.insns.size, new)] else [] := by
    funext i
    split <;> rfl
  rw [code_of_row known insns row, ← made]
  · cases side <;> rfl
  · intro i j member
    have inside := Side.mem_around.mp member
    split at inside
    · exact List.mem_singleton.mp inside
    · cases inside

theorem code_prepend (known : s.insnsKnown = true) (new : Insn) (top b : BlockId)
    (listed : top ∈ s.layout.blocks) : (s.prepend new top).code b =
      if b = top then (s.insns.size, new) :: s.code b else s.code b := by
  have unchanged : ∀ l : List InsnId, (∀ i ∈ l, i < s.insns.size) →
      l.filterMap (fun i => (s.insns.push new)[i]?.map fun insn => (i, insn)) =
        l.filterMap fun i => s.insns[i]?.map fun insn => (i, insn) := by
    intro l below
    refine List.filterMap_congr fun i member => ?_
    rw [getElem?_push_cases, if_pos (below i member)]
  have inside : ∀ i ∈ s.layout.insns b, i < s.insns.size :=
    fun i member => insnsKnown_iff.mp known i (Layout.mem_allInsns_iff.mpr ⟨b, member⟩)
  unfold code insn?
  change ((s.layout.prependInsn s.insns.size top).insns b).filterMap
    (fun i => (s.insns.push new)[i]?.map fun insn => (i, insn)) = _
  rw [Layout.insns_prependInsn]
  by_cases same : b = top
  · subst same
    rw [if_pos ⟨listed, fresh_insn known, rfl⟩, if_pos rfl, List.filterMap_cons,
      getElem?_push_cases, unchanged _ inside]
    simp
  · rw [if_neg fun all => same all.2.2, if_neg same, unchanged _ inside]

theorem insnsKnown_of_added {new : Insn} (known : s.insnsKnown = true)
    (insns : t.insns = s.insns.push new)
    (added : ∀ i ∈ t.layout.allInsns, i ∈ s.layout.allInsns ∨ i = s.insns.size) :
    t.insnsKnown = true := by
  refine insnsKnown_iff.mpr fun i member => ?_
  rw [insns, Array.size_push]
  rcases added i member with old | rfl
  · exact Nat.lt_succ_of_lt (insnsKnown_iff.mp known i old)
  · exact Nat.lt_succ_self _

end Body

end FramePlacement
