import FramePlacement.Proofs.Phase
/-!
# Insertion points are never missing

A move is put beside a marked instruction only if that instruction stands in the layout, and an
insertion stops at the first mark for which it does not.  The writes that are due a store and the
stale reads stand in the layout, and an insertion takes nothing out of it, so no insertion of a
placement stops (`Body.insertStores_of_due`, `Body.insertLoads_of_stale`).
-/

set_option autoImplicit false

namespace FramePlacement

theorem Layout.mem_allInsns_addBeside_of_mem {l : Layout} {i anchor x : InsnId}
    {f : List InsnId → List InsnId} {keeps : ∀ insns, ¬ anchor ∈ insns → f insns = insns}
    {adds : ∀ insns, anchor ∈ insns → (f insns).Perm (i :: insns)} (member : x ∈ l.allInsns) :
    x ∈ (l.addBeside i anchor f keeps adds).allInsns := by
  by_cases allowed : anchor ∈ l.allInsns ∧ ¬ i ∈ l.allInsns
  · have perm := @allInsns_addBeside_perm l i anchor f keeps adds allowed.1 allowed.2
    exact perm.mem_iff.mpr (List.mem_cons_of_mem i member)
  · rw [addBeside, dif_neg allowed]
    exact member

theorem mem_allInsns_of_dueStore {s : Body} {e : Effects} {w : InsnId} {v : VarId}
    (due : e.DueStore s w v) : w ∈ s.layout.allInsns := by
  obtain ⟨b, above, insn, rest, _, code, _, _, _⟩ := due
  have member : (w, insn) ∈ s.code b := Body.mem_code_of_split code
  exact Layout.mem_allInsns_iff.mpr ⟨b, (Body.mem_code_iff.mp member).1⟩

theorem mem_allInsns_of_staleRead {s : Body} {e : Effects} {r : InsnId} {v : VarId}
    (stale : e.StaleRead s r v) : r ∈ s.layout.allInsns := by
  obtain ⟨b, above, insn, rest, code, _, _, _⟩ := stale
  have member : (r, insn) ∈ s.code b := Body.mem_code_of_split code
  exact Layout.mem_allInsns_iff.mpr ⟨b, (Body.mem_code_iff.mp member).1⟩

namespace Body

variable {s t : Body} {marks : List Mark} {kind : String} {put : Body → Mark → Body}

theorem mem_allInsns_addBeside (s : Body) (side : Side) (new : Insn) (anchor : InsnId)
    {i : InsnId} (member : i ∈ s.layout.allInsns) :
    i ∈ (s.addBeside side new anchor).layout.allInsns := by
  cases side with
  | before =>
      change i ∈ (s.layout.insertBefore s.insns.size anchor).allInsns
      unfold Layout.insertBefore
      exact Layout.mem_allInsns_addBeside_of_mem member
  | behind =>
      change i ∈ (s.layout.insertAfter s.insns.size anchor).allInsns
      unfold Layout.insertAfter
      exact Layout.mem_allInsns_addBeside_of_mem member

/-! ## Insertions at marks -/

theorem foldlM_insertMove_eq_ok (inserted : marks.foldlM (insertMove kind put) s = .ok t) :
    t = marks.foldl put s := by
  induction marks generalizing s with
  | nil => exact (Except.ok.inj inserted).symm
  | cons mark rest ih =>
      rw [List.foldlM_cons] at inserted
      unfold insertMove at inserted
      split at inserted
      · exact ih inserted
      · cases inserted

/-- An insertion does not stop as long as the marked instructions are in the layout, from which no
move takes them out. -/
theorem foldlM_insertMove_of_inside
    (keeps : ∀ s mark, ∀ i ∈ s.layout.allInsns, i ∈ (put s mark).layout.allInsns)
    (inside : ∀ mark ∈ marks, mark.1 ∈ s.layout.allInsns) :
    marks.foldlM (insertMove kind put) s = .ok (marks.foldl put s) := by
  induction marks generalizing s with
  | nil => rfl
  | cons mark rest ih =>
      have here : s.layout.hasInsn mark.1 = true :=
        List.contains_iff_mem.mpr (inside mark List.mem_cons_self)
      rw [List.foldlM_cons, insertMove, if_pos here]
      exact ih fun other member => keeps s mark _ (inside other (List.mem_cons_of_mem mark member))

theorem eq_withStores (inserted : s.insertStores marks = .ok t) : t = s.withStores marks :=
  foldlM_insertMove_eq_ok inserted

theorem eq_withLoads (inserted : s.insertLoads marks = .ok t) : t = s.withLoads marks :=
  foldlM_insertMove_eq_ok inserted

/-! ## The marks of a placement -/

variable {e : Effects}

theorem insertStores_of_due (due : ∀ w v, (w, v) ∈ marks ↔ e.DueStore s w v) :
    s.insertStores marks = .ok (s.withStores marks) :=
  foldlM_insertMove_of_inside
    (fun s mark _ => s.mem_allInsns_addBeside .behind (.storeFrame mark.2) mark.1)
    fun mark member => mem_allInsns_of_dueStore ((due mark.1 mark.2).mp member)

theorem insertLoads_of_stale (stale : ∀ r v, (r, v) ∈ marks ↔ e.StaleRead s r v) :
    s.insertLoads marks = .ok (s.withLoads marks) :=
  foldlM_insertMove_of_inside
    (fun s mark _ => s.mem_allInsns_addBeside .before (.loadFrame mark.2) mark.1)
    fun mark member => mem_allInsns_of_staleRead ((stale mark.1 mark.2).mp member)

end Body

end FramePlacement
