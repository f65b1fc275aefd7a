import FramePlacement.Proofs.Idempotence
import FramePlacement.Proofs.Lockstep
/-!
# Placed scopes run like unplaced ones

Every scope that a strict run places behaves like the scope before: the split machine on the placed
scope and the plain machine on the original one have the same trace in every world
(`Scope.runAlone_sound`).
-/

set_option autoImplicit false

namespace FramePlacement

section Placed

variable {s t : Body} {captures : Captures} {stats : Stats}

theorem Body.orderly_of_checkInvariants (accepted : t.checkInvariants = .ok ()) : t.Orderly := by
  apply Body.orderly_of_verify
  unfold Body.checkInvariants at accepted
  split at accepted
  · next verified => exact verified
  · cases accepted

/-- A verified placement into a scope without frame instructions leaves nothing due. -/
theorem serves_of_place (known : s.insnsKnown = true)
    (bare : ∀ entry ∈ s.allCode, entry.2.isFrameInsn = false)
    (placed : s.place true captures = .ok (t, stats)) : (s.effects captures).Serves s t := by
  obtain ⟨frame, accepted⟩ := Body.place_eq_ok placed
  obtain ⟨extend, _, reads, stores⟩ := Body.insertFrameInsns_settled known frame
  have effects := extend.effects captures
  refine
    { extend := extend
      bare := bare
      covers :=
        { reads := reads
          stores := stores
          moves := Body.insertFrameInsns_goodMoves known bare frame
          calls := ?_
          observed := fun i v member => Body.observed_subset member
          leaving := fun v member => Body.exitObserved_subset member }
      orderly := Body.orderly_of_checkInvariants (accepted rfl) }
  intro entry inside v observed
  rw [← effects] at observed
  exact Body.isCall_of_observed inside observed

theorem Body.place_of_run (proper : s.isExempt = false)
    (done : s.run .strict captures = (t, .ok stats)) :
    s.place true captures = .ok (t, stats) := by
  unfold Body.run at done
  rw [proper, if_neg Bool.false_ne_true] at done
  split at done
  · next placed =>
      cases done
      exact placed
  · cases done

end Placed

namespace Scope

variable {s t : Scope} {stats : Stats} {config : Config}

theorem run_of_checked (done : Checked.runAlone config s = .ok (t, .ok stats)) :
    s.runAloneDangles config = false ∧ s.body.run config s.captures = (t.body, .ok stats) := by
  unfold Checked.runAlone Fault.guarded at done
  split at done
  · next safe =>
      rw [Bool.not_eq_true'] at safe
      have run := Except.ok.inj done
      have placed : s.withBody (s.body.run config s.captures).1 = t := congrArg Prod.fst run
      have result : (s.body.run config s.captures).2 = .ok stats := congrArg Prod.snd run
      rw [← placed]
      exact ⟨safe, Prod.ext rfl result⟩
  · cases done

/-- Placing one scope is sound.  Take a method or a closure that is not eager and has no frame
instructions yet, and that a strict run places.  In every world, with any values of the enclosing
variables and any leftovers in their slots, the split machine runs the placed scope just like the
plain machine runs the scope as it was: the same instructions with the same operands, calls that
observe the same variables, and the same ending with the same variables to be observed after it. -/
theorem runAlone_sound {V : Type} (done : Checked.runAlone .strict s = .ok (t, .ok stats))
    (kind : s.body.kind ≠ .script) (lazy : s.body.eager = false)
    (bare : ∀ entry ∈ s.body.allCode, entry.2.isFrameInsn = false) (world : World V)
    (outer slots : VarId → V) (fuel : Nat) :
    plainRun world s.effects s.body outer fuel =
      splitRun world s.effects t.body outer slots fuel := by
  obtain ⟨safe, run⟩ := run_of_checked done
  have exempt : s.body.isExempt = !s.body.hasFlow := by
    unfold Body.isExempt
    rw [lazy, beq_false_of_ne kind, Bool.false_or, Bool.or_false]
  cases flow : s.body.hasFlow with
  | false =>
      -- a scope without blocks is left alone
      have none : s.body.layout.entry? = none :=
        Option.isNone_iff_eq_none.mp (Option.isSome_eq_false_iff.mp flow)
      have alone : s.body.isExempt = true := by rw [exempt, flow]; rfl
      unfold Body.run at run
      rw [if_pos alone] at run
      have same : t.body = s.body := (congrArg Prod.fst run).symm
      exact run_eq_of_no_entry none (same ▸ none) outer slots fuel
  | true =>
      have proper : s.body.isExempt = false := by rw [exempt, flow]; rfl
      have known := insnsKnown_of_runAloneDangles proper safe
      have placed := Body.place_of_run proper run
      exact run_eq (serves_of_place known bare placed) outer slots fuel

end Scope

/-- A world whose values are operands, and where a call leaves a three in whatever it may write. -/
def threes : World Operand where
  domain :=
    { nil := .nil
      truthy := fun value => match value with
        | .nil | .bool false => false
        | _ => true
      constant := id
      array := .array
      hash := .hash }
  args := []
  reply _ := { writes := fun _ => some (.int 3), outcome := .ok .nil }

theorem runAlone_sound_totalling :
    ∃ t stats, Checked.runAlone .strict totalling = .ok (t, .ok stats) ∧
      stats.stores = 1 ∧ stats.loads = 1 ∧ totalling.body.kind ≠ .script ∧
      totalling.body.eager = false ∧
      (∀ entry ∈ totalling.body.allCode, entry.2.isFrameInsn = false) ∧
      plainRun threes totalling.effects totalling.body (fun _ => .nil) 5 =
        splitRun threes totalling.effects t.body (fun _ => .nil) (fun _ => .int 7) 5 ∧
      (plainRun threes totalling.effects totalling.body (fun _ => .nil) 5).ending?.map
        Ending.outcome = some (.ok (.int 3)) := by
  have placed : (match Checked.runAlone .strict totalling with
      | .ok (_, .ok stats) => decide (stats.stores = 1 ∧ stats.loads = 1)
      | _ => false) = true := by decide
  have kind : totalling.body.kind ≠ .script := by decide
  have bare : ∀ entry ∈ totalling.body.allCode, entry.2.isFrameInsn = false := by decide
  split at placed
  · next t stats done =>
      obtain ⟨stores, loads⟩ := of_decide_eq_true placed
      exact ⟨t, stats, done, stores, loads, kind, rfl, bare,
        Scope.runAlone_sound done kind rfl bare threes _ _ 5, rfl⟩
  · cases placed

end FramePlacement
