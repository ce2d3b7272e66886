/-
# Tvisor.TlbUpdate.Reads -- the parts of the methods that only read

`check`, `all` and the observers load cells and write none, whatever the others do. Said once here,
with the cells they use, it is one line in every argument about the methods that contain them.
-/
import Tvisor.TlbUpdate

namespace Tvisor.TlbUpdate

open Interleave

/-- The cell exists. -/
def Cell.InBounds : Cell → Prop
  | .requested id | .quiet id | .synced id => id < maxCpus
  | _ => True

/-- The operation reads a cell that exists. -/
structure Reads (a : Action fun _ : Cell => Nat) : Prop where
  read : a.IsRead
  inBounds : a.loc.InBounds

theorem load_reads {c : Cell} (hc : c.InBounds) : (load c).Only Reads :=
  fun _ => ⟨⟨trivial, hc⟩, trivial⟩

theorem phase_reads : phase.Only Reads :=
  (load_reads (c := .phase) trivial).bind fun _ _ => trivial

theorem check_reads (id e : Nat) (expected : Phase) :
    (check id e expected).run.Forall Reads fun r => r = .ok () → id < maxCpus := by
  refine .run_bind_lift phase_reads fun p _ => ?_
  split
  · exact nofun
  split
  · exact nofun
  rename_i hid
  refine .run_bind_lift (load_reads trivial) fun _ _ => ?_
  split
  · exact nofun
  split
  · exact nofun
  refine .run_bind_lift (load_reads trivial) fun _ _ => ?_
  split
  · exact nofun
  refine .run_bind_lift phase_reads fun _ _ => ?_
  split
  · exact nofun
  refine .run_bind_lift (load_reads trivial) fun _ _ => ?_
  split
  · exact nofun
  · exact fun _ => not_le.mp hid

theorem all_reads {acks : Nat → Cell} (hacks : ∀ id < maxCpus, (acks id).InBounds) :
    (all acks).Only Reads := by
  refine .allM fun id hid => ?_
  refine (load_reads (c := .members) trivial).bind fun _ _ => ?_
  split
  · trivial
  · refine (load_reads (hacks id (List.mem_range.mp hid))).bind fun _ _ => ?_
    exact (load_reads (c := .epoch) trivial).bind fun _ _ => trivial

theorem pending_reads (id : Nat) : (pending id).Only Reads := by
  unfold pending
  split
  · trivial
  rename_i hid
  refine phase_reads.bind fun _ _ => ?_
  split
  · trivial
  refine (load_reads (c := .requested id) (not_le.mp hid)).bind fun _ _ => ?_
  refine (load_reads (c := .epoch) trivial).bind fun _ _ => ?_
  split
  · trivial
  refine (load_reads (c := .quiet id) (not_le.mp hid)).bind fun _ _ => ?_
  exact (load_reads (c := .epoch) trivial).bind fun _ _ => trivial

theorem unrequested_reads {id : Nat} (hid : id < maxCpus) (e : Nat) :
    (unrequested id e).Only Reads := by
  unfold unrequested
  split
  · trivial
  · exact (load_reads (c := .requested id) hid).bind fun _ _ => trivial

theorem mayWrite_reads (e : Nat) : (mayWrite e).Only Reads := by
  refine (check_reads 0 e .replacing).bind fun r _ => ?_
  split
  · trivial
  · exact all_reads fun _ hid => hid

theorem reusable_reads (e : Nat) : (reusable e).Only Reads := by
  unfold reusable
  split
  · trivial
  refine (load_reads (c := .epoch) trivial).bind fun _ _ => ?_
  split
  · trivial
  refine phase_reads.bind fun _ _ => ?_
  split
  · trivial
  · exact all_reads fun _ hid => hid

/-- `all_quiet` and `all_synced`. -/
theorem observed_reads (expected : Phase) (acks : Nat → Cell)
    (hacks : ∀ id < maxCpus, (acks id).InBounds) :
    (do if (← phase) ≠ expected then return false else all acks : Ops Bool).Only Reads := by
  refine phase_reads.bind fun _ _ => ?_
  split
  · trivial
  · exact all_reads hacks

end Tvisor.TlbUpdate
