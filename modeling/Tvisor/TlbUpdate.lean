/-
# Tvisor.TlbUpdate -- the EL2 mapping-update protocol

`UpdateState` has a gate, an epoch, the members of the update, its phase, and three arrays of
acknowledgements, one word each for every CPU. A coordinator begins an epoch, waits until every
member is quiet, replaces the mapping, publishes it, waits until every member has synchronized and
finishes. Each method is a program of single atomic operations in the order of the source, with
`?` as the error monad and `&&` as a condition that stops early.
-/
import Tvisor.Lib.Interleave
import Tvisor.Lib.Words

namespace Tvisor.TlbUpdate

open Interleave Words

/-! ## State -/

/-- `MAX_CPUS` -/
def maxCpus : Nat := 4

/-- The atomic cells. The arrays are indexed by CPU; `check` has tested an index before it is
used. -/
inductive Cell where
  | gate
  | epoch
  | members
  | phase
  | requested (id : Nat)
  | quiet (id : Nat)
  | synced (id : Nat)
  deriving DecidableEq, Repr

/-- The contents of the cells. -/
abbrev Memory := Cell → Nat

/-- `UpdateState::new`. -/
def new : Memory := fun _ => 0

/-- How far an update has come. -/
inductive Phase where
  | idle
  | quiescing
  | replacing
  | synchronizing
  | complete
  | failed
  deriving DecidableEq, Repr

namespace Phase

/-- The discriminants. -/
def toWord : Phase → Nat
  | idle => 0
  | quiescing => 1
  | replacing => 2
  | synchronizing => 3
  | complete => 4
  | failed => 5

/-- A word that is no phase reads as a failure. -/
def ofWord : Nat → Phase
  | 0 => idle
  | 1 => quiescing
  | 2 => replacing
  | 3 => synchronizing
  | 4 => complete
  | _ => failed

@[simp] theorem ofWord_toWord (p : Phase) : ofWord p.toWord = p := by cases p <;> rfl

theorem ofWord_eq_iff {w : Nat} {p : Phase} (hp : p ≠ failed) : ofWord w = p ↔ w = p.toWord := by
  refine ⟨?_, ?_⟩
  · rintro rfl
    rcases w with _ | _ | _ | _ | _ | w
    · rfl
    · rfl
    · rfl
    · rfl
    · rfl
    · exact absurd rfl hp
  · rintro rfl
    exact ofWord_toWord p

end Phase

/-- Why a method refuses. -/
inductive Error where
  | busy
  | failed
  | membership
  | epoch
  | phase
  | missingAck
  | exhausted
  deriving DecidableEq, Repr

/-- The phase that a reader of this memory sees. -/
def phaseOf (m : Memory) : Phase := .ofWord (m .phase)

/-- The bit of the CPU is in the mask. -/
def isMember (members id : Nat) : Prop := members &&& (1 <<< id) ≠ 0

instance (members id : Nat) : Decidable (isMember members id) :=
  inferInstanceAs (Decidable (_ ≠ _))

/-! ## Methods -/

/-- One operation on the cells. -/
abbrev Op := Action fun _ : Cell => Nat

/-- A program over the cells. -/
abbrev Ops := Prog fun _ : Cell => Nat

/-- A method that may refuse. -/
abbrev Result := ExceptT Error Ops

/-- An atomic load. -/
def load (c : Cell) : Ops Nat := Atomic.load c

/-- An atomic store. -/
def store (c : Cell) (v : Nat) : Ops Unit := Atomic.store c v

/-- An atomic exchange and whether it took place. -/
def compareExchange (c : Cell) (expected new : Nat) : Ops Bool :=
  Atomic.compareExchange c expected new

/-- The phase now. -/
def phase : Ops Phase := do
  return .ofWord (← load .phase)

/-- The number of the update. -/
def epoch : Ops Nat := load .epoch

/-- The CPUs that take part. -/
def members : Ops Nat := load .members

/-- Failure is sticky: nothing leaves this phase. -/
def fail : Ops Unit := store .phase Phase.failed.toWord

/-- Takes the gate for a change of the members, unless an update has it. -/
def tryMembershipChange : Ops Bool := do
  if (← phase) = .failed then return false
  else if !(← compareExchange .gate 0 2) then return false
  else return (← phase) != .failed

/-- Whether the assertion on the old gate held. -/
def finishMembershipChange : Ops Bool := do
  return (← Atomic.swap Cell.gate 0) == 2

/-- A set that `begin` refuses: without CPU 0, with a CPU that does not exist, or CPU 0 alone. -/
def badMembers (members : Nat) : Prop :=
  members &&& 1 = 0 ∨ members >>> maxCpus ≠ 0 ∨ members = 1

instance (members : Nat) : Decidable (badMembers members) :=
  inferInstanceAs (Decidable (_ ∨ _ ∨ _))

/-- Takes the gate for an update by these members and gives it the next epoch. -/
def begin (members : Nat) : Result Nat := do
  if (← phase) = .failed then throw .failed
  else if badMembers members then throw .membership
  else if !(← compareExchange .gate 0 1) then throw .busy
  else
    let previous ← phase
    if previous ≠ .idle ∧ previous ≠ .complete then
      fail
      throw .phase
    else
      match checkedAdd (← epoch) 1 with
      | none =>
          fail
          throw .exhausted
      | some epoch =>
          store .members members
          store .epoch epoch
          if !(← compareExchange .phase previous.toWord Phase.quiescing.toWord) then throw .failed
          else return epoch

/-- The tests that every step of an update makes first. -/
def check (id e : Nat) (expected : Phase) : Result Unit := do
  if (← phase) = .failed then throw .failed
  else if maxCpus ≤ id then throw .membership
  else if ¬ isMember (← members) id then throw .membership
  else if e = 0 then throw .epoch
  else if (← epoch) ≠ e then throw .epoch
  else if (← phase) ≠ expected then throw .phase
  else if (← load .gate) ≠ 1 then throw .phase
  else return ()

/-- `admit`: bounded IRQ-side admission of a request. -/
def admitRequest (id e : Nat) : Result Unit := do
  check id e .quiescing
  if id = 0 then throw .membership
  else
    let previous ← load (.requested id)
    if e ≤ previous then throw .epoch
    else if !(← compareExchange (.requested id) previous e) then throw .epoch
    else return ()

/-- A request was admitted that its CPU has not answered. -/
def pending (id : Nat) : Ops Bool := do
  if maxCpus ≤ id then return false
  else if (← phase) ≠ .quiescing then return false
  else if (← load (.requested id)) ≠ (← epoch) then return false
  else return (← load (.quiet id)) != (← epoch)

/-- CPU 0 is quiet without a request. -/
def unrequested (id e : Nat) : Ops Bool := do
  if id = 0 then return false
  else return (← load (.requested id)) != e

/-- The CPU has stopped using what is to be replaced. -/
def quiesce (id e : Nat) : Result Unit := do
  check id e .quiescing
  if (← unrequested id e) then throw .epoch
  else store (.quiet id) e

/-- Every member has acknowledged the epoch in this array; the members and the epoch are loaded
again for each CPU. -/
def all (acks : Nat → Cell) : Ops Bool :=
  (List.range maxCpus).allM fun id => do
    if ¬ isMember (← members) id then return true
    else return (← load (acks id)) == (← epoch)

/-- Every member is quiet. -/
def allQuiet : Ops Bool := do
  if (← phase) ≠ .quiescing then return false
  else all .quiet

/-- From here on the writer may store. -/
def startReplace (e : Nat) : Result Unit := do
  check 0 e .quiescing
  if !(← all .quiet) then throw .missingAck
  else if !(← compareExchange .phase 1 2) then throw .phase
  else return ()

/-- What the writer asks before each of its stores. -/
def mayWrite (e : Nat) : Ops Bool := do
  match ← (check 0 e .replacing).run with
  | .error _ => return false
  | .ok () => all .quiet

/-- The maintenance of the writer is done. -/
def publish (e : Nat) : Result Unit := do
  check 0 e .replacing
  if !(← compareExchange .phase 2 3) then throw .phase
  else return ()

/-- The CPU has synchronized and uses no old backing. -/
def synchronized (id e : Nat) : Result Unit := do
  check id e .synchronizing
  store (.synced id) e

/-- Every member has synchronized. -/
def allSynced : Ops Bool := do
  if (← phase) ≠ .synchronizing then return false
  else all .synced

/-- Completes the update and opens the gate. -/
def finish (e : Nat) : Result Unit := do
  check 0 e .synchronizing
  if !(← all .synced) then throw .missingAck
  else if !(← compareExchange .phase Phase.synchronizing.toWord Phase.complete.toWord) then
    throw .phase
  else store .gate 0

/-- The old backing of this update may be used again. -/
def reusable (e : Nat) : Ops Bool := do
  if e = 0 then return false
  else if (← epoch) ≠ e then return false
  else if (← phase) ≠ .complete then return false
  else all .synced

/-! ## The protocol as a system -/

/-- The methods. -/
inductive Call where
  | phase
  | epoch
  | members
  | tryMembershipChange
  | finishMembershipChange
  | begin (members : Nat)
  | admitRequest (id e : Nat)
  | pending (id : Nat)
  | quiesce (id e : Nat)
  | allQuiet
  | startReplace (e : Nat)
  | mayWrite (e : Nat)
  | publish (e : Nat)
  | synchronized (id e : Nat)
  | allSynced
  | finish (e : Nat)
  | reusable (e : Nat)
  | fail
  deriving DecidableEq, Repr

/-- What they return. -/
inductive Reply where
  | phase (p : Phase)
  | word (v : Nat)
  | flag (b : Bool)
  | begun (r : Except Error Nat)
  | result (r : Except Error Unit)
  | asserted (held : Bool)
  | unit

/-- The program of each method. -/
def code : Call → Ops Reply
  | .phase => do return .phase (← phase)
  | .epoch => do return .word (← epoch)
  | .members => do return .word (← members)
  | .tryMembershipChange => do return .flag (← tryMembershipChange)
  | .finishMembershipChange => do return .asserted (← finishMembershipChange)
  | .begin members => do return .begun (← (begin members).run)
  | .admitRequest id e => do return .result (← (admitRequest id e).run)
  | .pending id => do return .flag (← pending id)
  | .quiesce id e => do return .result (← (quiesce id e).run)
  | .allQuiet => do return .flag (← allQuiet)
  | .startReplace e => do return .result (← (startReplace e).run)
  | .mayWrite e => do return .flag (← mayWrite e)
  | .publish e => do return .result (← (publish e).run)
  | .synchronized id e => do return .result (← (synchronized id e).run)
  | .allSynced => do return .flag (← allSynced)
  | .finish e => do return .result (← (finish e).run)
  | .reusable e => do return .flag (← reusable e)
  | .fail => do
      fail
      return .unit

/-- A CPU in one of its calls. -/
abbrev Cpu (Tid : Type) := Invocation (fun _ : Cell => Nat) Tid Call

/-- No CPU has called anything yet. -/
def initial (Tid Env : Type) (env : Env) : Shared (fun _ : Cell => Nat) Tid Call Reply Env :=
  ⟨new, env, []⟩

end Tvisor.TlbUpdate
