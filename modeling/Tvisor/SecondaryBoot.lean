/-
# Tvisor.SecondaryBoot -- the aggregate boot word

One word says how far the boot of the secondaries has come. It moves by compare-exchange only:
`begin_boot_once` takes it out of `Idle`, `begin_release` from `Preparing` to `Releasing`, and
`finalize_boot` to one of the four terminal states. The checks of single CPUs go through a startup
view, which reads the mailbox and the failure mask of a slot.

A wait polls the lifecycle of a CPU between two readings of a counter. The counter consults the
fatal flag first, which is a word of the shared memory, and then the caller's clock.
-/
import Tvisor.StartupPublication

namespace Tvisor.SecondaryBoot

open Interleave Fallible Words CpuTopology StartupPublication

/-- The stages of the boot; the last four are final. -/
inductive BootStatus where
  | idle
  | preparing
  | releasing
  | ready
  | preparationFailed
  | releaseFailed
  | waitFailed
  deriving DecidableEq, Repr

namespace BootStatus

/-- How a stage is stored. -/
def toWord : BootStatus → Nat
  | idle => 0
  | preparing => 1
  | releasing => 2
  | ready => 3
  | preparationFailed => 4
  | releaseFailed => 5
  | waitFailed => 6

/-- No other word is a stage. -/
def ofWord : Nat → Option BootStatus
  | 0 => some idle
  | 1 => some preparing
  | 2 => some releasing
  | 3 => some ready
  | 4 => some preparationFailed
  | 5 => some releaseFailed
  | 6 => some waitFailed
  | _ => none

theorem toWord_of_ofWord {v : Nat} {s : BootStatus} (h : ofWord v = some s) : s.toWord = v := by
  rcases v with _ | _ | _ | _ | _ | _ | _ | _ <;> cases h <;> rfl

end BootStatus

/-- Why the wait for a CPU ends early. -/
inductive WaitError where
  | invalidGeneration
  | invalidDeadline
  | timeout
  | cpuFailed
  | pollLimit
  deriving DecidableEq, Repr

/-- Why the boot fails. -/
inductive BootError where
  | alreadyAttempted
  | invalidTransition
  | invalidCheckpoint
  | fatal
  | preparation (reason : String)
  | release (e : PublicationError)
  | wait (e : WaitError)
  | readback
  deriving DecidableEq, Repr

/-! ## The boot word -/

section Status

variable {ε : Type}

/-- The source panics at any other word. -/
def bootStatus : Attempt ε BootStatus := do
  match BootStatus.ofWord (← load .boot) with
  | some s => return s
  | none => throw .panicked

/-- `compare_exchange(..).map_err(|_| e)?` on the boot word. -/
def advance (expected next : BootStatus) (e : BootError) : Attempt BootError Unit := do
  if (← compareExchange .boot expected.toWord next.toWord) then return ()
  else throw (.error e)

/-- There is one attempt. -/
def beginBootOnce : Attempt BootError Unit := advance .idle .preparing .alreadyAttempted

/-- From here on CPUs may be running. -/
def beginRelease : Attempt BootError Unit := advance .preparing .releasing .invalidTransition

/-- Where a result leads to, from this status. -/
def terminal : BootStatus → Except BootError Unit → Option BootStatus
  | .releasing, .ok () => some .ready
  | .preparing, _ => some .preparationFailed
  | .releasing, .error (.wait _) | .releasing, .error .invalidCheckpoint
  | .releasing, .error .fatal | .releasing, .error .readback => some .waitFailed
  | .releasing, .error _ => some .releaseFailed
  | _, _ => none

/-- Ends the boot with its result. -/
def finalizeBoot (result : Except BootError Unit) : Attempt BootError Unit := do
  let old ← bootStatus
  match terminal old result with
  | none => throw (.error .invalidTransition)
  | some next =>
      advance old next .invalidTransition
      if next = .ready then return ()
      else
        match result with
        | .ok () => throw (.error .invalidTransition)
        | .error e => throw (.error e)

end Status

/-! ## Checkpoints -/

/-- `has_parked` on the mailbox of a view. -/
def hasParked {ε : Type} (slot generation : Nat) : Attempt ε Bool := do
  match ← mailbox slot (SecondaryMailbox.hasParked generation) with
  | .ok b => return b
  | .error _ => throw .panicked

/-- The CPU of this view has parked in this generation, without a failure. -/
def verifyCheckpoint (record : StartupView) (id generation : Nat) : Attempt BootError Unit := do
  if id = 0 ∨ maxCpus ≤ id ∨ record.identity.logicalId ≠ id ∨
      record.identity.context ≠ record.slotAddress ∨ generation = 0 ∨
      record.generation ≠ generation then throw (.error .invalidCheckpoint)
  else if !(← hasParked record.slot generation) then throw (.error .invalidCheckpoint)
  else if (← load (.failures record.slot)) ≠ 0 then throw (.error .invalidCheckpoint)
  else return ()

/-- The loop of `verify_all_parked`: the CPUs seen, from those seen so far. The iterator makes each
view when the loop comes to it and passes over a CPU that has none. -/
def verifyRecords (required generation : Nat)
    (view : Nat → Attempt BootError (Option StartupView)) :
    List Nat → Nat → Attempt BootError Nat
  | [], seen => return seen
  | id :: ids, seen => do
      match ← view id with
      | none => verifyRecords required generation view ids seen
      | some record =>
          verifyCheckpoint record id generation
          if required &&& 1 <<< id = 0 ∨ seen &&& 1 <<< id ≠ 0 then
            throw (.error .invalidCheckpoint)
          else verifyRecords required generation view ids (seen ||| 1 <<< id)

/-- Exactly the required CPUs have parked. -/
def verifyAllParked (required generation : Nat)
    (view : Nat → Attempt BootError (Option StartupView)) (ids : List Nat) (fatal : Bool) :
    Attempt BootError Unit := do
  if (← bootStatus) ≠ .releasing then throw (.error .invalidTransition)
  else if fatal then throw (.error .fatal)
  else if required = 0 ∨ required &&& 1 ≠ 0 ∨ required >>> maxCpus ≠ 0 then
    throw (.error .invalidCheckpoint)
  else if (← verifyRecords required generation view ids 0) ≠ required then
    throw (.error .invalidCheckpoint)
  else return ()

/-! ## Waiting -/

/-- Some CPU has met a fatal condition. -/
def hasFatal : Ops Bool := do return (← load .fatal) != 0

section Waiting

/- The boot runs a wait with readings of the counter that are given, and a wait on its own makes
them. So the code stands for every monad that has the operations on the shared memory. -/
variable {M : Type → Type} [Monad M] [MonadLiftT Ops M] {ε A : Type}

/-- Operations on the shared memory that may fail. -/
def shared (x : Attempt ε A) : ExceptT (Halt ε) M A := ExceptT.mk (liftM x.run)

/- `elapsed()`, by the number of the reading. -/
variable (elapsed : Nat → M Nat)

/-- The closure that `wait_for_parked` gives as counter: its value, and whether it saw a fatal
condition. -/
def counter (ticks readings : Nat) : M (Nat × Bool) := do
  if (← hasFatal) then return (ticks, true) else return (← elapsed readings, false)

/-- The loop of `wait_until_parked`, with the number of readings made and whether one of them saw a
fatal condition. -/
def pollParked (slot start ticks : Nat) :
    Nat → Nat → Bool → ExceptT (Halt ε) M (Except WaitError Unit × Bool)
  | 0, _, saw => return (.error .pollLimit, saw)
  | polls + 1, readings, saw => do
      let (now, fatal) ← (counter elapsed ticks readings : M _)
      if ticks ≤ wrappingSub now start then return (.error .timeout, saw || fatal)
      else
        match ← mailbox slot SecondaryMailbox.lifecycle with
        | .error _ => throw .panicked
        | .ok .failed => return (.error .cpuFailed, saw || fatal)
        | .ok .parked => do
            let (now, fatal') ← (counter elapsed ticks (readings + 1) : M _)
            if ticks ≤ wrappingSub now start then
              return (.error .timeout, saw || fatal || fatal')
            else return (.ok (), saw || fatal || fatal')
        | .ok _ => pollParked slot start ticks polls (readings + 1) (saw || fatal)

/-- `wait_until_parked` with that closure. -/
def waitUntilParked (slot generation start ticks maxPolls : Nat) :
    ExceptT (Halt ε) M (Except WaitError Unit × Bool) := do
  match ← mailbox slot (SecondaryMailbox.check generation) with
  | .error .panicked => throw .panicked
  | .error (.error _) => return (.error .invalidGeneration, false)
  | .ok () =>
      if ticks = 0 ∨ 1 <<< 63 ≤ ticks then return (.error .invalidDeadline, false)
      else pollParked elapsed slot start ticks maxPolls 0 false

/-- The part of `wait_for_parked` after `wait_until_parked`, with its result. -/
def concludeWait (record : StartupView) (id generation : Nat) (result : Except WaitError Unit) :
    ExceptT (Halt BootError) M Unit := do
  if (← hasFatal) then throw (.error .fatal)
  else
    match result with
    | .error e => throw (.error (.wait e))
    | .ok () =>
        if (← shared bootStatus) ≠ .releasing then throw (.error .invalidTransition)
        else shared (verifyCheckpoint record id generation)

/-- The closure that reports a fatal condition is `has_fatal`. -/
def waitForParked (record : StartupView) (id generation ticks maxPolls : Nat) :
    ExceptT (Halt BootError) M Unit := do
  if (← shared bootStatus) ≠ .releasing then throw (.error .invalidTransition)
  else if id = 0 ∨ maxCpus ≤ id ∨ record.identity.logicalId ≠ id ∨
      record.generation ≠ generation then throw (.error .invalidCheckpoint)
  else
    let (result, saw) ← waitUntilParked elapsed record.slot generation 0 ticks maxPolls
    if saw then throw (.error .fatal)
    else concludeWait record id generation result

end Waiting

/-- Guests run only after a boot that has succeeded. -/
def guestAuthorized (fatal : Bool) : Attempt BootError Unit := do
  if fatal then throw (.error .fatal)
  else if (← bootStatus) = .ready then return ()
  else throw (.error .invalidTransition)

end Tvisor.SecondaryBoot
