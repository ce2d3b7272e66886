/-
# Tvisor.SecondaryMailbox -- the lifecycle mailbox of a secondary CPU

`SecondaryMailbox` has three atomics: the published generation, the lifecycle word and the flag that
one entrant claims. Every method checks one of them and then exchanges another, so each is a program
of single atomic operations, with `?` as the error monad. The flag is a word that is 0 or 1.

An `EntryClaim` is a value that only a successful `claim_entry` makes and that `park` and `fail`
consume. The client keeps the generations of the claims it holds; starting `park` or `fail` takes
one of them out.
-/
import Tvisor.Lib.Fallible
import Tvisor.Lib.Interleave

namespace Tvisor.SecondaryMailbox

open Interleave Fallible

/-! ## State -/

/-- The words of a mailbox. -/
inductive Cell where
  | ready
  | state
  | entryClaimed
  deriving DecidableEq, Repr

/-- The contents of the words. -/
abbrev Memory := Cell → Nat

/-- `SecondaryMailbox::new`. -/
def new : Memory := fun _ => 0

/-- The lifecycle of a secondary. -/
inductive CpuState where
  | offline
  | prepared
  | starting
  | parked
  | online
  | failed
  deriving DecidableEq, Repr

namespace CpuState

/-- The discriminants. -/
def toWord : CpuState → Nat
  | offline => 0
  | prepared => 1
  | starting => 2
  | parked => 3
  | online => 4
  | failed => 5

/-- The state of a word, if it has one. -/
def ofWord : Nat → Option CpuState
  | 0 => some offline
  | 1 => some prepared
  | 2 => some starting
  | 3 => some parked
  | 4 => some online
  | 5 => some failed
  | _ => none

@[simp] theorem ofWord_toWord (s : CpuState) : ofWord s.toWord = some s := by cases s <;> rfl

end CpuState

/-- Why a method refuses. -/
inductive ProtocolError where
  | invalidGeneration
  | invalidTransition
  | duplicateEntry
  deriving DecidableEq, Repr

/-! ## Methods -/

/-- A program over the words. -/
abbrev Ops := Prog fun _ : Cell => Nat

/-- A method that may fail, or come to `unreachable!`. -/
abbrev Attempt := ExceptT (Stop ProtocolError) Ops

/-- An atomic load. -/
def load (c : Cell) : Ops Nat := Atomic.load c

/-- An atomic exchange and whether it took place. -/
def compareExchange (c : Cell) (expected new : Nat) : Ops Bool :=
  Atomic.compareExchange c expected new

/-- `compare_exchange(..).map(|_| ()).map_err(|_| e)` -/
def exchange (c : Cell) (expected new : Nat) (e : ProtocolError) : Attempt Unit := do
  if (← compareExchange c expected new) then return ()
  else throw (.error e)

/-- The state, whatever the generation. -/
def lifecycle : Attempt CpuState := do
  match CpuState.ofWord (← load .state) with
  | some s => return s
  | none => throw .panicked

/-- The context of the CPU has been written. -/
def markPrepared : Attempt Unit :=
  exchange .state CpuState.offline.toWord CpuState.prepared.toWord .invalidTransition

/-- A generation other than 0 is published once. -/
def publish (generation : Nat) : Attempt Unit := do
  if generation = 0 then throw (.error .invalidGeneration)
  else if (← lifecycle) ≠ .prepared then throw (.error .invalidTransition)
  else exchange .ready 0 generation .invalidTransition

/-- Whether this generation is the published one. -/
def observeReady (generation : Nat) : Ops Bool := do
  if generation = 0 then return false
  else return (← load .ready) == generation

/-- Every method with a generation tests it first. -/
def check (generation : Nat) : Attempt Unit := do
  if (← observeReady generation) then return ()
  else throw (.error .invalidGeneration)

/-- The state, for this generation only. -/
def state (generation : Nat) : Attempt CpuState := do
  check generation
  lifecycle

/-- One step of the lifecycle. -/
def transition (generation : Nat) (source target : CpuState) : Attempt Unit := do
  check generation
  exchange .state source.toWord target.toWord .invalidTransition

/-- Startup is requested; the firmware may still fail. -/
def beginStart (generation : Nat) : Attempt Unit := transition generation .prepared .starting

/-- The CPU answers management requests. -/
def managementOnline (generation : Nat) : Attempt Unit := transition generation .parked .online

/-- The CPU waits in its holding pen. -/
def managementPark (generation : Nat) : Attempt Unit := transition generation .online .parked

/-- A failure that the CPU reports itself. -/
def managementFailed (generation : Nat) : Attempt Unit := do
  match ← state generation with
  | .parked => transition generation .parked .failed
  | .online => transition generation .online .failed
  | _ => throw (.error .invalidTransition)

/-- Returns the generation of the `EntryClaim`. -/
def claimEntry (generation : Nat) : Attempt Nat := do
  if (← state generation) ≠ .starting then throw (.error .invalidTransition)
  else
    exchange .entryClaimed 0 1 .duplicateEntry
    return generation

/-- `EntryClaim::park`, on a claim of this generation. -/
def park (claim : Nat) : Attempt Unit := transition claim .starting .parked

/-- `EntryClaim::fail`. -/
def fail (claim : Nat) : Attempt Unit := transition claim .starting .failed

/-- Whether the entry has its one claimant. -/
def entryIsClaimed (generation : Nat) : Attempt Bool := do
  check generation
  return (← load .entryClaimed) != 0

/-- `self.state(generation) == Ok(CpuState::Parked)`; the `unreachable!` of `state` stays one. -/
def hasParked (generation : Nat) : Attempt Bool := ExceptT.mk do
  match ← (state generation).run with
  | .ok s => return .ok (s == .parked)
  | .error (.error _) => return .ok false
  | .error .panicked => return .error .panicked

/-! ## The mailbox as a system -/

/-- The methods. -/
inductive Call where
  | lifecycle
  | markPrepared
  | publish (generation : Nat)
  | observeReady (generation : Nat)
  | state (generation : Nat)
  | beginStart (generation : Nat)
  | managementOnline (generation : Nat)
  | managementPark (generation : Nat)
  | managementFailed (generation : Nat)
  | claimEntry (generation : Nat)
  | park (claim : Nat)
  | fail (claim : Nat)
  | entryIsClaimed (generation : Nat)
  | hasParked (generation : Nat)
  deriving DecidableEq, Repr

/-- What they return. -/
inductive Reply where
  | state (r : Except (Stop ProtocolError) CpuState)
  | result (r : Except (Stop ProtocolError) Unit)
  | claim (r : Except (Stop ProtocolError) Nat)
  | checked (r : Except (Stop ProtocolError) Bool)
  | flag (b : Bool)

/-- The program of each method. -/
def code : Call → Ops Reply
  | .lifecycle => do return .state (← lifecycle.run)
  | .markPrepared => do return .result (← markPrepared.run)
  | .publish generation => do return .result (← (publish generation).run)
  | .observeReady generation => do return .flag (← observeReady generation)
  | .state generation => do return .state (← (state generation).run)
  | .beginStart generation => do return .result (← (beginStart generation).run)
  | .managementOnline generation => do return .result (← (managementOnline generation).run)
  | .managementPark generation => do return .result (← (managementPark generation).run)
  | .managementFailed generation => do return .result (← (managementFailed generation).run)
  | .claimEntry generation => do return .claim (← (claimEntry generation).run)
  | .park claim => do return .result (← (park claim).run)
  | .fail claim => do return .result (← (fail claim).run)
  | .entryIsClaimed generation => do return .checked (← (entryIsClaimed generation).run)
  | .hasParked generation => do return .checked (← (hasParked generation).run)

/-- The generations of the claims that the client holds. -/
abbrev Claims := List Nat

/-- `park` and `fail` take a claim; every other call may start at any time. -/
def start (claims : Claims) : Call → Option Claims
  | .park claim | .fail claim => if claim ∈ claims then some (claims.erase claim) else none
  | _ => some claims

/-- A successful `claim_entry` hands out a claim. -/
def finish (claims : Claims) : Reply → Claims
  | .claim (.ok claim) => claim :: claims
  | _ => claims

/-- Any number of CPUs, any generations, any time. -/
def system (Tid : Type) : System (fun _ : Cell => Nat) Tid Call Reply Claims where
  code := code
  start claims _ call := start claims call
  finish claims _ _ reply := finish claims reply

/-- A new mailbox that nobody has a claim on. -/
def initial (Tid : Type) : Shared (fun _ : Cell => Nat) Tid Call Reply Claims := ⟨new, [], []⟩

end Tvisor.SecondaryMailbox
