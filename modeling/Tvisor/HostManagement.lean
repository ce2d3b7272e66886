/-
# Tvisor.HostManagement -- the management interrupt

`src/management.rs` on top of the request channels. `dispatch` runs with an acknowledged token: it
finds the sender of the doorbell, takes its request, does what the request asks, completes the
token, looks whether the virtual interface and the interrupt routing are as before, and only then
answers. `current_irq` is the handler of interrupts taken at EL2; `stop_if_requested` halts the
CPU.

The methods of channels, mailboxes and the update gate are those of their own modules, on the words
of the channel, slot or gate in question. Registers are words that the hardware may change. Counters
that nothing but diagnostics reads are left out, and with them the two flags of `dispatch` that only
choose a counter.
-/
import Tvisor.CpuTopology
import Tvisor.El2Policy
import Tvisor.Gicv2.Targets
import Tvisor.Management
import Tvisor.SecondaryMailbox
import Tvisor.TlbUpdate

namespace Tvisor.HostManagement

open Interleave Fallible CpuTopology Gicv2
open Management (Operation Reply Request)

/-! ## Memory -/

/-- The fields of `CpuRuntime` that handlers use. -/
inductive CpuCell where
  | target
  | ready
  | stopped
  | generation
  | halted
  deriving DecidableEq, Repr

inductive Cell where
  | gic (r : Register)
  | hcrEl2
  | tpidrEl2
  | cpu (id : Nat) (c : CpuCell)
  | channel (source target : Nat) (c : Management.Cell)
  | mailbox (id : Nat) (c : SecondaryMailbox.Cell)
  | updates (c : TlbUpdate.Cell)
  | job (phase id : Nat)
  | jobsStarted (phase : Nat)
  | fatal
  deriving DecidableEq, Repr

abbrev Val : Cell → Type
  | .gic _ => UInt32
  | _ => Nat

instance decidableEqVal : ∀ c, DecidableEq (Val c)
  | .gic _ => inferInstanceAs (DecidableEq UInt32)
  | .hcrEl2 | .tpidrEl2 | .cpu _ _ | .channel _ _ _ | .mailbox _ _ | .updates _ | .job _ _
  | .jobsStarted _ | .fatal => inferInstanceAs (DecidableEq Nat)

abbrev Ops := Prog Val

/-- How a handler ends without returning. -/
inductive Fault where
  | panicked
  | halted
  deriving DecidableEq, Repr

abbrev Handler := ExceptT Fault Ops

/-- What is fixed in an image: where the contexts of the CPUs are, which CPUs are required, and the
features it is built with. -/
structure Image where
  contextPtr : Nat → Nat
  requiredMask : Nat
  allCoreStressTest : Bool
  tlbUpdateTest : Bool

section Operations

variable {A : Type}

def load (c : Cell) : Handler (Val c) := liftM (Atomic.load c : Ops (Val c))

def store (c : Cell) (v : Val c) : Handler Unit := liftM (Atomic.store c v : Ops Unit)

def onGic (x : Gicv2.Ops A) : Handler A := liftM (x.embed .gic : Ops A)

def onUpdates (x : TlbUpdate.Ops A) : Handler A := liftM (x.embed .updates : Ops A)

def onChannel (source target : Nat) (x : Management.Ops A) : Handler A :=
  liftM (x.embed (.channel source target) : Ops A)

/-- A method of a mailbox: its error is a result, its `unreachable!` a panic. -/
def onMailbox (id : Nat) (x : SecondaryMailbox.Attempt A) :
    Handler (Except SecondaryMailbox.ProtocolError A) := do
  match ← (x.run.embed (.mailbox id) : Ops (Except (Stop SecondaryMailbox.ProtocolError) A)) with
  | .ok a => return .ok a
  | .error (.error e) => return .error e
  | .error .panicked => throw .panicked

end Operations

/-! ## Identification -/

/-- `PcpuSlot::is_prepared` -/
def isPrepared (id : Nat) : Handler Bool := do
  match ← onMailbox id SecondaryMailbox.lifecycle with
  | .ok state => return state != .offline
  | .error _ => return false

def findCurrent (image : Image) (pointer : Nat) : List Nat → Handler (Option Nat)
  | [] => return none
  | id :: ids => do
      if image.contextPtr id ≠ pointer then findCurrent image pointer ids
      else if (← isPrepared id) then return some id
      else findCurrent image pointer ids

def currentId (image : Image) : Handler (Option Nat) := do
  findCurrent image (← load .tpidrEl2) (List.range maxCpus)

def checkRouting : Handler (Except String Nat) := do
  let hcr ← load .hcrEl2
  if hcr ≠ El2Policy.hostHcr ∧ hcr ≠ El2Policy.guestHcr then
    return .error "invalid management HCR profile"
  else return .ok hcr

/-- The first ready CPU with this interface as its target. -/
def findInterface (interface : UInt8) : List Nat → Handler (Option Nat)
  | [] => return none
  | other :: rest => do
      if (← load (.cpu other .ready)) = 0 then findInterface interface rest
      else if (← load (.cpu other .target)) = 1 <<< interface.toNat then return some other
      else findInterface interface rest

def findSource (ack : InterruptAck) : Handler (Option Nat) :=
  match ack.source with
  | none => return none
  | some interface => findInterface interface (List.range maxCpus)

/-! ## Requests -/

/-- The request that the source has for this CPU, if there is one. -/
def takeRequest (id : Nat) : Option Nat → Handler (Option (Nat × Request))
  | none => return none
  | some source => do
      if source = id then return none
      else
        match ← onChannel source id Management.take with
        | .ok request => return request.map (source, ·)
        | .error _ => throw .panicked

def workerTest (count : Nat) : UInt64 :=
  (List.range count).foldl
    (fun value i => ((value <<< 7) ||| (value >>> 57)) ^^^
      (UInt64.ofNat i * 0x9e3779b97f4a7c15)) 0x114

def jobMembers (image : Image) (phase : Nat) : Nat :=
  image.requiredMask ||| if phase = 0 then 1 else 0

/-- `all_core_test::submit` -/
def submitJob (image : Image) (id phase : Nat) : Handler Bool := do
  if 2 ≤ phase then return false
  else if id = 0 ∨ 4 ≤ id then return false
  else if jobMembers image phase &&& (1 <<< id) = 0 then return false
  else if (← load (.jobsStarted phase)) = 0 then return false
  else liftM (Atomic.compareExchange (Cell.job phase id) (0 : Nat) (1 : Nat) : Ops Bool)

/-- The arm of every operation that is not admitted. -/
def refused : Reply := { value := 0, failed := true }

/-- `finish_membership_change`, with its assertion. -/
def finishMembershipChange : Handler Unit := do
  if (← onUpdates TlbUpdate.finishMembershipChange) then return () else throw .panicked

def managementPark (id : Nat) : Handler (Except SecondaryMailbox.ProtocolError Unit) := do
  onMailbox id (SecondaryMailbox.managementPark (← load (.cpu id .generation)))

/-- A CPU that has parked already stays parked. -/
def parkOnce (id : Nat) : Handler (Except SecondaryMailbox.ProtocolError Unit) := do
  match ← onMailbox id SecondaryMailbox.lifecycle with
  | .ok .parked => return .ok ()
  | _ => managementPark id

/-- The body of the `Park` arm, inside the membership gate. -/
def park (id : Nat) : Handler Reply := do
  let result ← parkOnce id
  finishMembershipChange
  return { value := 0, failed := !result.isOk }

/-- The body of the `FatalStop` arm. -/
def fatalStop (id : Nat) : Handler Reply := do
  store (.cpu id .stopped) (1 : Nat)
  finishMembershipChange
  return { value := 0, failed := false }

/-- `match request.operation`. A guard that fails has had its effect, and the request is refused. -/
def perform (image : Image) (id : Nat) (request : Request) : Handler Reply :=
  match request.operation with
  | .ping => return { value := request.argument, failed := false }
  | .workerTest =>
      if id ≠ 0 ∧ request.argument ≤ 4096 then
        return { value := (workerTest request.argument).toNat, failed := false }
      else return refused
  | .runTest => do
      if image.allCoreStressTest = true ∧ id ≠ 0 then
        let admitted ← submitJob image id request.argument
        return { value := request.argument, failed := !admitted }
      else return refused
  | .tlbQuiesce => do
      if image.tlbUpdateTest = true ∧ id ≠ 0 then
        let admitted ← onUpdates (TlbUpdate.admitRequest id request.argument).run
        return { value := request.argument, failed := !admitted.isOk }
      else return refused
  | .park => do
      if id = 0 then return refused
      else if (← onUpdates TlbUpdate.tryMembershipChange) then park id
      else return refused
  | .fatalStop => do
      if (← onUpdates TlbUpdate.tryMembershipChange) then fatalStop id else return refused

/-! ## Dispatch -/

def complete (ack : InterruptAck) : Handler Unit := onGic (completeHostInterrupt ack)

/-- The virtual interface and the routing are as they were. -/
def preserved (virtualBefore : UInt32 × UInt32 × UInt32) (routingBefore : Except String Nat) :
    Handler Bool := do
  let virtualAfter ← onGic virtualView
  if virtualBefore ≠ virtualAfter then return false
  else
    match routingBefore with
    | .error _ => return false
    | .ok before =>
        match ← checkRouting with
        | .error _ => return false
        | .ok after => return before == after

/-- The end of `dispatch`, after the token has been completed. -/
def answer (id source : Nat) (request : Request) (reply : Reply) (unchanged : Bool) :
    Handler Bool := do
  if unchanged then
    onChannel source id (Management.acknowledge request reply)
    return true
  else
    store (.cpu id .stopped) (1 : Nat)
    onChannel source id (Management.acknowledge request refused)
    return false

def dispatch (image : Image) (ack : InterruptAck) : Handler Bool := do
  match ← currentId image with
  | none =>
      complete ack
      return false
  | some id =>
      let virtualBefore ← onGic virtualView
      let routingBefore ← checkRouting
      let source ← findSource ack
      match ← takeRequest id source with
      | none =>
          complete ack
          -- A duplicate or coalesced doorbell needs no reply.
          return source.isSome
      | some (sender, request) =>
          let reply ← perform image id request
          complete ack
          let unchanged ← preserved virtualBefore routingBefore
          answer id sender request reply unchanged

/-- `current_id().is_some_and(|id| stopped) || has_fatal()` -/
def stopRequested (image : Image) : Handler Bool := do
  match ← currentId image with
  | none => return (← load .fatal) != (0 : Nat)
  | some id =>
      if (← load (.cpu id .stopped)) ≠ (0 : Nat) then return true
      else return (← load .fatal) != (0 : Nat)

/-- An Online secondary parks before it halts. -/
def parkOnline (id : Nat) : Handler Unit := do
  if id = 0 then return ()
  else
    match ← onMailbox id SecondaryMailbox.lifecycle with
    | .ok .online =>
        let _ ← managementPark id
        return ()
    | _ => return ()

def stopIfRequested (image : Image) : Handler Unit := do
  if (← stopRequested image) then
    match ← currentId image with
    | none => throw .halted
    | some id =>
        parkOnline id
        store (.cpu id .halted) (1 : Nat)
        throw .halted
  else return ()

/-- What `current_irq` does with a token. -/
def currentAck (image : Image) (ack : InterruptAck) : Handler Bool := do
  if ack.intid ≠ managementSgi then
    complete ack
    return false
  else
    let handled ← dispatch image ack
    stopIfRequested image
    return handled

/-- Interrupts taken at EL2. Without a GIC there is nothing to acknowledge. -/
def currentIrq (image : Image) (gicPresent : Bool) : Handler Bool := do
  if gicPresent = false then return false
  else
    match ← onGic acknowledge with
    | none => return true
    | some ack => currentAck image ack

/-! ## The lifecycle snapshot -/

def target (id : Nat) : Handler (Option CpuTarget) := do
  if (← load (.cpu id .ready)) = (0 : Nat) then return none
  else return (CpuTarget.new (.ofNat (← load (.cpu id .target)))).toOption

/-- The loop of `physical_smp_masks`. -/
def smpMasks : List Nat → Nat × Nat → Handler (Nat × Nat)
  | [], masks => return masks
  | id :: ids, (online, parked) => do
      if (← target id).isNone then smpMasks ids (online, parked)
      else if (← load (.cpu id .stopped)) ≠ (0 : Nat) then smpMasks ids (online, parked)
      else
        match ← onMailbox id SecondaryMailbox.lifecycle with
        | .ok .online => smpMasks ids (online ||| 1 <<< id, parked)
        | .ok .parked =>
            smpMasks ids (online ||| 1 <<< id, if id = 0 then parked else parked ||| 1 <<< id)
        | _ => smpMasks ids (if id = 0 then online ||| 1 else online, parked)

/-- The masks of the online and of the parked CPUs. -/
def physicalSmpMasks : Handler (Nat × Nat) := smpMasks (List.range maxCpus) (0, 0)

/-- The end of `park_workers`, where the masks are taken inside the membership gate. -/
def snapshot : Handler (Option (Nat × Nat)) := do
  if (← onUpdates TlbUpdate.tryMembershipChange) then
    let masks ← physicalSmpMasks
    finishMembershipChange
    return some masks
  else return none

end Tvisor.HostManagement
