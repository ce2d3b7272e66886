/-
# Tvisor.Secondary -- the boot of all secondary CPUs

`start_all` is one linear procedure: claim the boot word, prepare and publish every required CPU,
freeze the tables, clean the caches, then release the CPUs one by one, wait for each, and look at
all of them once more before the boot word becomes `Ready`. Any CPU may call it, any number of
times, while secondaries move their mailboxes and write their failure masks and anyone may raise the
fatal flag.

What the hardware and the parts of the hypervisor outside this model answer is the `Plan` of a call:
the outcome of each hardware operation, the verdicts on the platform, on the mappings of release
cells, on the resources of each CPU and on the frozen tables, and the readings of the counter. The
printing of diagnostics is left out.
-/
import Tvisor.SecondaryBoot
import Tvisor.StartupPublication.Release

namespace Tvisor.Secondary

open Interleave Fallible CpuTopology SecondaryEntry StartupPublication SecondaryBoot
open StartupResources (Resources)

/-! ## What a boot is given -/

/-- What is fixed before the boot: the topology and the release cells, where discovery has found
them, and addresses of the image. -/
structure Platform where
  topology : Option (List CpuDescriptor)
  releaseCells : Option (List Nat)
  slotAddress : Nat → Nat
  configAddress : Nat
  entry : Nat

/-- What the environment answers in one call of `start_all`. CPUs are given by their numbers. -/
structure Plan where
  policy : El2Policy.HostTranslation
  /-- `validate_platform`: the entry contract and the ticks of the deadline. -/
  platform : Except (Halt String) (EntryContract × Nat)
  /-- `map_firmware_release_cell`. -/
  mapped : Nat → Bool
  /-- The part of `startup_resources` after it has read the identity of the slot. -/
  resources : Nat → Pcpu.CpuIdentity → Except String Resources
  /-- The validation of resources and stacks, under the lock of the tables. -/
  validated : Except String Unit
  line : Nat
  /-- Cleans, by the number of the region and the address; the regions of stacks come after the five
  shared ones. -/
  clean : Nat → Nat → Option Nat
  barrier : Option Nat
  release : Nat → Fate
  elapsed : Nat → Nat → Nat
  /-- The reads of `verify_release_set`, by the CPU just released and the cell. -/
  readback : Nat → Nat → Option Nat

def generation : Nat := 1

def maxPolls : Nat := 100000000

/-- `1..MAX_CPUS` -/
def secondaryIds : List Nat := List.range' 1 (maxCpus - 1)

variable (p : Platform)

def requiredMask : Nat :=
  match p.topology with
  | none => 0
  | some cpus =>
      match secondaryMask cpus with
      | .ok mask => mask
      | .error _ => 0

/-! ## Slots and views -/

section Slots

variable {ε ε' A : Type}

/-- `.map_err(f)?` -/
def mapErr (f : ε → ε') (x : Attempt ε A) : Attempt ε' A := do
  match ← x.run with
  | .ok a => return a
  | .error (.error e) => throw (.error (f e))
  | .error .panicked => throw .panicked
  | .error .looping => throw .looping

/-- `PcpuSlot::identity`. -/
def identity (id : Nat) : Attempt ε (Option Pcpu.CpuIdentity) := do
  match ← ((Pcpu.identity (p.slotAddress id)).run.embed (.slot id) :
      Ops (Except (Stop String) (Option Pcpu.CpuIdentity))) with
  | .ok identity => return identity
  | .error _ => throw .panicked

/-- `HOST_EL2_CONFIG.get()` -/
def hostConfig : Ops (Option El2Policy.HostEl2Config) := El2Policy.get.embed .config

def startup (id : Nat) : Attempt ε (Option StartupView) := do
  if maxCpus ≤ id then return none
  else
    match ← hostConfig with
    | none => return none
    | some config =>
        if !(← ready id generation) then return none
        else
          match ← identity p id with
          | none => return none
          | some identity =>
              return some { slot := id, identity, config, generation,
                            slotAddress := p.slotAddress id }

def publishStartup (id : Nat) (config : El2Policy.HostEl2Config) : Attempt String Unit := do
  match ← identity p id with
  | none => throw (.error "CPU slot not prepared")
  | some identity =>
      if identity.logicalId = 0 ∨ isHostConfig config = false then
        throw (.error "invalid startup configuration")
      else
        orElse "startup already published or invalid generation"
          (mailbox id (SecondaryMailbox.publish generation))

end Slots

variable (plan : Plan)

/-! ## Preparation -/

def startupResources (cpus : List CpuDescriptor) (id : Nat) : Attempt String Resources := do
  match validateSpinTableTarget cpus id with
  | .error _ => throw (.error "invalid release target")
  | .ok _ =>
      match ← identity p id with
      | none => throw (.error "secondary resources unavailable")
      | some identity => ofExcept (plan.resources id identity)

/-- The loop of `prepare_all_cpus`. The array of optional resources is the list of those that are
there, with their CPUs. -/
def prepareCpus (cpus : List CpuDescriptor) (required : Nat) (config : El2Policy.HostEl2Config) :
    List Nat → Attempt String (List (Nat × Resources))
  | [] => return []
  | id :: ids => do
      if required &&& 1 <<< id = 0 then prepareCpus cpus required config ids
      else
        match validateSpinTableTarget cpus id with
        | .error _ => throw (.error "invalid target")
        | .ok _ =>
            if plan.mapped id = false then throw (.error "release mapping failed")
            else
              let resources ← startupResources p plan cpus id
              publishStartup p id config
              let rest ← prepareCpus cpus required config ids
              return (id, resources) :: rest

def prepareAllCpus (required : Nat) : Attempt String (List (Nat × Resources)) := do
  match ← ((El2Policy.publish plan.policy).run.embed .config : Ops (Except String Unit)) with
  | .error e => throw (.error e)
  | .ok () =>
      match ← hostConfig with
      | none => throw (.error "host config unavailable")
      | some config =>
          match p.topology with
          | none => throw (.error "missing topology")
          | some cpus => prepareCpus p plan cpus required config secondaryIds

/-- The lock of the tables makes the check and the freeze one step. -/
def validateAndFreeze : Attempt String Unit := do
  match plan.validated with
  | .error e => throw (.error e)
  | .ok () =>
      if (← compareExchange .frozen 0 1) then return ()
      else throw (.error "startup resource validation/freeze failed")

def startupTablesFrozen : Ops Bool := do return (← load .frozen) != 0

/-! ## Publication -/

/-- The loop of `publish_all_startups` before any maintenance. -/
def validatePublications (cpus : List CpuDescriptor) (contract : EntryContract)
    (shared : Resources) : List (Nat × Resources) → Attempt String Unit
  | [] => return ()
  | (id, resource) :: rest => do
      if sharedRegions resource ≠ sharedRegions shared then
        throw (.error "inconsistent shared startup regions")
      else
        match ← startup p id with
        | none => throw (.error "missing startup")
        | some record =>
            mapErr (fun _ => "invalid publication")
              (validatePublication cpus id contract record resource plan.line p.configAddress)
            validatePublications cpus contract shared rest

def publishStacks : List (Nat × Resources) → Attempt String Unit
  | [] => return ()
  | (id, resource) :: rest => do
      mapErr (fun _ => "stack publication failed")
        (publishCpuStartup resource.stack plan.line (plan.clean (5 + id)))
      publishStacks rest

def publishAllStartups (contract : EntryContract) (resources : List (Nat × Resources)) :
    Attempt String Unit := do
  if (← bootStatus) ≠ .preparing then throw (.error "publication outside frozen preparation")
  else if !(← startupTablesFrozen) then throw (.error "publication outside frozen preparation")
  else
    match p.topology, resources with
    | none, _ => throw (.error "missing topology")
    | some _, [] => throw (.error "no startup resources")
    | some cpus, (id, shared) :: rest =>
        validatePublications p plan cpus contract shared ((id, shared) :: rest)
        mapErr (fun _ => "shared publication failed")
          (publishSharedStartup shared plan.line plan.clean)
        publishStacks plan ((id, shared) :: rest)
        let _ ← mapErr (fun _ => "publication completion failed") (perform .barrier plan.barrier)

/-! ## Release -/

def waitForSecondary (id ticks : Nat) : Attempt BootError Unit := do
  match ← startup p id with
  | none => throw (.error .invalidCheckpoint)
  | some record =>
      waitForParked (fun n => pure (plan.elapsed id n)) record id generation ticks maxPolls

/-- The loop of `verify_release_set`, after the release of a CPU. -/
def verifyCells (cpus : List CpuDescriptor) (released entry : Nat) (readback : Nat → Option Nat) :
    List Nat → Attempt BootError Unit
  | [] => return ()
  | cell :: cells => do
      let value ← mapErr (fun _ => BootError.readback) (perform (.read cell) (readback cell))
      match verifyReleaseValue cpus released cell entry value with
      | .error _ => throw (.error .readback)
      | .ok () => verifyCells cpus released entry readback cells

def verifyReleaseSet (cpus : List CpuDescriptor) (released : Nat) (readback : Nat → Option Nat) :
    Attempt BootError Unit := do
  match p.releaseCells with
  | none => throw (.error .readback)
  | some cells => verifyCells cpus released p.entry readback cells

/-- The loop of `release_and_wait`. -/
def releaseCpus (cpus : List CpuDescriptor) (required : Nat) (contract : EntryContract)
    (ticks : Nat) : List Nat → Attempt BootError Unit
  | [] => return ()
  | id :: ids => do
      if required &&& 1 <<< id = 0 then releaseCpus cpus required contract ticks ids
      else if (← hasFatal) then throw (.error .fatal)
      else
        match ← startup p id with
        | none => throw (.error .invalidCheckpoint)
        | some record =>
            let _ ← mapErr .release
              (releaseSecondary cpus contract record p.entry plan.line (plan.release id))
            waitForSecondary p plan id ticks
            verifyReleaseSet p cpus (← load .attempted) (plan.readback id)
            releaseCpus cpus required contract ticks ids

def releaseAndWait (required : Nat) (contract : EntryContract) (ticks : Nat) :
    Attempt BootError Unit := do
  if (← bootStatus) ≠ .releasing then throw (.error .invalidTransition)
  else if !(← startupTablesFrozen) then throw (.error .invalidTransition)
  else
    match p.topology with
    | none => throw (.error .invalidCheckpoint)
    | some cpus => releaseCpus p plan cpus required contract ticks secondaryIds

/-- The last look at all required CPUs. The fatal flag is an argument, so it is read first. -/
def verifyAllParked (required : Nat) : Attempt BootError Unit := do
  if (← load .attempted) ≠ required then throw (.error .invalidCheckpoint)
  else
    let fatal ← hasFatal
    SecondaryBoot.verifyAllParked required generation (startup p)
      (secondaryIds.filter fun id => required &&& 1 <<< id != 0) fatal

/-! ## The procedure -/

/-- The closure of `start_all`, between the claim of the boot word and its end. -/
def procedure : Attempt BootError Unit := do
  let (contract, ticks) ← mapErr .preparation (ExceptT.mk (pure plan.platform))
  let required := requiredMask p
  if required = 0 then throw (.error (.preparation "no eligible secondary"))
  else
    let resources ← mapErr .preparation (prepareAllCpus p plan required)
    mapErr .preparation (validateAndFreeze plan)
    mapErr .preparation (publishAllStartups p plan contract resources)
    beginRelease
    releaseAndWait p plan required contract ticks
    verifyAllParked p required

def startAll : Attempt BootError Unit := do
  beginBootOnce
  let result ← (liftM (procedure p plan : Ops (Except (Halt BootError) Unit)) :
    Attempt BootError (Except (Halt BootError) Unit))
  match result with
  | .ok () => finalizeBoot (.ok ())
  | .error (.error e) => finalizeBoot (.error e)
  | .error .panicked => throw .panicked
  | .error .looping => throw .looping

def ensureGuestAuthorized : Attempt BootError Unit := do
  let fatal ← hasFatal
  guestAuthorized fatal

/-! ## Any CPUs -/

/-- Boots and the question that precedes every guest, and what the CPUs do meanwhile: operations of
any mailbox and of any slot, checkpoint writes to a failure mask, and fatal conditions. -/
inductive Call where
  | startAll (plan : Plan)
  | ensureGuestAuthorized
  | mailbox (slot : Nat) (call : SecondaryMailbox.Call)
  | slot (id : Nat) (call : Pcpu.Call)
  | checkpoint (slot failures : Nat)
  | recordFatal

inductive Reply where
  | booted (r : Except (Halt BootError) Unit)
  | authorized (r : Except (Halt BootError) Unit)
  | mailbox (r : SecondaryMailbox.Reply)
  | slot (r : Pcpu.Reply)
  | done

def slotCode (id : Nat) (call : Pcpu.Call) : Ops Pcpu.Reply :=
  (Pcpu.code (p.slotAddress id) call).embed (.slot id)

def code : Call → Ops Reply
  | .startAll plan => do return .booted (← (startAll p plan).run)
  | .ensureGuestAuthorized => do return .authorized (← ensureGuestAuthorized.run)
  | .mailbox slot call => do return .mailbox (← mailboxCode slot call)
  | .slot id call => do return .slot (← slotCode p id call)
  | .checkpoint slot failures => do
      store (.failures slot) failures
      return .done
  | .recordFatal => do
      store .fatal 1
      return .done

/-- Every call may start at any time, on any CPU. -/
def system (Tid : Type) : System Val Tid Call Reply Unit where
  code := code p
  start _ _ _ := some ()
  finish _ _ _ _ := ()

end Tvisor.Secondary
