/-
# Tvisor.StartupPublication -- releasing a secondary CPU

The boot CPU releases a secondary by storing the entry address in its release cell. The memory here
is what the boot procedure shares with the secondaries: the aggregate boot word, the mask of
attempted releases, the slots with their mailboxes, the host configuration. A hardware operation is
a store to the `bus`, with the operation and the outcome that the hardware gives it, so that the
history has every operation with its outcome; which outcome that is, is a parameter of the call.

`fetch_update` is a load and a compare-exchange that is repeated while it loses. The number of
exchanges that the model follows is a parameter of the call too; a call that has lost them all is
one that is still looping.
-/
import Tvisor.El2Policy
import Tvisor.Pcpu
import Tvisor.SecondaryEntry
import Tvisor.StartupResources

namespace Tvisor.StartupPublication

open Interleave Fallible Words CpuTopology SecondaryEntry SystemInfo
open StartupResources (Resources)

/-! ## State -/

inductive HardwareOp where
  | clean (address : Nat)
  | barrier
  | read (address : Nat)
  | store (address value : Nat)
  | sendEvent
  deriving DecidableEq, Repr

/-- An operation with its outcome: the value it returns, or none where it fails. -/
structure Io where
  op : HardwareOp
  outcome : Option Nat
  deriving DecidableEq, Repr

inductive Cell where
  | boot
  | attempted
  | frozen
  | fatal
  | bus
  | config (c : El2Policy.Cell)
  | slot (id : Nat) (c : Pcpu.Cell)
  | failures (id : Nat)
  deriving DecidableEq, Repr

/-- The bus holds the last operation, if there was one. -/
abbrev Val : Cell → Type
  | .bus => Option Io
  | _ => Nat

instance : ∀ c, DecidableEq (Val c)
  | .bus => inferInstanceAs (DecidableEq (Option Io))
  | .boot | .attempted | .frozen | .fatal | .config _ | .slot _ _ | .failures _ =>
      inferInstanceAs (DecidableEq Nat)

/-- The lifecycle word of a slot's mailbox. -/
abbrev lifecycleCell (slot : Nat) : Cell := .slot slot (.mailbox .state)

inductive PublicationError where
  | invalidLineSize
  | overflow
  | preconditions
  | io
  | nonzeroCell
  deriving DecidableEq, Repr

/-- How a call ends without a value: with an error, in `unreachable!`, or not within the exchanges
that the model follows. -/
inductive Halt (ε : Type) where
  | error (e : ε)
  | panicked
  | looping
  deriving DecidableEq, Repr

abbrev Ops := Prog Val

abbrev Attempt (ε : Type) := ExceptT (Halt ε) Ops

section Operations

variable {ε ε' A : Type}

def load (c : Cell) : Ops (Val c) := Atomic.load c

def store (c : Cell) (v : Val c) : Ops Unit := Atomic.store c v

def compareExchange (c : Cell) (expected new : Val c) : Ops Bool :=
  Atomic.compareExchange c expected new

/-- `.map_err(|_| e)?` on a call that may also panic. -/
def orElse (e : ε) (x : Ops (Except (Stop ε') A)) : Attempt ε A := do
  match ← x with
  | .ok a => return a
  | .error .panicked => throw .panicked
  | .error (.error _) => throw (.error e)

/-- `result?` on a result that was computed without a shared access. -/
def ofExcept : Except ε A → Attempt ε A
  | .ok a => pure a
  | .error e => throw (.error e)

/-- An operation of a slot's mailbox. -/
def mailbox (slot : Nat) (x : SecondaryMailbox.Attempt A) :
    Ops (Except (Stop SecondaryMailbox.ProtocolError) A) :=
  x.run.embed fun c => .slot slot (.mailbox c)

/-- `observe_ready` on a slot's mailbox. -/
def ready (slot generation : Nat) : Ops Bool :=
  (SecondaryMailbox.observeReady generation).embed fun c => .slot slot (.mailbox c)

end Operations

/-- Issue a hardware operation; the outcome is the hardware's. -/
def perform (op : HardwareOp) (outcome : Option Nat) : Attempt PublicationError Nat := do
  store .bus (some ⟨op, outcome⟩)
  match outcome with
  | some v => return v
  | none => throw (.error .io)

/-! ## Cache ranges and views -/

/-- `!line.is_power_of_two() || line < 8 || line > PAGE_SIZE` -/
def badLine (line : Nat) : Prop :=
  ¬ (line ≠ 0 ∧ line &&& (line - 1) = 0) ∨ line < 8 ∨ 4096 < line

instance (line : Nat) : Decidable (badLine line) := inferInstanceAs (Decidable (_ ∨ _ ∨ _))

def cacheRange (start finish line : Nat) : Except PublicationError (Nat × Nat) :=
  if badLine line then .error .invalidLineSize
  else if finish ≤ start then .error .preconditions
  else
    match checkedAdd finish (line - 1) with
    | none => .error .overflow
    | some rounded => .ok (start &&& bitNot (line - 1), rounded &&& bitNot (line - 1))

/-- A view of a slot: its identity, the shared configuration and the generation it was asked for.
The mailbox and the failure mask are read through it, in the slot. -/
structure StartupView where
  slot : Nat
  identity : Pcpu.CpuIdentity
  config : El2Policy.HostEl2Config
  generation : Nat
  slotAddress : Nat
  deriving DecidableEq, Repr

/-! ## Publication -/

def sharedRegions (r : Resources) : List PhysRegion :=
  [r.code, r.vectors, r.rodata, r.writable, r.tables]

/-- The registers are those of some host translation. -/
def isHostConfig (config : El2Policy.HostEl2Config) : Bool :=
  config.mair == El2Policy.hostMair && config.sctlr == El2Policy.hostSctlr &&
    match El2Policy.HostTranslation.new config.root ((config.tcr >>> 16) &&& 7) with
    | .ok policy => policy.tcr == config.tcr
    | .error _ => false

/-- `size_of::<PcpuSlot<()>>()` -/
def slotSize : Nat := 384

def checkRange (line : Nat) (region : PhysRegion) : Except PublicationError Unit := do
  let _ ← cacheRange region.start region.endAddr line

/-- `configAddress` is where the shared configuration lives. -/
def validatePublication (cpus : List CpuDescriptor) (id : Nat) (contract : EntryContract)
    (record : StartupView) (r : Resources) (line configAddress : Nat) :
    Attempt PublicationError Unit := do
  match validateSpinTableRelease cpus id contract with
  | .error _ => throw (.error .preconditions)
  | .ok cell =>
      match cpus.find? (fun cpu => cpu.logicalId == some id) with
      | none => throw (.error .preconditions)
      | some cpu =>
          let state ← orElse .preconditions
            (mailbox record.slot (SecondaryMailbox.state record.generation))
          if state ≠ .prepared ∨ isHostConfig record.config = false ∨
              record.slotAddress ≠ r.context.start ∨
              record.slotAddress ≠ r.slots.start + id * slotSize ∨
              configAddress ≠ r.config.start ∨ record.identity.logicalId ≠ id ∨
              record.identity.affinity ≠ cpu.affinity then throw (.error .preconditions)
          else if !(← ready record.slot record.generation) then throw (.error .preconditions)
          else if record.identity.context ≠ record.slotAddress ∨ record.config.root ≠ r.root ∨
              record.identity.stackBottom ≠ r.stack.bottom ∨
              record.identity.stackTop ≠ r.stack.top ∨ r.entry &&& 3 ≠ 0 ∨
              r.code.containsAddress r.entry = false then throw (.error .preconditions)
          else
            match PhysRegion.new cell 8, PhysRegion.fromBounds r.stack.bottom r.stack.top with
            | .error _, _ => throw (.error .overflow)
            | .ok release, stack =>
                if r.releasePage.containsRegion release = false then
                  throw (.error .preconditions)
                else
                  match stack with
                  | .error _ => throw (.error .preconditions)
                  | .ok stack =>
                      ofExcept ((sharedRegions r ++ [stack, r.releasePage]).forM (checkRange line))

/-- The loop of `clean_range`, for at most this many rounds. -/
def cleanLines (line finish : Nat) (outcome : Nat → Option Nat) :
    Nat → Nat → Attempt PublicationError Unit
  | 0, address => if address < finish then throw .looping else return ()
  | rounds + 1, address => do
      if address < finish then
        let _ ← perform (.clean address) (outcome address)
        match checkedAdd address line with
        | none => throw .panicked
        | some next => cleanLines line finish outcome rounds next
      else return ()

/-- The bound is one round for each line; no run of the loop reaches it with a line left. -/
def cleanRange (start finish line : Nat) (outcome : Nat → Option Nat) :
    Attempt PublicationError Unit := do
  match cacheRange start finish line with
  | .error e => throw (.error e)
  | .ok (first, last) => cleanLines line last outcome ((last - first) / line) first

/-- The outcome of a clean is given by the number of the region and the address. -/
def publishSharedStartup (r : Resources) (line : Nat) (outcome : Nat → Nat → Option Nat) :
    Attempt PublicationError Unit := do
  if r.writable.containsRegion r.slots = false ∨ r.writable.containsRegion r.config = false then
    throw (.error .preconditions)
  else
    ofExcept ((sharedRegions r).forM (checkRange line))
    (sharedRegions r).zipIdx.forM fun (region, index) =>
      cleanRange region.start region.endAddr line (outcome index)

def publishCpuStartup (stack : Pcpu.StackLayout) (line : Nat) (outcome : Nat → Option Nat) :
    Attempt PublicationError Unit := do
  if (Pcpu.stackLayout stack.guardStart).toOption ≠ some stack then throw (.error .preconditions)
  else cleanRange stack.bottom stack.top line outcome

/-- What a release cell has to hold once these releases were attempted. -/
def verifyReleaseValue (cpus : List CpuDescriptor) (attempted cell entry value : Nat) :
    Except PublicationError Unit :=
  match secondaryMask cpus with
  | .error _ => .error .preconditions
  | .ok required =>
      if attempted &&& bitNot required ≠ 0 then .error .preconditions
      else
        let released := cpus.any fun cpu =>
          (match cpu.logicalId with
            | some id => attempted &&& 1 <<< id != 0
            | none => false) && cpu.startup == .spinTable cell
        if value = if released then entry else 0 then .ok () else .error .preconditions

/-! ## Release -/

/-- The part of `release_secondary` before its first shared access: the release cell. -/
def releaseCell (cpus : List CpuDescriptor) (contract : EntryContract) (record : StartupView)
    (entry line : Nat) : Except PublicationError Nat :=
  match validateSpinTableRelease cpus record.identity.logicalId contract with
  | .error _ => .error .preconditions
  | .ok cell =>
      match cpus.find? (fun cpu => cpu.logicalId == some record.identity.logicalId) with
      | none => .error .preconditions
      | some cpu =>
          match checkedAdd cell 8 with
          | none => .error .overflow
          | some finish =>
              match cacheRange cell finish line with
              | .error e => .error e
              | .ok _ =>
                  if entry = 0 ∨ entry &&& 3 ≠ 0 ∨ record.identity.affinity ≠ cpu.affinity ∨
                      record.identity.context ≠ record.slotAddress then .error .preconditions
                  else .ok cell

/-- The exchanges of `fetch_update`, each with the mask as last seen. -/
def setAttempted (bit : Nat) : Nat → Nat → Attempt PublicationError Unit
  | 0, _ => throw .looping
  | tries + 1, mask => do
      if mask &&& bit ≠ 0 then throw (.error .preconditions)
      else if (← compareExchange .attempted mask (mask ||| bit)) then return ()
      else setAttempted bit tries (← load .attempted)

/-- What the environment decides about one release: the outcome of each hardware operation, in the
order in which they are issued, and how often the exchange of the mask is tried. -/
structure Fate where
  io : Nat → Option Nat
  tries : Nat

def releaseSecondary (cpus : List CpuDescriptor) (contract : EntryContract) (record : StartupView)
    (entry line : Nat) (fate : Fate) : Attempt PublicationError Nat := do
  let bit := 1 <<< record.identity.logicalId
  match releaseCell cpus contract record entry line with
  | .error e => throw (.error e)
  | .ok cell =>
      let state ← orElse .preconditions
        (mailbox record.slot (SecondaryMailbox.state record.generation))
      if state ≠ .prepared then throw (.error .preconditions)
      else if (← load .attempted) &&& bit ≠ 0 then throw (.error .preconditions)
      else if (← perform (.read cell) (fate.io 0)) ≠ 0 then throw (.error .nonzeroCell)
      else
        orElse .preconditions (mailbox record.slot (SecondaryMailbox.beginStart record.generation))
        let _ ← perform .barrier (fate.io 1)
        if (← perform (.read cell) (fate.io 2)) ≠ 0 then throw (.error .nonzeroCell)
        else
          setAttempted bit fate.tries (← load .attempted)
          let timestamp ← perform (.store cell entry) (fate.io 3)
          let _ ← perform (.clean (cell &&& bitNot (line - 1))) (fate.io 4)
          let _ ← perform .barrier (fate.io 5)
          let _ ← perform .sendEvent (fate.io 6)
          return timestamp

end Tvisor.StartupPublication
