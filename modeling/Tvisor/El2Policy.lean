/-
# Tvisor.El2Policy -- the host's EL2 configuration

A `HostTranslation` is built by `new` only, which checks the root of the tables against the size of
physical addresses, so its fields carry that check. `HostEl2ConfigStorage` publishes the four
registers of one translation, once. A reader of `get` holds a reference and loads the fields
through it, so `get` loads them here.
-/
import Tvisor.Lib.Interleave

namespace Tvisor.El2Policy

open Interleave

/-! ## Translation -/

/-- `MAIR_EL2`: attribute 0 is normal memory, attribute 1 device memory. -/
def hostMair : Nat := (0xff <<< (0 * 8)) ||| (0x04 <<< (1 * 8))

/-- The reserved bits of `SCTLR_EL2` that are one. -/
def sctlrRes1 : Nat :=
  (3 <<< 28) ||| (3 <<< 22) ||| (1 <<< 18) ||| (1 <<< 16) ||| (1 <<< 11) ||| (3 <<< 4)

/-- `SCTLR_EL2`: MMU, caches and SP alignment checks on, writable memory never executable. -/
def hostSctlr : Nat :=
  sctlrRes1 ||| (1 <<< 0) ||| (1 <<< 2) ||| (1 <<< 3) ||| (1 <<< 12) ||| (1 <<< 19)

/-- Physical interrupts are routed to EL2, and all traps are clear. -/
def hostHcr : Nat := (1 <<< 31) ||| (1 <<< 4)

/-- The host profile with what a guest adds: VM, SWIO and TSC. -/
def guestHcr : Nat := hostHcr ||| (1 ||| (1 <<< 1) ||| (1 <<< 19))

/-- `TCR_EL2` for 4 KiB tables of 39-bit addresses and this range of physical addresses. -/
def hostTcr (paRange : Nat) : Nat :=
  ((1 <<< 31) ||| (1 <<< 23)) ||| (64 - 39) ||| (1 <<< 8) ||| (1 <<< 10) ||| (3 <<< 12) |||
    (paRange <<< 16)

/-- The sizes that a `PARange` names. -/
def paBits : List Nat := [32, 36, 40, 42, 44, 48]

/-- Why `new` refuses. -/
inductive PolicyError where
  | unsupportedPaRange
  | invalidRoot
  deriving DecidableEq, Repr

/-- The root of the tables and `TCR_EL2`. -/
structure HostTranslation where
  root : Nat
  tcr : Nat
  wellFormed : ∃ paRange bits, paBits[paRange]? = some bits ∧ root ≠ 0 ∧ root &&& 4095 = 0 ∧
    root >>> bits = 0 ∧ tcr = hostTcr paRange

namespace HostTranslation

/-- The root must be a page that the physical addresses reach. -/
def new (root paRange : Nat) : Except PolicyError HostTranslation :=
  match h : paBits[paRange]? with
  | none => .error .unsupportedPaRange
  | some bits =>
      if hroot : root ≠ 0 ∧ root &&& 4095 = 0 ∧ root >>> bits = 0 then
        .ok ⟨root, hostTcr paRange, paRange, bits, h, hroot.1, hroot.2.1, hroot.2.2, rfl⟩
      else .error .invalidRoot

/-- The same for every translation. -/
def mair (_ : HostTranslation) : Nat := hostMair

/-- The same for every translation. -/
def sctlr (_ : HostTranslation) : Nat := hostSctlr

end HostTranslation

/-! ## Storage -/

/-- The registers of a configuration. -/
inductive Field where
  | mair
  | tcr
  | root
  | sctlr
  deriving DecidableEq, Repr

/-- The words of the storage. -/
inductive Cell where
  | claimed
  | ready
  | config (x : Field)
  deriving DecidableEq, Repr

/-- The four registers that a secondary loads. -/
structure HostEl2Config where
  mair : Nat
  tcr : Nat
  root : Nat
  sctlr : Nat
  deriving DecidableEq, Repr

/-- One register by its name. -/
def HostEl2Config.get (config : HostEl2Config) : Field → Nat
  | .mair => config.mair
  | .tcr => config.tcr
  | .root => config.root
  | .sctlr => config.sctlr

/-- The registers of a translation. -/
def HostTranslation.config (policy : HostTranslation) : HostEl2Config :=
  { mair := policy.mair, tcr := policy.tcr, root := policy.root, sctlr := policy.sctlr }

/-- A program over the storage. -/
abbrev Ops := Prog fun _ : Cell => Nat

/-- An atomic load, or one through the reference. -/
def load (c : Cell) : Ops Nat := Atomic.load c

/-- An atomic store, or one field of the write. -/
def store (c : Cell) (v : Nat) : Ops Unit := Atomic.store c v

/-- `claimed.swap(true, ..)` -/
def swap (c : Cell) (v : Nat) : Ops Nat := Atomic.swap c v

/-- The first caller writes the fields and only then sets `ready`. -/
def publish (policy : HostTranslation) : ExceptT String Ops Unit := do
  if (← swap .claimed 1) ≠ 0 then throw "host config already published"
  else
    store (.config .mair) policy.mair
    store (.config .tcr) policy.tcr
    store (.config .root) policy.root
    store (.config .sctlr) policy.sctlr
    store .ready 1

/-- No field is loaded before `ready` was seen set. -/
def get : Ops (Option HostEl2Config) := do
  if (← load .ready) = 0 then return none
  else
    let mair ← load (.config .mair)
    let tcr ← load (.config .tcr)
    let root ← load (.config .root)
    let sctlr ← load (.config .sctlr)
    return some { mair, tcr, root, sctlr }

/-- The two methods. -/
inductive Call where
  | publish (policy : HostTranslation)
  | get

/-- What they return. -/
inductive Reply where
  | published (r : Except String Unit)
  | config (c : Option HostEl2Config)

/-- The program of each method. -/
def code : Call → Ops Reply
  | .publish policy => do return .published (← (publish policy).run)
  | .get => do return .config (← get)

/-- Any number of publishers and readers. -/
def system (Tid : Type) : System (fun _ : Cell => Nat) Tid Call Reply Unit where
  code := code
  start _ _ _ := some ()
  finish _ _ _ _ := ()

/-- `HostEl2ConfigStorage::new`. -/
def initial (Tid : Type) : Shared (fun _ : Cell => Nat) Tid Call Reply Unit := ⟨fun _ => 0, (), []⟩

end Tvisor.El2Policy
