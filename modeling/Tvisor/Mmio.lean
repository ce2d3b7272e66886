/-
# Tvisor.Mmio -- trapped stage-2 accesses and the virtual devices behind them

A guest access to a device window traps with a syndrome. `decodeDataAbort` rebuilds the access from
it, and `MmioDispatcher.emulate` hands it to the virtual GIC distributor or the virtual PL011 and
writes a read result back to the target register. Machine words are `UInt8`, `UInt32` and `UInt64`,
casts truncate as the source's do, and an array index that is out of bounds panics.
-/
import Tvisor.Lib.Fallible
import Tvisor.Lib.Ring

namespace Tvisor

open Fallible

/-! ## The guest's device windows -/

/-- A region of guest addresses: machine words where a register access is decoded, and numbers where
regions are laid out. -/
structure IpaRegion (Word : Type) where
  start : Word
  size : Word
  deriving DecidableEq, Repr

namespace IpaRegion

/-- `end`, where it is a word. -/
def endIpa (r : IpaRegion UInt64) : Option UInt64 :=
  if r.start.toNat + r.size.toNat < 2 ^ 64 then some (r.start + r.size) else none

/-- `ipa.checked_sub(start).filter(|offset| *offset < size)` -/
def offset (r : IpaRegion UInt64) (ipa : UInt64) : Option UInt64 :=
  if r.start ≤ ipa then
    if ipa - r.start < r.size then some (ipa - r.start) else none
  else none

end IpaRegion

/-- The guest's view of the GIC distributor. -/
def guestGicd : IpaRegion UInt64 := ⟨0x08000000, 0x10000⟩

/-- The guest's UART. -/
def guestPl011 : IpaRegion UInt64 := ⟨0x09000000, 4096⟩

namespace Mmio

/-! ## Decoding -/

/-- The syndrome describes the instruction. -/
def esrIsv : UInt32 := (1 : UInt32) <<< 24
def esrSasShift : UInt32 := 22
/-- The load sign-extends. -/
def esrSse : UInt32 := (1 : UInt32) <<< 21
def esrSrtShift : UInt32 := 16
/-- The register is 64 bits wide. -/
def esrSf : UInt32 := (1 : UInt32) <<< 15
/-- The access is a write. -/
def esrWnr : UInt32 := (1 : UInt32) <<< 6

/-- Why a Data Abort cannot be emulated. -/
inductive MmioDecodeError where
  | instructionSyndromeInvalid
  | signExtendingRead
  | invalidAccessSize
  deriving DecidableEq, Repr

/-- A load or store reconstructed from a stage-2 Data Abort syndrome. -/
structure MmioAccess where
  ipa : UInt64
  isWrite : Bool
  width : UInt8
  register : UInt8
  registerIs64bit : Bool
  deriving DecidableEq, Repr

/-- The instruction-specific syndrome of an ESR. -/
def issOf (esrEl2 : UInt64) : UInt32 := esrEl2.toUInt32 &&& 0x01ffffff

/-- The access size that the syndrome encodes. -/
def widthOf (sas : UInt32) : Except MmioDecodeError UInt8 :=
  if sas = 0 then .ok 1
  else if sas = 1 then .ok 2
  else if sas = 2 then .ok 4
  else if sas = 3 then .ok 8
  else .error .invalidAccessSize

/-- The access that a Data Abort stands for. -/
def decodeDataAbort (esrEl2 ipa : UInt64) : Except MmioDecodeError MmioAccess :=
  let iss := issOf esrEl2
  if iss &&& esrIsv = 0 then .error .instructionSyndromeInvalid
  else
    match widthOf ((iss >>> esrSasShift) &&& 0x3) with
    | .error e => .error e
    | .ok width =>
        let isWrite := iss &&& esrWnr != 0
        if !isWrite && iss &&& esrSse != 0 then .error .signExtendingRead
        else .ok {
          ipa
          isWrite
          width
          register := ((iss >>> esrSrtShift) &&& 0x1f).toUInt8
          registerIs64bit := iss &&& esrSf != 0 }

/-- Both devices take accesses of one, two and four bytes. -/
def Supported (width : UInt8) : Prop := width = 1 ∨ width = 2 ∨ width = 4

instance (width : UInt8) : Decidable (Supported width) :=
  inferInstanceAs (Decidable (_ ∨ _ ∨ _))

/-! ## The virtual PL011 -/

/-- Why the PL011 refuses an access. -/
inductive Pl011Error where
  | unsupportedWidth (width : UInt8)
  | unsupportedRead (offset : UInt64)
  | unsupportedWrite (offset : UInt64)
  deriving DecidableEq, Repr

/-- A value read, or the byte that a write transmits. -/
inductive Pl011Result where
  | read (value : UInt64)
  | write (byte : Option UInt8)
  deriving DecidableEq, Repr

/-- The registers that the model tells apart; every other offset is `other`. -/
inductive Pl011Register where
  | dr
  | fr
  | ibrd
  | fbrd
  | lcrH
  | cr
  | imsc
  | ris
  | mis
  | icr
  | pid0
  | pid1
  | pid2
  | pid3
  | cid0
  | cid1
  | cid2
  | cid3
  | other
  deriving DecidableEq, Repr

/-- The register at an offset of the window. -/
def Pl011Register.ofOffset (offset : UInt64) : Pl011Register :=
  if offset = 0x00 then dr
  else if offset = 0x18 then fr
  else if offset = 0x24 then ibrd
  else if offset = 0x28 then fbrd
  else if offset = 0x2c then lcrH
  else if offset = 0x30 then cr
  else if offset = 0x38 then imsc
  else if offset = 0x3c then ris
  else if offset = 0x40 then mis
  else if offset = 0x44 then icr
  else if offset = 0xfe0 then pid0
  else if offset = 0xfe4 then pid1
  else if offset = 0xfe8 then pid2
  else if offset = 0xfec then pid3
  else if offset = 0xff0 then cid0
  else if offset = 0xff4 then cid1
  else if offset = 0xff8 then cid2
  else if offset = 0xffc then cid3
  else other

/-- The receive interrupt. -/
def rxim : UInt32 := (1 : UInt32) <<< 4
/-- The transmit FIFO is empty, always. -/
def frTxReady : UInt64 := (1 : UInt64) <<< 7
/-- The receive FIFO is empty. -/
def frRxfe : UInt64 := (1 : UInt64) <<< 4

/-- The receive FIFO is a ring buffer of 64 bytes. -/
structure VirtualPl011 where
  imsc : UInt32
  rx : Vector UInt8 64
  rxHead : Nat
  rxLen : Nat
  rxHead_lt : rxHead < 64
  rxLen_le : rxLen ≤ 64
  deriving DecidableEq

namespace VirtualPl011

def default : VirtualPl011 where
  imsc := 0
  rx := Vector.replicate 64 0
  rxHead := 0
  rxLen := 0
  rxHead_lt := by decide
  rxLen_le := by decide

/-- A byte for the guest is refused when the FIFO is full. -/
def enqueueRx {ε : Type} (byte : UInt8) : EStateM (Stop ε) VirtualPl011 Bool := do
  let d ← get
  if h : d.rxLen = 64 then return false
  else
    let tail := (d.rxHead + d.rxLen) % 64
    let rx ← writeAt d.rx tail byte
    set { d with rx, rxLen := d.rxLen + 1, rxLen_le := Nat.lt_of_le_of_ne d.rxLen_le h }
    return true

/-- The oldest byte; an empty FIFO reads as zero. -/
def dequeueRx {ε : Type} : EStateM (Stop ε) VirtualPl011 UInt8 := do
  let d ← get
  if d.rxLen = 0 then return 0
  else
    let byte ← readAt d.rx d.rxHead
    set { d with
      rxHead := (d.rxHead + 1) % 64
      rxLen := d.rxLen - 1
      rxHead_lt := Nat.mod_lt _ (by decide)
      rxLen_le := Nat.le_trans (Nat.sub_le _ _) d.rxLen_le }
    return byte

/-- There is a byte, and its interrupt is not masked. -/
def rxIrqPending (d : VirtualPl011) : Bool := d.rxLen != 0 && d.imsc &&& rxim != 0

/-- A read of any register but the data register, which changes nothing. -/
def status (d : VirtualPl011) : Pl011Register → UInt64
  | .fr => frTxReady ||| if d.rxLen = 0 then frRxfe else 0
  | .imsc => d.imsc.toUInt64
  | .ris => if d.rxLen ≠ 0 then rxim.toUInt64 else 0
  | .mis => if d.rxIrqPending then rxim.toUInt64 else 0
  | .pid0 => 0x11
  | .pid1 => 0x10
  | .pid2 => 0x04
  | .pid3 => 0x00
  | .cid0 => 0x0d
  | .cid1 => 0xf0
  | .cid2 => 0x05
  | .cid3 => 0xb1
  | _ => 0

def access (offset : UInt64) (isWrite : Bool) (width : UInt8) (value : UInt64) :
    EStateM (Stop Pl011Error) VirtualPl011 Pl011Result := do
  if ¬ Supported width then throw (.error (.unsupportedWidth width))
  else if isWrite then
    match Pl011Register.ofOffset offset with
    | .dr => return .write (some value.toUInt8)
    -- Linux earlycon may program these before transmitting.
    | .ibrd | .fbrd | .lcrH | .cr | .icr => return .write none
    | .imsc =>
        modify fun d => { d with imsc := value.toUInt32 }
        return .write none
    | _ => return .write none
  else
    match Pl011Register.ofOffset offset with
    | .dr => return .read (← dequeueRx).toUInt64
    | register => return .read ((← get).status register)

end VirtualPl011

/-! ## The virtual GIC distributor -/

/-- Only the enable bit is kept. -/
structure VirtualGicDistributor where
  ctlr : UInt32
  deriving DecidableEq

namespace VirtualGicDistributor

def default : VirtualGicDistributor := ⟨0⟩

/-- What a register reads as. Banks that keep no state, and every register not named, read as
zero. -/
def status (d : VirtualGicDistributor) (offset : UInt64) : UInt64 :=
  if offset = 0x000 then d.ctlr.toUInt64
  else if offset = 0x004 then 1
  else if offset = 0x008 then 0x02000043
  -- Every byte of this bank targets the only guest vCPU.
  else if 0x800 ≤ offset ∧ offset ≤ 0x8ff then 0x01010101
  else 0

def access (offset : UInt64) (isWrite : Bool) (width : UInt8) (value : UInt64) :
    EStateM (Stop Unit) VirtualGicDistributor UInt64 := do
  if ¬ Supported width then throw (.error ())
  else if isWrite then
    if offset = 0x000 then
      set (⟨value.toUInt32 &&& 1⟩ : VirtualGicDistributor)
      return 0
    else return 0
  else return (← get).status offset

end VirtualGicDistributor

/-! ## The dispatcher -/

/-- Why an access is not emulated. -/
inductive MmioEmulationError where
  | unmappedIpa (ipa : UInt64)
  | pl011 (error : Pl011Error)
  | gicDistributor
  deriving DecidableEq, Repr

/-- The devices of the guest. -/
structure MmioDispatcher where
  pl011 : VirtualPl011
  gicd : VirtualGicDistributor
  deriving DecidableEq

def MmioDispatcher.default : MmioDispatcher := ⟨.default, .default⟩

/-- `x0` to `x30` -/
abbrev Registers := Vector UInt64 31

/-- What `emulate` may change: the devices and the general registers. -/
structure Bus where
  dispatcher : MmioDispatcher
  registers : Registers

/-- A step of the dispatcher; a device error keeps its cause. -/
abbrev Emulation := EStateM (Stop MmioEmulationError) Bus

namespace MmioDispatcher

/-- A byte from the host console. -/
def enqueuePl011Rx {ε : Type} (byte : UInt8) : EStateM (Stop ε) MmioDispatcher Bool :=
  zoom MmioDispatcher.pl011 (fun d pl011 => { d with pl011 }) (VirtualPl011.enqueueRx byte)

/-- The UART asks for its interrupt. -/
def pl011RxIrqPending (d : MmioDispatcher) : Bool := d.pl011.rxIrqPending

/-- The value that the access takes from its register; register 31 is the zero register. -/
def sourceValue (access : MmioAccess) : Emulation UInt64 := do
  if access.register = 31 then return 0
  else readAt (← get).registers access.register.toNat

/-- The result of a read goes to the target register, as a word of its size. -/
def writeBack (access : MmioAccess) (result : UInt64) : Emulation Unit := do
  if access.register ≠ 31 then
    let value := if access.registerIs64bit then result else result.toUInt32.toUInt64
    let registers ← writeAt (← get).registers access.register.toNat value
    modify fun bus => { bus with registers }
  else return ()

/-- An access to the distributor, on the bus. -/
def onGicd (x : EStateM (Stop Unit) VirtualGicDistributor UInt64) : Emulation UInt64 :=
  mapError (mapStop fun _ => .gicDistributor)
    (zoom (fun bus => bus.dispatcher.gicd)
      (fun bus gicd => { bus with dispatcher := { bus.dispatcher with gicd } }) x)

/-- An access to the PL011, on the bus. -/
def onPl011 (x : EStateM (Stop Pl011Error) VirtualPl011 Pl011Result) : Emulation Pl011Result :=
  mapError (mapStop .pl011)
    (zoom (fun bus => bus.dispatcher.pl011)
      (fun bus pl011 => { bus with dispatcher := { bus.dispatcher with pl011 } }) x)

/-- Emulates one access. A returned byte is forwarded to the host console. -/
def emulate (access : MmioAccess) : Emulation (Option UInt8) := do
  match guestGicd.offset access.ipa with
  | some offset =>
      let value ← sourceValue access
      let result ← onGicd (VirtualGicDistributor.access offset access.isWrite access.width value)
      (if !access.isWrite then writeBack access result else pure ())
      return none
  | none =>
      match guestPl011.offset access.ipa with
      | none => throw (.error (.unmappedIpa access.ipa))
      | some offset =>
          let value ← sourceValue access
          match ← onPl011 (VirtualPl011.access offset access.isWrite access.width value) with
          | .read value =>
              writeBack access value
              return none
          | .write byte => return byte

end MmioDispatcher

end Mmio

end Tvisor
