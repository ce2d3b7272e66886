/-
# Tvisor.GuestExit -- a guest's synchronous exits

An exit leaves a syndrome and two fault addresses. `emulateStage2Mmio` decodes the access, runs it
through the dispatcher on the vCPU's registers and then advances the program counter;
`handleSynchronousException` decides which exits get there and turns any error it meets into a
panic. The last section says what one emulation does, in the three ways it can end.
-/
import Tvisor.Mmio.Widths

namespace Tvisor.GuestExit

open Fallible Mmio

/-! ## Contexts and exits -/

/-- The registers that the emulation of an access reads or writes. -/
structure VcpuContext where
  x : Registers
  elrEl2 : UInt64
  deriving DecidableEq

structure VcpuExit where
  vector : UInt64
  esrEl2 : UInt64
  farEl2 : UInt64
  hpfarEl2 : UInt64
  deriving DecidableEq

inductive VcpuExitReason where
  | hvc (imm : UInt16) (arg0 : UInt64)
  | stage2DataAbort (ipa : UInt64) (isWrite : Bool) (dfsc : UInt8)
  | stage2InstructionAbort (ipa : UInt64) (ifsc : UInt8)
  | smcTrap
  | sysRegTrap
  | fpSimdTrap
  | unknown (ec : UInt8) (iss : UInt32)
  deriving DecidableEq, Repr

namespace VcpuExit

/-- HPFAR_EL2[47:4] holds IPA[47:12]; FAR_EL2 holds the offset in the page. -/
def faultIpa (exit : VcpuExit) : UInt64 :=
  (((exit.hpfarEl2 >>> 4) &&& 0x00000fffffffffff) <<< 12) ||| (exit.farEl2 &&& 0xfff)

/-- The exception class. -/
def ec (exit : VcpuExit) : UInt8 := ((exit.esrEl2 >>> 26) &&& 0x3f).toUInt8

def decodeReason (exit : VcpuExit) (context : VcpuContext) : VcpuExitReason :=
  let iss := (exit.esrEl2 &&& 0x01ffffff).toUInt32
  if exit.ec = 0x16 then .hvc (iss &&& 0xffff).toUInt16 (context.x.get 0)
  else if exit.ec = 0x17 then .smcTrap
  else if exit.ec = 0x18 then .sysRegTrap
  else if exit.ec = 0x07 then .fpSimdTrap
  else if exit.ec = 0x20 then .stage2InstructionAbort exit.faultIpa (iss &&& 0x3f).toUInt8
  else if exit.ec = 0x24 then
    .stage2DataAbort exit.faultIpa (iss &&& 0x40 != 0) (iss &&& 0x3f).toUInt8
  else .unknown exit.ec iss

end VcpuExit

structure Vcpu where
  context : VcpuContext
  exit : VcpuExit
  deriving DecidableEq

/-! ## Emulation -/

inductive VcpuMmioError where
  | decode (error : MmioDecodeError)
  | emulation (error : MmioEmulationError)
  | programCounterOverflow
  deriving DecidableEq, Repr

/-- What the emulation of an access may change. -/
structure Trap where
  context : VcpuContext
  dispatcher : MmioDispatcher
  deriving DecidableEq

/-- `pc.checked_add(4)` -/
def nextPc (pc : UInt64) : Option UInt64 := if pc.toNat + 4 < 2 ^ 64 then some (pc + 4) else none

def onBus (x : Emulation (Option UInt8)) : EStateM (Stop VcpuMmioError) Trap (Option UInt8) :=
  mapError (mapStop .emulation)
    (zoom (fun trap => ⟨trap.dispatcher, trap.context.x⟩)
      (fun trap bus => ⟨{ trap.context with x := bus.registers }, bus.dispatcher⟩) x)

/-- The guest PC is advanced only after the device has completed the access and any read result is
present in the target register. -/
def emulateStage2Mmio (exit : VcpuExit) : EStateM (Stop VcpuMmioError) Trap (Option UInt8) := do
  match decodeDataAbort exit.esrEl2 exit.faultIpa with
  | .error error => throw (.error (.decode error))
  | .ok access =>
      let transmit ← onBus (MmioDispatcher.emulate access)
      match nextPc (← get).context.elrEl2 with
      | none => throw (.error .programCounterOverflow)
      | some pc =>
          modify fun trap => { trap with context := { trap.context with elrEl2 := pc } }
          return transmit

inductive ExitError where
  | unexpectedIrq (irq : UInt32)
  | unexpectedException (reason : VcpuExitReason)
  | invalidRange (name : String)
  | invalidIpa (ipa : UInt64)
  | consoleTransmit
  deriving DecidableEq, Repr

/-- What the handler may change. -/
structure Guest where
  vcpu : Vcpu
  dispatcher : MmioDispatcher
  deriving DecidableEq

/-- `(start..end).contains(&ipa)` -/
def inRange (start stop ipa : UInt64) : Bool := start ≤ ipa && ipa < stop

/-- An error of the emulation is a panic here. -/
def emulateOrPanic (exit : VcpuExit) : EStateM (Stop ExitError) Guest (Option UInt8) :=
  mapError (fun _ => .panicked)
    (zoom (fun guest => ⟨guest.vcpu.context, guest.dispatcher⟩)
      (fun guest trap => ⟨{ guest.vcpu with context := trap.context }, trap.dispatcher⟩)
      (emulateStage2Mmio exit))

/-- `writeFails` says whether the host console refuses a byte. -/
def handleSynchronousException (writeFails : UInt8 → Bool) :
    EStateM (Stop ExitError) Guest Unit := do
  let vcpu := (← get).vcpu
  match vcpu.exit.decodeReason vcpu.context with
  | .stage2DataAbort ipa _ _ =>
      match guestGicd.endIpa, guestPl011.endIpa with
      | none, _ => throw (.error (.invalidRange "GICD"))
      | _, none => throw (.error (.invalidRange "PL011 REG"))
      | some gicdEnd, some pl011End =>
          if !(inRange guestGicd.start gicdEnd ipa || inRange guestPl011.start pl011End ipa) then
            throw (.error (.invalidIpa ipa))
          else
            match ← emulateOrPanic vcpu.exit with
            | none => return ()
            | some byte =>
                if writeFails byte then throw (.error .consoleTransmit) else return ()
  | reason => throw (.error (.unexpectedException reason))

/-! ## What one emulation does -/

variable {exit : VcpuExit} {access : MmioAccess}

/-- The context with the registers that an access left. -/
def VcpuContext.withX (context : VcpuContext) (x : Registers) : VcpuContext := { context with x }

theorem onBus_run (x : Emulation (Option UInt8)) (trap : Trap) :
    (onBus x).run trap =
      match x.run ⟨trap.dispatcher, trap.context.x⟩ with
      | .ok a bus => .ok a ⟨trap.context.withX bus.registers, bus.dispatcher⟩
      | .error e bus =>
        .error (mapStop .emulation e) ⟨trap.context.withX bus.registers, bus.dispatcher⟩ := by
  rw [onBus, run_mapError, run_zoom]
  cases x.run ⟨trap.dispatcher, trap.context.x⟩ <;> rfl

/-- A syndrome that does not decode changes nothing. -/
theorem emulateStage2Mmio_decode {error : MmioDecodeError}
    (h : decodeDataAbort exit.esrEl2 exit.faultIpa = .error error) (trap : Trap) :
    (emulateStage2Mmio exit).run trap = .error (.error (.decode error)) trap := by
  simp only [emulateStage2Mmio, h]
  rfl

/-- An access that the dispatcher refuses changes nothing. -/
theorem emulateStage2Mmio_refused (trap : Trap) {bus : Bus} {error : MmioEmulationError}
    (h : decodeDataAbort exit.esrEl2 exit.faultIpa = .ok access)
    (hrun : (MmioDispatcher.emulate access).run ⟨trap.dispatcher, trap.context.x⟩ =
      .error (.error error) bus)
    (hbus : bus = ⟨trap.dispatcher, trap.context.x⟩) :
    (emulateStage2Mmio exit).run trap = .error (.error (.emulation error)) trap := by
  simp only [emulateStage2Mmio, h, EStateM.run_bind, onBus_run, hrun, hbus]
  rfl

/-- An access that the dispatcher completes: the program counter decides the rest. -/
theorem emulateStage2Mmio_completed (trap : Trap) {bus : Bus} {byte : Option UInt8}
    (h : decodeDataAbort exit.esrEl2 exit.faultIpa = .ok access)
    (hrun : (MmioDispatcher.emulate access).run ⟨trap.dispatcher, trap.context.x⟩ = .ok byte bus) :
    (emulateStage2Mmio exit).run trap =
      if trap.context.elrEl2.toNat + 4 < 2 ^ 64 then
        .ok byte ⟨⟨bus.registers, trap.context.elrEl2 + 4⟩, bus.dispatcher⟩
      else .error (.error .programCounterOverflow)
        ⟨trap.context.withX bus.registers, bus.dispatcher⟩ := by
  simp only [emulateStage2Mmio, h, EStateM.run_bind, onBus_run, hrun, EStateM.run_get]
  by_cases hpc : trap.context.elrEl2.toNat + 4 < 2 ^ 64
  · have hnext : nextPc trap.context.elrEl2 = some (trap.context.elrEl2 + 4) := if_pos hpc
    simp only [VcpuContext.withX, hnext, if_pos hpc]
    rfl
  · have hnext : nextPc trap.context.elrEl2 = none := if_neg hpc
    simp only [VcpuContext.withX, hnext, if_neg hpc]
    rfl

end Tvisor.GuestExit
