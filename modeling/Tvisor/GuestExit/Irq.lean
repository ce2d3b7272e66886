/-
# Tvisor.GuestExit.Irq -- interrupts that a guest was interrupted by

`handle_irq` acknowledges one interrupt. The management interrupt goes to the dispatcher of the
host; the virtual timer's is queued for the guest, who will deactivate it; the host console's is
completed after its bytes have gone into the virtual PL011. Any other is completed and ends the
run.

The vCPU is not given to the management dispatcher, so the assertion that it left the vCPU's virtual
interface alone compares a value with itself; it is left out.
-/
import Tvisor.GuestExit
import Tvisor.HostManagement

namespace Tvisor.GuestExit

open Fallible Gicv2 HostManagement Mmio

/-- What interrupts change of a guest: its virtual interrupt interface and its devices. -/
structure Interrupts where
  gic : VirtualGicV2State
  dispatcher : MmioDispatcher
  deriving DecidableEq

/-- `while let Some(byte) = read_byte()`: the bytes that the console has until it is empty. A byte
for which the FIFO has no room is lost. -/
def drainConsole (console : List UInt8) : EStateM (Stop Unit) MmioDispatcher Unit :=
  console.forM fun byte => do
    let _ ← MmioDispatcher.enqueuePl011Rx byte
    return ()

/-- What `handle_irq` does with a token. -/
def handleAck (image : Image) (hostConsoleIrq : Option UInt32) (console : List UInt8)
    (guest : Interrupts) (ack : InterruptAck) : Handler (Interrupts × Except ExitError Unit) := do
  if ack.intid = managementSgi then
    let handled ← dispatch image ack
    stopIfRequested image
    return (guest, if handled then .ok () else .error (.unexpectedIrq ack.intid))
  else if isTimerPpi ack.intid virtualTimerPpi then
    -- A timer interrupt that is in flight already is not queued again.
    let gic := state ((queueTimerPpi ack.intid).run guest.gic)
    onGic (endInterrupt ack)
    return ({ guest with gic }, .ok ())
  else if some ack.intid = hostConsoleIrq then
    match (drainConsole console).run guest.dispatcher with
    | .error _ _ => throw .panicked
    | .ok _ dispatcher =>
        HostManagement.complete ack
        return ({ guest with dispatcher }, .ok ())
  else
    HostManagement.complete ack
    return (guest, .error (.unexpectedIrq ack.intid))

def handleIrq (image : Image) (hostConsoleIrq : Option UInt32) (console : List UInt8)
    (guest : Interrupts) : Handler (Interrupts × Except ExitError Unit) := do
  match ← onGic acknowledge with
  | none => return (guest, .ok ())
  | some ack => handleAck image hostConsoleIrq console guest ack

/-- The drain never indexes outside the FIFO. -/
theorem drainConsole_ok (console : List UInt8) (dispatcher : MmioDispatcher) :
    ∃ after, (drainConsole console).run dispatcher = .ok () after := by
  apply run_forM_ok
  intro byte _ d
  obtain ⟨pl011, hrun, -⟩ := VirtualPl011.enqueueRx_run (ε := Unit) byte d.pl011
  refine ⟨{ d with pl011 }, ?_⟩
  rw [EStateM.run_bind, MmioDispatcher.enqueuePl011Rx, run_zoom, hrun]
  rfl

end Tvisor.GuestExit
