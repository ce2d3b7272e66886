/-
# Tvisor.Gicv2 -- acknowledgement tokens and the virtual list registers

The part of `tvisor_util/gicv2.rs` that interrupt handlers use. An `InterruptAck` is the whole word
read from GICC_IAR and exists for ordinary interrupts only, so the special identifiers 1020 to 1023
cannot be completed. The registers of the CPU interface and of the hypervisor interface are words
that the hardware may change at any time; barriers are left out.

A vCPU keeps its virtual interface between runs: VMCR and two list registers, one for the timer and
one for the UART. A list register whose state bits are not both clear is in flight.
-/
import Tvisor.Lib.Fallible
import Tvisor.Lib.Interleave

namespace Tvisor.Gicv2

open Interleave

/-! ## Constants -/

/-- The SGI that wakes a worker. -/
def managementSgi : UInt32 := 1
/-- The guest's timer. -/
def virtualTimerPpi : UInt32 := 27
/-- The guest's UART. -/
def virtualPl011Irq : UInt32 := 33

def gichHcrEnable : UInt32 := 1
/-- The virtual interrupt belongs to a physical one. -/
def gichLrHw : UInt32 := (1 : UInt32) <<< 31
def gichLrPending : UInt32 := (0b01 : UInt32) <<< 28
def gichLrStateMask : UInt32 := (0b11 : UInt32) <<< 28
def gichLrPriorityShift : UInt32 := 23
def gichLrPhysicalIdShift : UInt32 := 10
def gichLrIntidMask : UInt32 := 0x3ff

/-! ## Tokens -/

/-- The full GICC_IAR word, with the originating CPU interface for SGIs. -/
structure InterruptAck where
  raw : UInt32
  ordinary : raw &&& gichLrIntidMask < 1020
  deriving DecidableEq

namespace InterruptAck

/-- Special numbers are no interrupts. -/
def fromRaw (raw : UInt32) : Option InterruptAck :=
  if h : raw &&& gichLrIntidMask < 1020 then some ⟨raw, h⟩ else none

/-- The interrupt number. -/
def intid (ack : InterruptAck) : UInt32 := ack.raw &&& gichLrIntidMask

/-- The CPU that sent an SGI. -/
def source (ack : InterruptAck) : Option UInt8 :=
  if ack.intid < 16 then some ((ack.raw >>> 10) &&& 7).toUInt8 else none

theorem fromRaw_eq_some {raw : UInt32} {ack : InterruptAck} :
    fromRaw raw = some ack ↔ ack.raw = raw := by
  unfold fromRaw
  constructor
  · intro h
    split at h
    · cases h
      rfl
    · cases h
  · rintro rfl
    rw [dif_pos ack.ordinary]

theorem fromRaw_eq_none {raw : UInt32} : fromRaw raw = none ↔ 1020 ≤ raw &&& gichLrIntidMask := by
  unfold fromRaw
  by_cases h : raw &&& gichLrIntidMask < 1020
  · simp [h]
  · simp [h, UInt32.not_lt.mp h]

end InterruptAck

def isTimerPpi (id ppi : UInt32) : Bool := id == ppi

/-! ## The virtual interface of a vCPU -/

/-- The saved registers: one list register for the timer, one for the UART. -/
structure VirtualGicV2State where
  vmcr : UInt32
  timerLr : UInt32
  uartLr : UInt32
  deriving DecidableEq, Repr

/-- A list register is pending or active. -/
def inFlight (lr : UInt32) : Bool := lr &&& gichLrStateMask != 0

namespace VirtualGicV2State

/-- A UART interrupt is on its way to the guest. -/
def uartInFlight (state : VirtualGicV2State) : Bool := inFlight state.uartLr

/-- A timer interrupt is on its way to the guest. -/
def timerInFlight (state : VirtualGicV2State) : Bool := inFlight state.timerLr

end VirtualGicV2State

/-- A list register keeps the upper five bits. -/
def lrPriority (gicPriority : UInt8) : UInt32 :=
  ((gicPriority.toUInt32 >>> 3) &&& 0x1f) <<< gichLrPriorityShift

/-- The guest's completion also deactivates the physical timer interrupt. -/
def queueTimerPpi (ppi : UInt32) : EStateM Unit VirtualGicV2State Unit := do
  if (← get).timerInFlight || !(16 ≤ ppi && ppi < 32) then throw ()
  else modify fun state => { state with
    timerLr := gichLrHw ||| gichLrPending ||| lrPriority 0x80 |||
      (ppi <<< gichLrPhysicalIdShift) ||| ppi }

/-- The group bit stays clear, and there is no physical interrupt to deactivate. -/
def queueUartSpi (spi : UInt32) : EStateM Unit VirtualGicV2State Unit := do
  if (← get).uartInFlight || !(32 ≤ spi && spi < 1020) then throw ()
  else modify fun state => { state with uartLr := gichLrPending ||| lrPriority 0x80 ||| spi }

/-! ## Registers -/

/-- Registers of the CPU interface (`iar`, `eoir`, `dir`) and of the hypervisor interface. -/
inductive Register where
  | iar
  | eoir
  | dir
  | vmcr
  | lr0
  | lr1
  | hcr
  deriving DecidableEq, Repr

/-- Programs that access the registers. -/
abbrev Ops := Prog fun _ : Register => UInt32

/-- Takes the pending interrupt of the highest priority. -/
def acknowledge : Ops (Option InterruptAck) := do
  return InterruptAck.fromRaw (← Atomic.load Register.iar)

/-- Drops priority only. -/
def endInterrupt (ack : InterruptAck) : Ops Unit := Atomic.store Register.eoir ack.raw

/-- Completes a physical host interrupt with the same unmodified word. -/
def completeHostInterrupt (ack : InterruptAck) : Ops Unit := do
  endInterrupt ack
  Atomic.store Register.dir ack.raw

/-- The three registers in which a virtual interrupt shows. -/
def virtualView : Ops (UInt32 × UInt32 × UInt32) := do
  let vmcr ← Atomic.load Register.vmcr
  let lr0 ← Atomic.load Register.lr0
  let lr1 ← Atomic.load Register.lr1
  return (vmcr, lr0, lr1)

/-- The virtual interface of a vCPU, loaded before the vCPU runs. -/
def restoreVirtualCpu (state : VirtualGicV2State) : Ops Unit := do
  Atomic.store Register.vmcr state.vmcr
  Atomic.store Register.lr0 state.timerLr
  Atomic.store Register.lr1 state.uartLr
  Atomic.store Register.hcr gichHcrEnable

/-- The virtual interface as the vCPU left it. It is disabled until the next entry. -/
def saveVirtualCpu : Ops VirtualGicV2State := do
  let vmcr ← Atomic.load Register.vmcr
  let timerLr ← Atomic.load Register.lr0
  let uartLr ← Atomic.load Register.lr1
  Atomic.store Register.hcr (0 : UInt32)
  return { vmcr, timerLr, uartLr }

/-! ## What the queues do -/

/-- The list register of a queued timer interrupt. -/
def timerWord : UInt32 :=
  gichLrHw ||| gichLrPending ||| lrPriority 0x80 |||
    (virtualTimerPpi <<< gichLrPhysicalIdShift) ||| virtualTimerPpi

/-- The list register of a queued UART interrupt. -/
def uartWord : UInt32 := gichLrPending ||| lrPriority 0x80 ||| virtualPl011Irq

theorem queueTimerPpi_run (state : VirtualGicV2State) :
    (queueTimerPpi virtualTimerPpi).run state =
      if state.timerInFlight then .error () state
      else .ok () { state with timerLr := timerWord } := by
  have hppi : (!(16 ≤ virtualTimerPpi && virtualTimerPpi < 32)) = false := by decide
  unfold queueTimerPpi
  rw [hppi, EStateM.run_bind, EStateM.run_get]
  cases h : state.timerInFlight with
  | false =>
    simp [h]
    rfl
  | true => simp [h]

theorem queueUartSpi_run (state : VirtualGicV2State) :
    (queueUartSpi virtualPl011Irq).run state =
      if state.uartInFlight then .error () state
      else .ok () { state with uartLr := uartWord } := by
  have hspi : (!(32 ≤ virtualPl011Irq && virtualPl011Irq < 1020)) = false := by decide
  unfold queueUartSpi
  rw [hspi, EStateM.run_bind, EStateM.run_get]
  cases h : state.uartInFlight with
  | false =>
    simp [h]
    rfl
  | true => simp [h]

end Tvisor.Gicv2
