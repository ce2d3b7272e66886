/-
# Tvisor.GuestExit.Run -- a vCPU runs until an exit that is not emulated

`run_vcpu_with_mmio` as a machine whose turns alternate between the hypervisor and the guest. Before
each entry the receive interrupt of the virtual PL011 is queued, if it is pending and its list
register is free; then the vCPU's virtual interface is loaded. While the guest runs, the hardware
takes its interrupts from the list registers without an exit. After an exit the virtual interface is
saved and the exit is handled.

The receive interrupt is sampled at entries only. A guest that completes it and leaves bytes in the
FIFO is not interrupted again before its next exit; up to there, a pending receive interrupt is in
the list register. The assertions that the boot CPU is idle, around the run of the guest, are left
out.
-/
import Tvisor.GuestExit.Completion

namespace Tvisor.GuestExit

open Interleave Interleave.Prog Fallible Mmio HostManagement
open Gicv2 hiding Ops

/-! ## The machine -/

/-- Where the loop is. -/
inductive Phase where
  | top
  | running
  | exited (vector : UInt64)
  | returned (vector : UInt64)
  | stopped
  deriving DecidableEq, Repr

/-- The vCPU with its saved virtual interface, the devices, and the registers of the GIC. -/
structure VcpuRun where
  phase : Phase
  vcpu : Vcpu
  gic : VirtualGicV2State
  dispatcher : MmioDispatcher
  hardware : Register → UInt32

/-- The virtual interface that the registers hold. -/
def virtualInterface (hardware : Register → UInt32) : VirtualGicV2State :=
  ⟨hardware .vmcr, hardware .lr0, hardware .lr1⟩

namespace VcpuRun

/-- The saved virtual interface after the check for a receive interrupt. -/
def rechecked (s : VcpuRun) : VirtualGicV2State :=
  if s.dispatcher.pl011RxIrqPending && !s.gic.uartInFlight then
    Fallible.state ((queueUartSpi virtualPl011Irq).run s.gic)
  else s.gic

/-- From the top of the loop into the guest. `guest_entry` asserts the HCR of a guest. -/
def enter (hcr : Nat) (s : VcpuRun) : VcpuRun :=
  let gic := s.rechecked
  if hcr = El2Policy.guestHcr then
    { s with gic, hardware := ((restoreVirtualCpu gic).exec s.hardware).2, phase := .running }
  else { s with gic, phase := .stopped }

/-- Out of the guest, with the registers and the syndrome that it left. -/
def leave (vector : UInt64) (vcpu : Vcpu) (s : VcpuRun) : VcpuRun :=
  let saved := saveVirtualCpu.exec s.hardware
  { s with vcpu, gic := saved.1, hardware := saved.2, phase := .exited vector }

/-- After `handle_irq`. -/
def afterIrq (s : VcpuRun) : Except Fault (Interrupts × Except ExitError Unit) → VcpuRun
  | .ok (guest, .ok ()) =>
      { s with gic := guest.gic, dispatcher := guest.dispatcher, phase := .top }
  | .ok (guest, .error _) =>
      { s with gic := guest.gic, dispatcher := guest.dispatcher, phase := .returned 9 }
  | .error _ => { s with phase := .stopped }

/-- After `handle_synchronous_exception`. -/
def afterException (s : VcpuRun) : EStateM.Result (Stop ExitError) Guest Unit → VcpuRun
  | .ok _ guest => { s with vcpu := guest.vcpu, dispatcher := guest.dispatcher, phase := .top }
  | .error (.error _) guest =>
      { s with vcpu := guest.vcpu, dispatcher := guest.dispatcher, phase := .returned 8 }
  | .error .panicked guest =>
      { s with vcpu := guest.vcpu, dispatcher := guest.dispatcher, phase := .stopped }

/-- The list registers of the vCPU: loaded while it runs, and in its saved copy otherwise. -/
def lists (s : VcpuRun) : VirtualGicV2State :=
  match s.phase with
  | .running => virtualInterface s.hardware
  | _ => s.gic

end VcpuRun

/-! ## The hardware -/

def gichLrActive : UInt32 := (0b10 : UInt32) <<< 28

/-- A list register goes from one state to another; all its other fields stay. -/
def Moves (old new : UInt32) (lr lr' : UInt32) : Prop :=
  lr &&& gichLrStateMask = old ∧ lr' &&& gichLrStateMask = new ∧
    lr' &&& ~~~gichLrStateMask = lr &&& ~~~gichLrStateMask

instance (old new lr lr' : UInt32) : Decidable (Moves old new lr lr') :=
  inferInstanceAs (Decidable (_ ∧ _))

/-- The guest acknowledges the interrupt. -/
abbrev Acknowledged (lr lr' : UInt32) : Prop := Moves gichLrPending gichLrActive lr lr'

/-- The guest completes the interrupt. -/
abbrev Deactivated (lr lr' : UInt32) : Prop := Moves gichLrActive 0 lr lr'

theorem inFlight_of_acknowledged {lr lr' : UInt32} (h : Acknowledged lr lr') :
    inFlight lr' = true := by
  have hactive : gichLrActive ≠ 0 := by decide
  rw [inFlight, h.2.1]
  exact bne_iff_ne.mpr hactive

/-! ## Steps -/

/-- Who takes the step. A guest's completion of its UART interrupt is told apart. -/
inductive Label where
  | entry
  | hypervisor
  | guest
  | completion
  deriving DecidableEq, Repr

def Label.OfHypervisor (label : Label) : Prop := label = .entry ∨ label = .hypervisor

section Steps

variable (image : Image) (hostConsoleIrq : Option UInt32) (writeFails : UInt8 → Bool)

/-- While the guest runs, the UART's list register changes in the two ways of the hardware; of the
other registers nothing is assumed. In `handle_irq` other CPUs may interfere, so that it reads
anything; its own writes are all that it does to the registers. -/
inductive Step : VcpuRun → Label → VcpuRun → Prop
  | enter {s : VcpuRun} (hcr : Nat) : s.phase = .top → Step s .entry (s.enter hcr)
  | guest {s : VcpuRun} {hardware : Register → UInt32} : s.phase = .running →
      (hardware .lr1 = s.hardware .lr1 ∨ Acknowledged (s.hardware .lr1) (hardware .lr1)) →
      Step s .guest { s with hardware }
  | completion {s : VcpuRun} {hardware : Register → UInt32} : s.phase = .running →
      Deactivated (s.hardware .lr1) (hardware .lr1) → Step s .completion { s with hardware }
  | leave {s : VcpuRun} (vector : UInt64) (vcpu : Vcpu) : s.phase = .running →
      Step s .hypervisor (s.leave vector vcpu)
  | irq {s : VcpuRun} {console : List UInt8} {ops : List (Action Val)}
      {r : Except Fault (Interrupts × Except ExitError Unit)} {memory : ∀ c, Val c} :
      s.phase = .exited 9 →
      (handleIrq image hostConsoleIrq console ⟨s.gic, s.dispatcher⟩).run.Ran ops r →
      (∀ register, memory (.gic register) = s.hardware register) →
      Step s .hypervisor (VcpuRun.afterIrq
        { s with hardware := fun register => Action.after ops memory (.gic register) } r)
  | exception {s : VcpuRun} : s.phase = .exited 8 →
      Step s .hypervisor
        (s.afterException ((handleSynchronousException writeFails).run ⟨s.vcpu, s.dispatcher⟩))
  | unexpected {s : VcpuRun} {vector : UInt64} : s.phase = .exited vector → vector ≠ 9 →
      vector ≠ 8 → Step s .hypervisor { s with phase := .returned vector }

/-- A call of `run_vcpu_with_mmio`, with its steps, newest first. -/
inductive Execution (initial : VcpuRun) : List Label → VcpuRun → Prop
  | start : initial.phase = .top → Execution initial [] initial
  | step {labels : List Label} {s s' : VcpuRun} {label : Label} : Execution initial labels s →
      Step image hostConsoleIrq writeFails s label s' → Execution initial (label :: labels) s'

end Steps

/-- The steps since the last entry. -/
def stay (labels : List Label) : List Label := labels.takeWhile (· ≠ .entry)

variable {image : Image} {hostConsoleIrq : Option UInt32} {writeFails : UInt8 → Bool}
  {initial s s' : VcpuRun} {label : Label} {labels : List Label}

/-! ## Entry and exit -/

theorem virtualInterface_restore (gic : VirtualGicV2State) (hardware : Register → UInt32) :
    virtualInterface ((restoreVirtualCpu gic).exec hardware).2 = gic := rfl

theorem virtualInterface_save (hardware : Register → UInt32) :
    (saveVirtualCpu.exec hardware).1 = virtualInterface hardware ∧
      virtualInterface (saveVirtualCpu.exec hardware).2 = virtualInterface hardware := ⟨rfl, rfl⟩

theorem keeps_rechecked (s : VcpuRun) : Keeps s.gic s.rechecked := by
  unfold VcpuRun.rechecked
  split
  · exact keeps_queueUartSpi s.gic
  · exact Keeps.refl _

/-- A pending receive interrupt is in the list register that the guest is entered with. -/
theorem uartInFlight_rechecked (hpending : s.dispatcher.pl011RxIrqPending = true) :
    s.rechecked.uartInFlight = true := by
  unfold VcpuRun.rechecked
  rw [hpending, Bool.true_and, queueUartSpi_run]
  cases h : s.gic.uartInFlight with
  | true => exact h
  | false =>
    show inFlight uartWord = true
    decide

/-! ## Receive interrupts -/

/-- A pending receive interrupt is in the list register of a guest that runs, unless the guest has
completed one since it was entered. -/
def Delivered (labels : List Label) (s : VcpuRun) : Prop :=
  s.phase = .running → s.dispatcher.pl011RxIrqPending = true →
    inFlight (s.hardware .lr1) = true ∨ Label.completion ∈ stay labels

theorem delivered_of_phase (h : s.phase ≠ .running) : Delivered labels s :=
  fun hrun => absurd hrun h

theorem afterIrq_phase (s : VcpuRun) (r : Except Fault (Interrupts × Except ExitError Unit)) :
    (s.afterIrq r).phase ≠ .running := by
  rcases r with e | ⟨guest, e | _⟩ <;> exact nofun

theorem afterException_phase (s : VcpuRun) (r : EStateM.Result (Stop ExitError) Guest Unit) :
    (s.afterException r).phase ≠ .running := by
  rcases r with ⟨_, guest⟩ | ⟨e | _, guest⟩ <;> exact nofun

theorem Delivered.step (h : Delivered labels s)
    (hstep : Step image hostConsoleIrq writeFails s label s') : Delivered (label :: labels) s' := by
  cases hstep with
  | enter hcr hphase =>
    intro hrun hpending
    unfold VcpuRun.enter at hrun hpending ⊢
    split at hrun
    · rename_i hhcr
      rw [if_pos hhcr] at hpending ⊢
      exact Or.inl (uartInFlight_rechecked hpending)
    · cases hrun
  | guest hphase hmove =>
    intro _ hpending
    rcases hmove with hsame | hack
    · rcases h hphase hpending with hin | hdone
      · exact Or.inl ((congrArg inFlight hsame).trans hin)
      · exact Or.inr (List.mem_cons_of_mem _ hdone)
    · exact Or.inl (inFlight_of_acknowledged hack)
  | completion hphase hmove => exact fun _ _ => Or.inr List.mem_cons_self
  | leave vector vcpu hphase | unexpected hphase h9 h8 => exact delivered_of_phase nofun
  | irq hphase hran hmemory => exact delivered_of_phase (afterIrq_phase _ _)
  | exception hphase => exact delivered_of_phase (afterException_phase _ _)

/-! ## Interrupts in flight -/

variable {r : Except Fault (Interrupts × Except ExitError Unit)}

/-- Outside the guest, what is in flight in the registers is in the saved copy. -/
def Owned (s : VcpuRun) : Prop := s.phase ≠ .running → Keeps (virtualInterface s.hardware) s.gic

/-- `handle_irq` writes no list register, and keeps those of the saved copy. -/
theorem handleIrq_keeps {console : List UInt8} {ops : List (Action Val)} {memory : ∀ c, Val c}
    (hran : (handleIrq image hostConsoleIrq console ⟨s.gic, s.dispatcher⟩).run.Ran ops r)
    (hmemory : ∀ register, memory (.gic register) = s.hardware register) :
    CopyKept s.gic r ∧ ∀ register, register = .lr0 ∨ register = .lr1 →
      Action.after ops memory (.gic register) = s.hardware register := by
  obtain ⟨hops, hcopy⟩ := hran.forall (handleIrq_sparing image hostConsoleIrq console _)
  refine ⟨hcopy, ?_⟩
  rintro register (rfl | rfl)
  · rw [Action.after_of_spares fun op hop => (hops op hop).1, hmemory]
  · rw [Action.after_of_spares fun op hop => (hops op hop).2, hmemory]

theorem afterIrq_hardware (s : VcpuRun) (r : Except Fault (Interrupts × Except ExitError Unit)) :
    (s.afterIrq r).hardware = s.hardware := by
  rcases r with e | ⟨guest, e | _⟩ <;> rfl

theorem keeps_afterIrq {gic : VirtualGicV2State} (hgic : s.gic = gic) (h : CopyKept gic r) :
    Keeps gic (s.afterIrq r).gic := by
  rcases r with e | ⟨guest, e | _⟩
  · rw [← hgic]
    exact Keeps.refl _
  · exact h guest _ rfl
  · exact h guest _ rfl

/-- An exception is handled without the interrupt controller. -/
theorem afterException_gic (s : VcpuRun) (r : EStateM.Result (Stop ExitError) Guest Unit) :
    (s.afterException r).gic = s.gic ∧ (s.afterException r).hardware = s.hardware := by
  rcases r with ⟨_, guest⟩ | ⟨e | _, guest⟩ <;> exact ⟨rfl, rfl⟩

theorem lists_of_not_running (h : s.phase ≠ .running) : s.lists = s.gic := by
  unfold VcpuRun.lists
  split
  · rename_i hrun
    exact absurd hrun h
  · rfl

theorem lists_of_running (h : s.phase = .running) : s.lists = virtualInterface s.hardware := by
  unfold VcpuRun.lists
  rw [h]

/-- What a step of the hypervisor keeps: the list registers of the vCPU that are in flight, and
those in the hardware if they are the vCPU's own. -/
structure StepKeeps (s s' : VcpuRun) : Prop where
  lists : Keeps s.lists s'.lists
  hardware : Owned s → Keeps (virtualInterface s.hardware) (virtualInterface s'.hardware)
  owned : Owned s → Owned s'

/-- A step outside the guest that leaves the list registers of the hardware alone. -/
theorem StepKeeps.of_hardware (hs : s.phase ≠ .running) (hs' : s'.phase ≠ .running)
    (hgic : Keeps s.gic s'.gic)
    (hhardware : Keeps (virtualInterface s.hardware) (virtualInterface s'.hardware))
    (hback : Keeps (virtualInterface s'.hardware) (virtualInterface s.hardware)) :
    StepKeeps s s' := by
  refine ⟨?_, fun _ => hhardware, ?_⟩
  · rw [lists_of_not_running hs, lists_of_not_running hs']
    exact hgic
  · intro howned _
    exact (hback.trans (howned hs)).trans hgic

theorem stepKeeps_enter (hphase : s.phase = .top) (hcr : Nat) : StepKeeps s (s.enter hcr) := by
  have hs : s.phase ≠ .running := by rw [hphase]; exact nofun
  unfold VcpuRun.enter
  split
  · -- The registers now hold the saved copy, which has what they held in flight before.
    refine ⟨?_, ?_, fun _ hrun => absurd rfl hrun⟩
    · rw [lists_of_not_running hs, lists_of_running rfl, virtualInterface_restore]
      exact keeps_rechecked s
    · intro howned
      rw [virtualInterface_restore]
      exact (howned hs).trans (keeps_rechecked s)
  · exact .of_hardware hs nofun (keeps_rechecked s) (Keeps.refl _) (Keeps.refl _)

theorem stepKeeps_leave (hphase : s.phase = .running) (vector : UInt64) (vcpu : Vcpu) :
    StepKeeps s (s.leave vector vcpu) := by
  obtain ⟨hsaved, hregisters⟩ := virtualInterface_save s.hardware
  have hgic : (s.leave vector vcpu).gic = virtualInterface s.hardware := hsaved
  have hhardware : virtualInterface (s.leave vector vcpu).hardware = virtualInterface s.hardware :=
    hregisters
  refine ⟨?_, fun _ => ?_, fun _ _ => ?_⟩
  · rw [lists_of_running hphase, lists_of_not_running (s := s.leave vector vcpu) nofun, hgic]
    exact Keeps.refl _
  · rw [hhardware]
    exact Keeps.refl _
  · rw [hhardware, hgic]
    exact Keeps.refl _

theorem stepKeeps_of_hypervisor (hstep : Step image hostConsoleIrq writeFails s label s')
    (hlabel : label.OfHypervisor) : StepKeeps s s' := by
  cases hstep with
  | enter hcr hphase => exact stepKeeps_enter hphase hcr
  | guest hphase hmove | completion hphase hmove => rcases hlabel with h | h <;> cases h
  | leave vector vcpu hphase => exact stepKeeps_leave hphase vector vcpu
  | irq hphase hran hmemory =>
    obtain ⟨hcopy, hregisters⟩ := handleIrq_keeps hran hmemory
    refine .of_hardware (by rw [hphase]; exact nofun) (afterIrq_phase _ _)
      (keeps_afterIrq rfl hcopy) ?_ ?_
    · rw [afterIrq_hardware]
      exact ⟨fun _ => hregisters .lr0 (Or.inl rfl), fun _ => hregisters .lr1 (Or.inr rfl)⟩
    · rw [afterIrq_hardware]
      exact ⟨fun _ => (hregisters .lr0 (Or.inl rfl)).symm,
        fun _ => (hregisters .lr1 (Or.inr rfl)).symm⟩
  | exception hphase =>
    obtain ⟨hgic, hhardware⟩ := afterException_gic s
      ((handleSynchronousException writeFails).run ⟨s.vcpu, s.dispatcher⟩)
    refine .of_hardware (by rw [hphase]; exact nofun) (afterException_phase _ _) ?_ ?_ ?_
    · rw [hgic]
      exact Keeps.refl _
    · rw [hhardware]
      exact Keeps.refl _
    · rw [hhardware]
      exact Keeps.refl _
  | unexpected hphase h9 h8 =>
    exact .of_hardware (by rw [hphase]; exact nofun) nofun (Keeps.refl _) (Keeps.refl _)
      (Keeps.refl _)

/-- The other steps are those of a guest that runs on. -/
theorem phase_of_guest (hstep : Step image hostConsoleIrq writeFails s label s')
    (hlabel : ¬ label.OfHypervisor) : s'.phase = .running := by
  cases hstep with
  | guest hphase hmove => exact hphase
  | completion hphase hmove => exact hphase
  | enter hcr hphase => exact absurd (Or.inl rfl) hlabel
  | leave vector vcpu hphase | irq hphase hran hmemory | exception hphase
  | unexpected hphase h9 h8 => exact absurd (Or.inr rfl) hlabel

theorem Owned.step (h : Owned s) (hstep : Step image hostConsoleIrq writeFails s label s') :
    Owned s' := by
  by_cases hlabel : label.OfHypervisor
  · exact (stepKeeps_of_hypervisor hstep hlabel).owned h
  · exact fun hrun => absurd (phase_of_guest hstep hlabel) hrun

/-! ## Whole runs -/

theorem Execution.delivered (hrun : Execution image hostConsoleIrq writeFails initial labels s) :
    Delivered labels s := by
  induction hrun with
  | start hphase => exact delivered_of_phase (by rw [hphase]; exact nofun)
  | step _ hstep ih => exact ih.step hstep

theorem Execution.owned (hrun : Execution image hostConsoleIrq writeFails initial labels s)
    (hinitial : Owned initial) : Owned s := by
  induction hrun with
  | start hphase => exact hinitial
  | step _ hstep ih => exact ih.step hstep

/-- No receive interrupt is lost, up to what the guest itself completes. While the guest runs, a
non-empty receive FIFO with the interrupt unmasked means that the UART's list register is pending or
active, or that the guest has completed a UART interrupt since the last entry; so it is pending or
active at every entry. And no step of the hypervisor replaces a list register of the vCPU that is
pending or active, nor one of the hardware if those that were in flight there at the start were the
vCPU's own. -/
theorem uart_interrupt_queued (hrun : Execution image hostConsoleIrq writeFails initial labels s) :
    (s.phase = .running → s.dispatcher.pl011RxIrqPending = true →
      inFlight (s.hardware .lr1) = true ∨ Label.completion ∈ stay labels) ∧
    ∀ label s', Step image hostConsoleIrq writeFails s label s' → label.OfHypervisor →
      Keeps s.lists s'.lists ∧
      (Owned initial → Keeps (virtualInterface s.hardware) (virtualInterface s'.hardware)) := by
  refine ⟨hrun.delivered, ?_⟩
  intro label s' hstep hlabel
  have hkeeps := stepKeeps_of_hypervisor hstep hlabel
  exact ⟨hkeeps.lists, fun hinitial => hkeeps.hardware (hrun.owned hinitial)⟩

/-- A guest with one byte in the FIFO of its PL011, which it has not read. -/
def waiting : VcpuRun where
  phase := .top
  vcpu := ⟨⟨Vector.replicate 31 0, 0⟩, ⟨0, 0, 0, 0⟩⟩
  gic := ⟨0, 0, 0⟩
  dispatcher := { MmioDispatcher.default with
    pl011 := { VirtualPl011.default with imsc := 0x10, rxLen := 1, rxLen_le := by decide } }
  hardware := fun _ => 0

/-- The same guest when it has been entered. -/
def interrupted : VcpuRun := waiting.enter El2Policy.guestHcr

theorem waiting_entered :
    Execution smallImage none (fun _ => false) waiting [.entry] interrupted :=
  .step (.start rfl) (.enter _ rfl)

theorem uart_interrupt_queued_waiting :
    interrupted.dispatcher.pl011RxIrqPending = true ∧
      inFlight (interrupted.hardware .lr1) = true := by
  have hpending : interrupted.dispatcher.pl011RxIrqPending = true := by decide
  have hqueued := (uart_interrupt_queued waiting_entered).1 rfl hpending
  exact ⟨hpending, hqueued.resolve_right (by decide)⟩

/-- The guest is entered with the interrupt pending; it acknowledges and completes it without an
exit and without a look at its PL011. It still runs, with the byte in the FIFO and nothing in the
list register. -/
theorem uart_interrupt_completed_early :
    ∃ labels s, Execution smallImage none (fun _ => false) waiting labels s ∧ s.phase = .running ∧
      s.dispatcher.pl011RxIrqPending = true ∧ inFlight (s.hardware .lr1) = false := by
  let active := Function.update interrupted.hardware .lr1 (uartWord ^^^ gichLrStateMask)
  let inactive := Function.update interrupted.hardware .lr1 (uartWord ^^^ gichLrPending)
  have hack : Acknowledged (interrupted.hardware .lr1) (active .lr1) := by decide
  have hdone : Deactivated (active .lr1) (inactive .lr1) := by decide
  refine ⟨[.completion, .guest, .entry], { interrupted with hardware := inactive }, ?_, rfl, ?_, ?_⟩
  · exact .step (.step waiting_entered (.guest rfl (Or.inr hack))) (.completion rfl hdone)
  · decide
  · decide

end Tvisor.GuestExit
