/-
# Tvisor.Mmio.Receiver -- the virtual PL011 receives through a bounded FIFO

The abstract receiver is a list of bytes with two operations: a byte is appended while fewer than 64
are queued, and a read of the data register drops the oldest. `receiver_refines_queue` runs the
dispatcher through any sequence of host bytes and guest accesses and says that its ring buffer is
that list, that every outcome is the one the list gives, and that nothing panics on the way.
-/
import Tvisor.Mmio.Effects

namespace Tvisor.Mmio

open Fallible

/-! ## The dispatcher, one operation at a time -/

/-- What reaches the dispatcher: a byte from the host console, or an access of the guest with the
register file it finds. -/
inductive Op where
  | enqueue (byte : UInt8)
  | emulate (access : MmioAccess) (decoded : access.Decoded) (registers : Registers)

inductive Outcome where
  | enqueued (accepted : Bool)
  | emulated (result : Except MmioEmulationError (Option UInt8)) (registers : Registers)
  | panicked

namespace MmioDispatcher

def step (d : MmioDispatcher) : Op → MmioDispatcher × Outcome
  | .enqueue byte =>
      match (enqueuePl011Rx byte : EStateM (Stop Unit) MmioDispatcher Bool).run d with
      | .ok accepted d' => (d', .enqueued accepted)
      | .error _ d' => (d', .panicked)
  | .emulate access _ registers =>
      match (MmioDispatcher.emulate access).run ⟨d, registers⟩ with
      | .ok byte bus => (bus.dispatcher, .emulated (.ok byte) bus.registers)
      | .error (.error e) bus => (bus.dispatcher, .emulated (.error e) bus.registers)
      | .error .panicked bus => (bus.dispatcher, .panicked)

def run (d : MmioDispatcher) (ops : List Op) : MmioDispatcher :=
  ops.foldl (fun d op => (d.step op).1) d

end MmioDispatcher

/-! ## The abstract receiver -/

/-- The access is a load that the PL011 answers with this register. -/
def MmioAccess.Reads (access : MmioAccess) (register : Pl011Register) : Prop :=
  access.pl011Register = some register ∧ access.isWrite = false ∧ Supported access.width

instance (access : MmioAccess) (register : Pl011Register) : Decidable (access.Reads register) :=
  inferInstanceAs (Decidable (_ ∧ _ ∧ _))

/-- A queue of at most 64 bytes. -/
def Queue.step (q : List UInt8) : Op → List UInt8
  | .enqueue byte => if q.length < 64 then q ++ [byte] else q
  | .emulate access _ _ => if access.Reads .dr then q.tail else q

/-- Bit 4 of the register that the access names. -/
def MmioAccess.showsBit4 (access : MmioAccess) (registers : Registers) : Prop :=
  access.source registers &&& 0x10 ≠ 0

/-- What the outcome of an operation has to be when the queue is `q` and the interrupt mask is
`imsc`. -/
def Conforms (q : List UInt8) (imsc : UInt32) : Op → Outcome → Prop
  | .enqueue _, .enqueued accepted => accepted = decide (q.length < 64)
  | .emulate access _ registers, .emulated result registers' =>
      (access.Reads .dr →
        result = .ok none ∧ registers' = access.deliver (q.headD 0).toUInt64 registers) ∧
      (access.Reads .fr → access.register ≠ 31 → (access.showsBit4 registers' ↔ q = [])) ∧
      (access.Reads .ris → access.register ≠ 31 → (access.showsBit4 registers' ↔ q ≠ [])) ∧
      (access.Reads .mis → access.register ≠ 31 →
        (access.showsBit4 registers' ↔ q ≠ [] ∧ imsc &&& 0x10 ≠ 0))
  | _, _ => False

/-! ## What the status registers show -/

variable {access : MmioAccess}

theorem source_deliver (h : access.Decoded) (h31 : access.register ≠ 31) (result : UInt64)
    (registers : Registers) :
    access.source (access.deliver result registers) = access.extend result := by
  have hlt := h.index_lt_iff.mpr h31
  rw [MmioAccess.source, dif_pos hlt, MmioAccess.deliver, dif_pos hlt]
  exact Vector.getElem_set_self hlt

/-- What a status register shows in bit 4 of its target. -/
theorem showsBit4_deliver (h : access.Decoded) (h31 : access.register ≠ 31) (result : UInt64)
    (registers : Registers) :
    access.showsBit4 (access.deliver result registers) ↔ access.extend result &&& 0x10 ≠ 0 := by
  rw [MmioAccess.showsBit4, source_deliver h h31]

theorem fr_bit4 (access : MmioAccess) (d : VirtualPl011) :
    access.extend (d.status .fr) &&& 0x10 ≠ 0 ↔ d.queue = [] := by
  rw [VirtualPl011.queue_eq_nil, MmioAccess.extend, VirtualPl011.status]
  by_cases hempty : d.rxLen = 0
  · rw [if_pos hempty]
    rcases access.registerIs64bit with _ | _ <;> simp [hempty] <;> decide
  · rw [if_neg hempty]
    rcases access.registerIs64bit with _ | _ <;> simp [hempty] <;> decide

theorem ris_bit4 (access : MmioAccess) (d : VirtualPl011) :
    access.extend (d.status .ris) &&& 0x10 ≠ 0 ↔ d.queue ≠ [] := by
  rw [ne_eq (a := d.queue), VirtualPl011.queue_eq_nil, MmioAccess.extend, VirtualPl011.status]
  by_cases hempty : d.rxLen = 0
  · rw [if_neg (not_not.mpr hempty)]
    rcases access.registerIs64bit with _ | _ <;> simp [hempty]
  · rw [if_pos hempty]
    rcases access.registerIs64bit with _ | _ <;> simp [hempty] <;> decide

/-- The interrupt is pending exactly when a byte waits and its mask bit is set. -/
theorem rxIrqPending_iff (d : VirtualPl011) :
    d.rxIrqPending = true ↔ d.queue ≠ [] ∧ d.imsc &&& 0x10 ≠ 0 := by
  rw [ne_eq (a := d.queue), VirtualPl011.queue_eq_nil]
  have hrxim : rxim = 0x10 := rfl
  simp [VirtualPl011.rxIrqPending, hrxim]

theorem mis_bit4 (access : MmioAccess) (d : VirtualPl011) :
    access.extend (d.status .mis) &&& 0x10 ≠ 0 ↔ d.queue ≠ [] ∧ d.imsc &&& 0x10 ≠ 0 := by
  rw [← rxIrqPending_iff, MmioAccess.extend, VirtualPl011.status]
  rcases d.rxIrqPending with _ | _
  · rcases access.registerIs64bit with _ | _ <;> simp
  · rcases access.registerIs64bit with _ | _ <;> simp <;> decide

/-! ## One operation -/

/-- A byte from the host is appended, or the device stays as it is. -/
theorem step_enqueue (d : MmioDispatcher) (byte : UInt8) :
    ((d.step (.enqueue byte)).1.pl011.queue = Queue.step d.pl011.queue (.enqueue byte)) ∧
      Conforms d.pl011.queue d.pl011.imsc (.enqueue byte) (d.step (.enqueue byte)).2 ∧
      (¬ d.pl011.queue.length < 64 → (d.step (.enqueue byte)).1 = d) := by
  obtain ⟨pl011, hrun, hfull, hqueue⟩ := VirtualPl011.enqueueRx_run (ε := Unit) byte d.pl011
  have hstep : d.step (.enqueue byte) =
      ({ d with pl011 }, .enqueued (decide (d.pl011.queue.length < 64))) := by
    simp only [MmioDispatcher.step, MmioDispatcher.enqueuePl011Rx, run_zoom, hrun]
  rw [hstep]
  refine ⟨hqueue, rfl, fun h => ?_⟩
  rw [hfull h]

/-- The queue of the receiver only sees the loads of the data register. -/
theorem Emulates.queue {bus bus' : Bus} {byte : Option UInt8}
    (h : Emulates access bus (.ok byte bus')) :
    bus'.dispatcher.pl011.queue =
      if access.Reads .dr then bus.dispatcher.pl011.queue.tail
      else bus.dispatcher.pl011.queue := by
  have hkeep : ∀ {r : Pl011Register}, access.pl011Register = some r → r ≠ .dr →
      ¬ access.Reads .dr := by
    intro r hr hne hreads
    exact hne (Option.some.inj (hr.symm.trans hreads.1))
  have hgicd : ∀ {offset : UInt64}, guestGicd.offset access.ipa = some offset →
      ¬ access.Reads .dr := by
    intro offset hoffset hreads
    simp [MmioAccess.Reads, MmioAccess.pl011Register, hoffset] at hreads
  have hdir : access.isWrite = true → ¬ access.Reads .dr := by
    intro hwrite hreads
    rw [hreads.2.1] at hwrite
    exact Bool.false_ne_true hwrite
  cases h with
  | gicdWrite hoffset hwidth hwrite | gicdRead hoffset hwidth hread =>
    rw [if_neg (hgicd hoffset)]
    rfl
  | pl011Transmit hpl011 hwidth hwrite => rw [if_neg (hdir hwrite)]
  | pl011Write hpl011 hwidth hwrite hregister =>
    rw [if_neg (hdir hwrite)]
    simp only [Bus.withPl011, VirtualPl011.stored]
    split <;> rfl
  | pl011Receive hpl011 hwidth hread =>
    rw [if_pos ⟨hpl011, hread, hwidth⟩]
    exact VirtualPl011.queue_dropFront _
  | pl011Read hpl011 hwidth hread hregister =>
    rw [if_neg (hkeep hpl011 hregister)]
    rfl

/-- A load that the PL011 answers succeeds, and delivers the register it names. -/
theorem Emulates.reads {bus : Bus} {register : Pl011Register}
    {r : EStateM.Result (Stop MmioEmulationError) Bus (Option UInt8)} (h : Emulates access bus r)
    (hreads : access.Reads register) :
    ∃ bus', r = .ok none bus' ∧ bus'.registers = access.deliver
      (if register = .dr then bus.dispatcher.pl011.front.toUInt64
        else bus.dispatcher.pl011.status register) bus.registers := by
  obtain ⟨hregister, hread, hwidth⟩ := hreads
  by_cases hdr : register = .dr
  · subst hdr
    exact ⟨_, h.unique (.pl011Receive hregister hwidth hread), rfl⟩
  · rw [if_neg hdr]
    exact ⟨_, h.unique (.pl011Read hregister hwidth hread hdr), rfl⟩

/-- A failed access changes nothing, and no access panics. -/
theorem Emulates.error {bus bus' : Bus} {stop : Stop MmioEmulationError}
    (h : Emulates access bus (.error stop bus')) : bus' = bus ∧ ∃ e, stop = .error e := by
  cases h with
  | unmapped | gicdWidth | pl011Width => exact ⟨rfl, _, rfl⟩

theorem step_emulate (d : MmioDispatcher) (access : MmioAccess) (decoded : access.Decoded)
    (registers : Registers) :
    ((d.step (.emulate access decoded registers)).1.pl011.queue =
        Queue.step d.pl011.queue (.emulate access decoded registers)) ∧
      Conforms d.pl011.queue d.pl011.imsc (.emulate access decoded registers)
        (d.step (.emulate access decoded registers)).2 := by
  have hrun := MmioDispatcher.emulate_run decoded ⟨d, registers⟩
  simp only [MmioDispatcher.step, Queue.step]
  generalize (MmioDispatcher.emulate access).run ⟨d, registers⟩ = r at hrun
  rcases r with ⟨byte, bus⟩ | ⟨stop, bus⟩
  · refine ⟨hrun.queue, ?_⟩
    -- One status register after the other; each is what the access delivers.
    have hdelivers : ∀ {register : Pl011Register}, access.Reads register → byte = none ∧
        bus.registers = access.deliver (if register = .dr then d.pl011.front.toUInt64
          else d.pl011.status register) registers := by
      intro register hreads
      obtain ⟨bus', heq, hregisters⟩ := hrun.reads hreads
      cases heq
      exact ⟨rfl, hregisters⟩
    refine ⟨?_, ?_, ?_, ?_⟩
    · intro hreads
      obtain ⟨rfl, hregisters⟩ := hdelivers hreads
      exact ⟨rfl, hregisters⟩
    · intro hreads h31
      rw [(hdelivers hreads).2, if_neg (by decide), showsBit4_deliver decoded h31]
      exact fr_bit4 access d.pl011
    · intro hreads h31
      rw [(hdelivers hreads).2, if_neg (by decide), showsBit4_deliver decoded h31]
      exact ris_bit4 access d.pl011
    · intro hreads h31
      rw [(hdelivers hreads).2, if_neg (by decide), showsBit4_deliver decoded h31]
      exact mis_bit4 access d.pl011
  · obtain ⟨rfl, e, rfl⟩ := hrun.error
    -- A load that the PL011 answers does not fail.
    have hnot : ∀ {register : Pl011Register}, ¬ access.Reads register := by
      intro register hreads
      obtain ⟨bus', heq, -⟩ := hrun.reads hreads
      cases heq
    refine ⟨?_, ?_, ?_, ?_, ?_⟩
    · rw [if_neg hnot]
    all_goals exact fun hreads => absurd hreads hnot

theorem step_conforms (d : MmioDispatcher) (op : Op) :
    ((d.step op).1.pl011.queue = Queue.step d.pl011.queue op) ∧
      Conforms d.pl011.queue d.pl011.imsc op (d.step op).2 := by
  cases op with
  | enqueue byte => exact ⟨(step_enqueue d byte).1, (step_enqueue d byte).2.1⟩
  | emulate access decoded registers => exact step_emulate d access decoded registers

/-! ## Every run -/

theorem queue_run (d : MmioDispatcher) (ops : List Op) :
    (d.run ops).pl011.queue = ops.foldl Queue.step d.pl011.queue := by
  induction ops generalizing d with
  | nil => rfl
  | cons op ops ih =>
    show ((d.step op).1.run ops).pl011.queue = ops.foldl Queue.step (Queue.step d.pl011.queue op)
    rw [ih, (step_conforms d op).1]

/-- The receiver is a bounded FIFO: after any sequence of host bytes and guest accesses the ring
holds the abstract queue, at most 64 bytes long; the next operation changes it as the abstract
queue changes and has the outcome that queue calls for, which is never a panic; a byte that finds
the queue full changes nothing at all; and the receive interrupt is pending exactly when a byte
waits and the mask lets it through. -/
theorem receiver_refines_queue (ops : List Op) :
    let d := MmioDispatcher.default.run ops
    let q := ops.foldl Queue.step []
    d.pl011.queue = q ∧ q.length ≤ 64 ∧
      (d.pl011RxIrqPending = true ↔ q ≠ [] ∧ d.pl011.imsc &&& 0x10 ≠ 0) ∧
      (∀ byte, ¬ q.length < 64 → (d.step (.enqueue byte)).1 = d) ∧
      ∀ op, (d.step op).1.pl011.queue = Queue.step q op ∧
        Conforms q d.pl011.imsc op (d.step op).2 := by
  intro d q
  have hqueue : d.pl011.queue = q := by
    have hrun := queue_run MmioDispatcher.default ops
    rwa [show MmioDispatcher.default.pl011.queue = [] from VirtualPl011.queue_default] at hrun
  refine ⟨hqueue, ?_, ?_, ?_, ?_⟩
  · rw [← hqueue, VirtualPl011.length_queue]
    exact d.pl011.rxLen_le
  · rw [← hqueue]
    exact rxIrqPending_iff d.pl011
  · intro byte
    rw [← hqueue]
    exact (step_enqueue d byte).2.2
  · intro op
    rw [← hqueue]
    exact step_conforms d op

end Tvisor.Mmio
