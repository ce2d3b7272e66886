/-
# Tvisor.GuestExit.AllOrNothing -- when a failed access leaves no trace

The device acts, the register is written, and only then is the program counter advanced. A refused
access has changed nothing. An access that is completed and then cannot advance the program counter
has: `all_or_nothing_iff` says that this is the only way an error leaves a trace, and what has to be
the case for it.
-/
import Tvisor.GuestExit

namespace Tvisor.GuestExit

open Fallible Mmio

variable {access : MmioAccess} {x : Registers} {d : MmioDispatcher}

/-! ## Accesses that change something -/

variable {value offset : UInt64} {bus : Bus} {byte : Option UInt8}

/-- The word that a load of this address shows. -/
def shown (d : MmioDispatcher) (access : MmioAccess) : UInt64 :=
  match guestGicd.offset access.ipa, access.pl011Register with
  | some offset, _ => d.gicd.status offset
  | none, some .dr => d.pl011.front.toUInt64
  | none, some register => d.pl011.status register
  | none, none => 0

/-- A device takes the access. -/
def Taken (access : MmioAccess) : Prop :=
  Supported access.width ∧
    ((guestGicd.offset access.ipa).isSome = true ∨ access.pl011Register.isSome = true)

/-- The access changes a device or a register: a store of another value than the one held, a load
that removes a byte from the receive queue, or a load of another value than its target holds. -/
def Disturbs (d : MmioDispatcher) (x : Registers) (access : MmioAccess) : Prop :=
  if access.isWrite then
    (guestGicd.offset access.ipa = some 0 ∧ (access.source x).toUInt32 &&& 1 ≠ d.gicd.ctlr) ∨
      (access.pl011Register = some .imsc ∧ (access.source x).toUInt32 ≠ d.pl011.imsc)
  else
    (access.pl011Register = some .dr ∧ d.pl011.queue ≠ []) ∨
      (access.register ≠ 31 ∧ access.extend (shown d access) ≠ access.source x)

theorem deliver_eq_self_iff (h : access.Decoded) :
    access.deliver value x = x ↔ access.register = 31 ∨ access.extend value = access.source x := by
  by_cases h31 : access.register = 31
  · have hnot : ¬ access.register.toNat < 31 := fun hlt => h.index_lt_iff.mp hlt h31
    rw [MmioAccess.deliver, dif_neg hnot]
    simp [h31]
  · have hlt := h.index_lt_iff.mpr h31
    constructor
    · intro heq
      right
      rw [← source_deliver h h31 value x, heq]
    · rintro (heq | heq)
      · exact absurd heq h31
      · rw [MmioAccess.deliver, dif_pos hlt, heq, MmioAccess.source, dif_pos hlt]
        exact Vector.set_getElem_self hlt

/-- The dispatcher completes exactly the accesses that a device takes. -/
theorem taken_iff_isOk {r : EStateM.Result (Stop MmioEmulationError) Bus (Option UInt8)}
    (h : Emulates access bus r) :
    Taken access ↔ isOk r = true := by
  cases h with
  | unmapped hgicd hpl011 =>
    simp [Taken, isOk, MmioAccess.pl011Register, hgicd, hpl011]
  | gicdWidth _ hwidth => simp [Taken, isOk, hwidth]
  | gicdWrite hgicd hwidth | gicdRead hgicd hwidth => simp [Taken, isOk, hgicd, hwidth]
  | pl011Width _ hwidth => simp [Taken, isOk, hwidth]
  | pl011Transmit hpl011 hwidth | pl011Write hpl011 hwidth | pl011Receive hpl011 hwidth
  | pl011Read hpl011 hwidth => simp [Taken, isOk, hpl011, hwidth]

theorem gicd_none_of_pl011 {register : Pl011Register} (h : access.pl011Register = some register) :
    guestGicd.offset access.ipa = none := by
  rcases hgicd : guestGicd.offset access.ipa with _ | offset
  · rfl
  · simp [MmioAccess.pl011Register, hgicd] at h

theorem dropFront_eq_self_iff {d : VirtualPl011} : d.dropFront = d ↔ d.queue = [] := by
  rw [VirtualPl011.queue_eq_nil]
  by_cases h : d.rxLen = 0
  · simp [VirtualPl011.dropFront, h]
  · simp only [h, iff_false]
    intro heq
    have hlen := congrArg VirtualPl011.rxLen heq
    simp only [VirtualPl011.dropFront, if_neg h] at hlen
    omega

/-- A store to the distributor changes nothing exactly when it stores what is held. -/
theorem withGicd_stored_eq_self_iff :
    Bus.withGicd ⟨d, x⟩ (d.gicd.stored offset value) = ⟨d, x⟩ ↔
      ¬ (offset = 0 ∧ value.toUInt32 &&& 1 ≠ d.gicd.ctlr) := by
  obtain ⟨pl011, ⟨ctlr⟩⟩ := d
  by_cases h : offset = 0
  · simp [Bus.withGicd, VirtualGicDistributor.stored, h]
  · simp [Bus.withGicd, VirtualGicDistributor.stored, h]

theorem withPl011_stored_eq_self_iff {register : Pl011Register} :
    Bus.withPl011 ⟨d, x⟩ (d.pl011.stored register value) = ⟨d, x⟩ ↔
      ¬ (register = .imsc ∧ value.toUInt32 ≠ d.pl011.imsc) := by
  obtain ⟨⟨imsc, rx, rxHead, rxLen, hhead, hlen⟩, gicd⟩ := d
  by_cases h : register = .imsc
  · simp [Bus.withPl011, VirtualPl011.stored, h]
  · simp [Bus.withPl011, VirtualPl011.stored, h]

theorem deliver_bus_eq_iff (hdecoded : access.Decoded) {d d' : MmioDispatcher} :
    Bus.deliver ⟨d', x⟩ access value = ⟨d, x⟩ ↔
      d' = d ∧ ¬ (access.register ≠ 31 ∧ access.extend value ≠ access.source x) := by
  rw [Bus.deliver, Bus.mk.injEq, deliver_eq_self_iff hdecoded]
  constructor
  · rintro ⟨hd, h⟩
    exact ⟨hd, fun hnot => h.elim hnot.1 hnot.2⟩
  · rintro ⟨hd, h⟩
    refine ⟨hd, ?_⟩
    by_cases h31 : access.register = 31
    · exact .inl h31
    · exact .inr (not_not.mp fun hne => h ⟨h31, hne⟩)

/-- A completed access leaves everything as it was exactly when it disturbs nothing. -/
theorem undisturbed_iff (hdecoded : access.Decoded) (h : Emulates access ⟨d, x⟩ (.ok byte bus)) :
    bus = ⟨d, x⟩ ↔ ¬ Disturbs d x access := by
  unfold Disturbs
  cases h with
  | @gicdWrite offset hgicd hwidth hwrite =>
    have hnone : access.pl011Register ≠ some .imsc := by simp [MmioAccess.pl011Register, hgicd]
    rw [if_pos hwrite, withGicd_stored_eq_self_iff]
    simp [hgicd, hnone]
  | @gicdRead offset hgicd hwidth hread =>
    have hnone : access.pl011Register ≠ some .dr := by simp [MmioAccess.pl011Register, hgicd]
    have hshown : shown d access = d.gicd.status offset := by simp [shown, hgicd]
    rw [if_neg (by simp [hread]), deliver_bus_eq_iff hdecoded, hshown]
    simp [hnone]
  | pl011Transmit hpl011 hwidth hwrite =>
    rw [if_pos hwrite]
    simp [gicd_none_of_pl011 hpl011, hpl011]
  | @pl011Write register hpl011 hwidth hwrite hdr =>
    rw [if_pos hwrite, withPl011_stored_eq_self_iff]
    simp [gicd_none_of_pl011 hpl011, hpl011]
  | pl011Receive hpl011 hwidth hread =>
    have hshown : shown d access = d.pl011.front.toUInt64 := by
      simp [shown, gicd_none_of_pl011 hpl011, hpl011]
    have hsame : ({ d with pl011 := d.pl011.dropFront } : MmioDispatcher) = d ↔
        d.pl011.queue = [] := by
      rw [← dropFront_eq_self_iff]
      obtain ⟨pl011, gicd⟩ := d
      simp
    rw [if_neg (by simp [hread]), Bus.withPl011, deliver_bus_eq_iff hdecoded, hsame, hshown]
    simp [hpl011]
  | @pl011Read register hpl011 hwidth hread hdr =>
    have hshown : shown d access = d.pl011.status register := by
      cases register with
      | dr => exact absurd rfl hdr
      | _ => simp [shown, gicd_none_of_pl011 hpl011, hpl011]
    rw [if_neg (by simp [hread]), deliver_bus_eq_iff hdecoded, hshown]
    simp [hpl011, hdr]

/-- What a completed access amounts to. -/
structure Completed (access : MmioAccess) (context : VcpuContext) (byte : Option UInt8)
    (context' : VcpuContext) : Prop where
  pc : context'.elrEl2.toNat = context.elrEl2.toNat + 4
  others : ∀ r : Fin 31, access.register.toNat ≠ r → context'.x.get r = context.x.get r
  kept : access.isWrite = true ∨ access.register = 31 → context'.x = context.x
  transmits : byte.isSome = true ↔ access.isWrite = true ∧ access.ipa = guestPl011.start

/-- A failed access leaves no trace, and a completed one advances the program counter, changes at
most the target of a load and transmits exactly on a store to the PL011 data register. -/
def AllOrNothing (context : VcpuContext) (exit : VcpuExit) (d : MmioDispatcher) : Prop :=
  match (emulateStage2Mmio exit).run ⟨context, d⟩ with
  | .ok byte trap => ∃ access, decodeDataAbort exit.esrEl2 exit.faultIpa = .ok access ∧
      Completed access context byte trap.context
  | .error (.error _) trap => trap = ⟨context, d⟩
  | .error .panicked _ => False

theorem offset_eq_some {r : IpaRegion UInt64} {ipa : UInt64} (h : r.offset ipa = some offset) :
    r.start ≤ ipa ∧ ipa - r.start < r.size ∧ offset = ipa - r.start := by
  unfold IpaRegion.offset at h
  split_ifs at h with hle hlt
  exact ⟨hle, hlt, (Option.some.inj h).symm⟩

theorem eq_zero_of_ofOffset_dr (h : Pl011Register.ofOffset offset = .dr) :
    offset = 0 := by
  simp only [Pl011Register.ofOffset, ite_eq_iff, reduceCtorEq, and_false, or_false, and_true] at h
  exact h

/-- The data register is at the start of the PL011 window. -/
theorem pl011Register_dr_iff (access : MmioAccess) :
    access.pl011Register = some .dr ↔ access.ipa = guestPl011.start := by
  constructor
  · intro h
    have hgicd := gicd_none_of_pl011 h
    rw [MmioAccess.pl011Register, hgicd] at h
    obtain ⟨offset, hoffset, hdr⟩ := Option.map_eq_some_iff.mp h
    obtain ⟨hle, -, rfl⟩ := offset_eq_some hoffset
    have hzero : access.ipa - guestPl011.start = 0 := eq_zero_of_ofOffset_dr hdr
    rw [← UInt64.sub_add_cancel access.ipa guestPl011.start, hzero, UInt64.zero_add]
  · intro h
    rw [MmioAccess.pl011Register, h]
    decide

/-- The part of the register file that an access leaves alone. -/
theorem emulated_registers (hdecoded : access.Decoded) (h : Emulates access ⟨d, x⟩ (.ok byte bus)) :
    (∀ r : Fin 31, access.register.toNat ≠ r → bus.registers.get r = x.get r) ∧
      (access.isWrite = true ∨ access.register = 31 → bus.registers = x) := by
  have hdeliver : ∀ value : UInt64, access.isWrite = false →
      (∀ r : Fin 31, access.register.toNat ≠ r → (access.deliver value x).get r = x.get r) ∧
        (access.isWrite = true ∨ access.register = 31 → access.deliver value x = x) := by
    intro value hread
    refine ⟨?_, ?_⟩
    · intro r hr
      unfold MmioAccess.deliver
      split
      · exact Vector.getElem_set_ne _ _ hr
      · rfl
    · rintro (hwrite | h31)
      · simp [hread] at hwrite
      · exact (deliver_eq_self_iff hdecoded).mpr (.inl h31)
  cases h with
  | gicdWrite | pl011Transmit | pl011Write => exact ⟨fun _ _ => rfl, fun _ => rfl⟩
  | gicdRead _ _ hread | pl011Receive _ _ hread | pl011Read _ _ hread => exact hdeliver _ hread

/-- A byte is transmitted exactly on a store to the data register. -/
theorem emulated_transmits {bus' : Bus} (h : Emulates access bus (.ok byte bus')) :
    byte.isSome = true ↔ access.isWrite = true ∧ access.ipa = guestPl011.start := by
  rw [← pl011Register_dr_iff]
  cases h with
  | gicdWrite hgicd | gicdRead hgicd => simp [MmioAccess.pl011Register, hgicd]
  | pl011Transmit hpl011 _ hwrite => simp [hpl011, hwrite]
  | pl011Write hpl011 _ _ hdr => simp [hpl011, hdr]
  | pl011Receive _ _ hread => simp [hread]
  | pl011Read _ _ hread => simp [hread]

/-- The access disturbs the guest and then finds the program counter at the top of the address
space. -/
def Stranded (context : VcpuContext) (exit : VcpuExit) (d : MmioDispatcher) : Prop :=
  2 ^ 64 ≤ context.elrEl2.toNat + 4 ∧ ∃ access,
    decodeDataAbort exit.esrEl2 exit.faultIpa = .ok access ∧ Taken access ∧
      Disturbs d context.x access

/-- Emulation is all or nothing exactly when the access is not stranded. -/
theorem all_or_nothing_iff (context : VcpuContext) (exit : VcpuExit) (d : MmioDispatcher) :
    AllOrNothing context exit d ↔ ¬ Stranded context exit d := by
  unfold AllOrNothing Stranded
  rcases hdecode : decodeDataAbort exit.esrEl2 exit.faultIpa with error | access
  · rw [emulateStage2Mmio_decode hdecode]
    simp
  obtain ⟨-, hdecoded, -⟩ := decodeDataAbort_ok hdecode
  have hrun := MmioDispatcher.emulate_run hdecoded ⟨d, context.x⟩
  have htaken := taken_iff_isOk hrun
  rcases hresult : (MmioDispatcher.emulate access).run ⟨d, context.x⟩ with ⟨byte, bus⟩ | ⟨stop, bus⟩
  · rw [hresult] at hrun htaken
    rw [emulateStage2Mmio_completed ⟨context, d⟩ hdecode hresult]
    by_cases hpc : context.elrEl2.toNat + 4 < 2 ^ 64
    · rw [if_pos hpc]
      refine iff_of_true ⟨access, rfl, ?_⟩ fun hnot => absurd hnot.1 (by omega)
      obtain ⟨hothers, hkept⟩ := emulated_registers hdecoded hrun
      refine ⟨?_, hothers, hkept, emulated_transmits hrun⟩
      show (context.elrEl2 + 4).toNat = context.elrEl2.toNat + 4
      rw [UInt64.toNat_add]
      exact Nat.mod_eq_of_lt hpc
    · rw [if_neg hpc]
      -- The effect has taken place; what remains is whether there was one.
      have hsame : (⟨context.withX bus.registers, bus.dispatcher⟩ : Trap) = ⟨context, d⟩ ↔
          bus = ⟨d, context.x⟩ := by
        obtain ⟨dispatcher, registers⟩ := bus
        obtain ⟨x, elr⟩ := context
        simp [VcpuContext.withX, and_comm]
      show (⟨context.withX bus.registers, bus.dispatcher⟩ : Trap) = ⟨context, d⟩ ↔ _
      rw [hsame, undisturbed_iff hdecoded hrun]
      have hok : Taken access := htaken.mpr rfl
      constructor
      · rintro hnot ⟨-, access', heq, -, hdisturbs⟩
        cases heq
        exact hnot hdisturbs
      · intro hnot hdisturbs
        exact hnot ⟨Nat.le_of_not_lt hpc, access, rfl, hok, hdisturbs⟩
  · rw [hresult] at hrun htaken
    obtain ⟨hbus, error, rfl⟩ := hrun.error
    rw [emulateStage2Mmio_refused ⟨context, d⟩ hdecode hresult hbus]
    refine iff_of_true rfl ?_
    rintro ⟨-, access', heq, hok, -⟩
    cases heq
    exact Bool.false_ne_true (htaken.mp hok)

/-- A byte load of the empty receive queue into a register that holds something else, with the
program counter at the last instruction of the address space: the load has taken place when the
error is returned. -/
theorem not_all_or_nothing_at_top :
    ¬ AllOrNothing ⟨Vector.replicate 31 7, 0xfffffffffffffffc⟩
      ⟨8, 0x93050000, 0x09000000, 0x90000⟩ .default := by
  intro h
  have hsame : (⟨⟨(Vector.replicate 31 7).set 5 0, 0xfffffffffffffffc⟩, .default⟩ : Trap) =
      ⟨⟨Vector.replicate 31 7, 0xfffffffffffffffc⟩, .default⟩ := h
  exact absurd (congrArg (fun trap => trap.context.x.get 5) hsame) (by decide)

end Tvisor.GuestExit
