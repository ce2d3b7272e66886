/-
# Tvisor.Mmio.Effects -- what one emulated access does

`Emulates` lists every way an access through the dispatcher can end: which device it reaches, the
result it returns and the one thing it changes. `emulate_run` says that the code does nothing else,
for every access whose register number the decoder can produce. The later files only read this list.
-/
import Tvisor.Mmio

namespace Tvisor.Mmio

open Fallible

variable {access : MmioAccess} {offset value : UInt64} {width : UInt8}

/-! ## The receive queue -/

namespace VirtualPl011

variable (d : VirtualPl011)

/-- The bytes in the receive FIFO, oldest first. -/
def queue : List UInt8 := Ring.contents d.rx d.rxHead d.rxLen

/-- The byte that the next read of the data register delivers. -/
def front : UInt8 := d.queue.headD 0

theorem wrapped_lt : (d.rxHead + 1) % 64 < 64 := Nat.mod_lt _ (by decide)

theorem shorter_le : d.rxLen - 1 ≤ 64 :=
  Nat.le_trans (Nat.sub_le _ _) d.rxLen_le

/-- The device after a read of the data register. -/
def dropFront : VirtualPl011 :=
  if d.rxLen = 0 then d
  else { d with
    rxHead := (d.rxHead + 1) % 64
    rxLen := d.rxLen - 1
    rxHead_lt := d.wrapped_lt
    rxLen_le := d.shorter_le }

theorem length_queue : d.queue.length = d.rxLen := Ring.length_contents _ _ _

variable {d} in
theorem queue_eq_nil : d.queue = [] ↔ d.rxLen = 0 := Ring.contents_eq_nil

theorem queue_default : VirtualPl011.default.queue = [] := queue_eq_nil.mpr rfl

theorem slot_head : Ring.slot 64 d.rxHead 0 = ⟨d.rxHead, d.rxHead_lt⟩ :=
  Fin.ext (Nat.mod_eq_of_lt d.rxHead_lt)

variable {d} in
theorem queue_of_pos (h : d.rxLen ≠ 0) :
    d.queue = d.rx.get ⟨d.rxHead, d.rxHead_lt⟩ :: d.dropFront.queue := by
  rw [dropFront, if_neg h, ← slot_head d]
  exact Ring.contents_pop d.rx d.rxHead h

theorem queue_dropFront : d.dropFront.queue = d.queue.tail := by
  by_cases h : d.rxLen = 0
  · rw [dropFront, if_pos h, queue_eq_nil.mpr h, List.tail_nil]
  · rw [queue_of_pos h, List.tail_cons]

theorem dequeueRx_run {ε : Type} :
    (dequeueRx : EStateM (Stop ε) VirtualPl011 UInt8).run d = .ok d.front d.dropFront := by
  by_cases h : d.rxLen = 0
  · simp [dequeueRx, front, dropFront, h, queue_eq_nil.mpr h]
  · have hfront : d.front = d.rx.get ⟨d.rxHead, d.rxHead_lt⟩ := by
      rw [front, queue_of_pos h, List.headD_cons]
    simp only [dequeueRx, EStateM.run_bind, EStateM.run_get, if_neg h, readAt_of_lt d.rxHead_lt,
      EStateM.run_pure, EStateM.run_set, hfront, dropFront]

/-- A byte is appended exactly when there is room for it. -/
theorem enqueueRx_run {ε : Type} (byte : UInt8) (d : VirtualPl011) :
    ∃ d', (enqueueRx byte : EStateM (Stop ε) VirtualPl011 Bool).run d =
        .ok (decide (d.queue.length < 64)) d' ∧ (¬ d.queue.length < 64 → d' = d) ∧
      d'.queue = if d.queue.length < 64 then d.queue ++ [byte] else d.queue := by
  rw [length_queue]
  by_cases h : d.rxLen = 64
  · refine ⟨d, ?_, fun _ => rfl, ?_⟩
    · simp [enqueueRx, h]
    · simp [h]
  · have hlt : d.rxLen < 64 := Nat.lt_of_le_of_ne d.rxLen_le h
    have htail : (d.rxHead + d.rxLen) % 64 < 64 := Nat.mod_lt _ (by decide)
    refine ⟨{ d with rx := d.rx.set ((d.rxHead + d.rxLen) % 64) byte, rxLen := d.rxLen + 1,
                     rxLen_le := hlt }, ?_, fun hfull => absurd hlt hfull, ?_⟩
    · simp only [enqueueRx, EStateM.run_bind, EStateM.run_get, dif_neg h, writeAt_of_lt htail,
        EStateM.run_pure, EStateM.run_set, hlt, decide_true]
    · rw [if_pos hlt]
      exact Ring.contents_push d.rx d.rxHead hlt byte

end VirtualPl011

/-! ## The register file -/

/-- The decoder's register numbers. -/
def MmioAccess.Decoded (access : MmioAccess) : Prop := access.register ≤ 31

/-- What a store takes from the register file; the zero register is in no slot of it. -/
def MmioAccess.source (access : MmioAccess) (registers : Registers) : UInt64 :=
  if h : access.register.toNat < 31 then registers.get ⟨access.register.toNat, h⟩ else 0

/-- A read result as the target register sees it. -/
def MmioAccess.extend (access : MmioAccess) (result : UInt64) : UInt64 :=
  if access.registerIs64bit then result else result.toUInt32.toUInt64

/-- The register file after a read. -/
def MmioAccess.deliver (access : MmioAccess) (result : UInt64) (registers : Registers) :
    Registers :=
  if h : access.register.toNat < 31 then
    registers.set access.register.toNat (access.extend result) h
  else registers

theorem MmioAccess.Decoded.index_lt_iff (h : access.Decoded) :
    access.register.toNat < 31 ↔ access.register ≠ 31 := by
  have hle : access.register.toNat ≤ 31 := h
  have hinj : access.register = 31 ↔ access.register.toNat = 31 := UInt8.toNat_inj.symm
  rw [ne_eq, hinj]
  omega

namespace MmioDispatcher

theorem sourceValue_run (h : access.Decoded) (bus : Bus) :
    (sourceValue access).run bus = .ok (access.source bus.registers) bus := by
  unfold sourceValue MmioAccess.source
  by_cases h31 : access.register = 31
  · have hnot : ¬ access.register.toNat < 31 := fun hlt => h.index_lt_iff.mp hlt h31
    simp only [if_pos h31, dif_neg hnot, EStateM.run_pure]
  · have hlt := h.index_lt_iff.mpr h31
    simp only [if_neg h31, dif_pos hlt, EStateM.run_bind, EStateM.run_get, readAt_of_lt hlt,
      EStateM.run_pure]

theorem writeBack_run (h : access.Decoded) (result : UInt64) (bus : Bus) :
    (writeBack access result).run bus =
      .ok () { bus with registers := access.deliver result bus.registers } := by
  unfold writeBack MmioAccess.deliver
  by_cases h31 : access.register = 31
  · have hnot : ¬ access.register.toNat < 31 := fun hlt => h.index_lt_iff.mp hlt h31
    rw [dif_neg hnot, if_neg (not_not.mpr h31)]
    rfl
  · have hlt := h.index_lt_iff.mpr h31
    simp only [ne_eq, h31, not_false_eq_true, if_true, dif_pos hlt, EStateM.run_bind,
      EStateM.run_get, writeAt_of_lt hlt, EStateM.run_pure, EStateM.run_modify, MmioAccess.extend]

end MmioDispatcher

/-! ## One access -/

/-- The devices with another PL011. -/
def Bus.withPl011 (bus : Bus) (pl011 : VirtualPl011) : Bus :=
  { bus with dispatcher := { bus.dispatcher with pl011 } }

def Bus.withGicd (bus : Bus) (gicd : VirtualGicDistributor) : Bus :=
  { bus with dispatcher := { bus.dispatcher with gicd } }

/-- A read result arrives. -/
def Bus.deliver (bus : Bus) (access : MmioAccess) (result : UInt64) : Bus :=
  { bus with registers := access.deliver result bus.registers }

/-- The register that an access to the PL011 window names. -/
def MmioAccess.pl011Register (access : MmioAccess) : Option Pl011Register :=
  match guestGicd.offset access.ipa with
  | some _ => none
  | none => (guestPl011.offset access.ipa).map .ofOffset

/-- The distributor after a store to it. -/
def VirtualGicDistributor.stored (d : VirtualGicDistributor) (offset value : UInt64) :
    VirtualGicDistributor :=
  if offset = 0 then ⟨value.toUInt32 &&& 1⟩ else d

/-- The PL011 after a store to it. -/
def VirtualPl011.stored (d : VirtualPl011) (register : Pl011Register) (value : UInt64) :
    VirtualPl011 :=
  if register = .imsc then { d with imsc := value.toUInt32 } else d

/-- How an access can end, and with what effect. -/
inductive Emulates (access : MmioAccess) (bus : Bus) :
    EStateM.Result (Stop MmioEmulationError) Bus (Option UInt8) → Prop
  | unmapped (hgicd : guestGicd.offset access.ipa = none)
      (hpl011 : guestPl011.offset access.ipa = none) :
      Emulates access bus (.error (.error (.unmappedIpa access.ipa)) bus)
  | gicdWidth {offset : UInt64} (hgicd : guestGicd.offset access.ipa = some offset)
      (hwidth : ¬ Supported access.width) :
      Emulates access bus (.error (.error .gicDistributor) bus)
  | gicdWrite {offset : UInt64} (hgicd : guestGicd.offset access.ipa = some offset)
      (hwidth : Supported access.width) (hwrite : access.isWrite = true) :
      Emulates access bus (.ok none
        (bus.withGicd (bus.dispatcher.gicd.stored offset (access.source bus.registers))))
  | gicdRead {offset : UInt64} (hgicd : guestGicd.offset access.ipa = some offset)
      (hwidth : Supported access.width) (hread : access.isWrite = false) :
      Emulates access bus (.ok none (bus.deliver access (bus.dispatcher.gicd.status offset)))
  | pl011Width {register : Pl011Register} (hpl011 : access.pl011Register = some register)
      (hwidth : ¬ Supported access.width) :
      Emulates access bus (.error (.error (.pl011 (.unsupportedWidth access.width))) bus)
  | pl011Transmit (hpl011 : access.pl011Register = some .dr) (hwidth : Supported access.width)
      (hwrite : access.isWrite = true) :
      Emulates access bus (.ok (some (access.source bus.registers).toUInt8) bus)
  | pl011Write {register : Pl011Register} (hpl011 : access.pl011Register = some register)
      (hwidth : Supported access.width) (hwrite : access.isWrite = true)
      (hregister : register ≠ .dr) :
      Emulates access bus (.ok none
        (bus.withPl011 (bus.dispatcher.pl011.stored register (access.source bus.registers))))
  | pl011Receive (hpl011 : access.pl011Register = some .dr) (hwidth : Supported access.width)
      (hread : access.isWrite = false) :
      Emulates access bus (.ok none ((bus.withPl011 bus.dispatcher.pl011.dropFront).deliver access
        bus.dispatcher.pl011.front.toUInt64))
  | pl011Read {register : Pl011Register} (hpl011 : access.pl011Register = some register)
      (hwidth : Supported access.width) (hread : access.isWrite = false)
      (hregister : register ≠ .dr) :
      Emulates access bus (.ok none (bus.deliver access (bus.dispatcher.pl011.status register)))

/-- The access and the state before it decide how it ends. -/
theorem Emulates.unique {bus : Bus}
    {r r' : EStateM.Result (Stop MmioEmulationError) Bus (Option UInt8)}
    (h : Emulates access bus r) (h' : Emulates access bus r') : r = r' := by
  -- The window, the register, the width and the direction tell any two endings apart.
  have hgicd : ∀ {offset register}, guestGicd.offset access.ipa = some offset →
      access.pl011Register ≠ some register := by
    intro offset register hgicd
    simp [MmioAccess.pl011Register, hgicd]
  have hnone : guestGicd.offset access.ipa = none → guestPl011.offset access.ipa = none →
      access.pl011Register = none := by
    intro hgicd hpl011
    simp [MmioAccess.pl011Register, hgicd, hpl011]
  cases h <;> cases h' <;> simp_all

theorem pl011_access_width {isWrite : Bool} (hwidth : ¬ Supported width) (d : VirtualPl011) :
    (VirtualPl011.access offset isWrite width value).run d =
      .error (.error (.unsupportedWidth width)) d := by
  unfold VirtualPl011.access
  rw [if_pos hwidth]
  rfl

theorem pl011_access_write (hwidth : Supported width) (d : VirtualPl011) :
    (VirtualPl011.access offset true width value).run d =
      .ok (.write (if Pl011Register.ofOffset offset = .dr then some value.toUInt8 else none))
        (d.stored (.ofOffset offset) value) := by
  unfold VirtualPl011.access
  rw [if_neg (not_not.mpr hwidth), if_pos rfl]
  cases Pl011Register.ofOffset offset <;> rfl

theorem pl011_access_receive (hwidth : Supported width)
    (hoffset : Pl011Register.ofOffset offset = .dr) (d : VirtualPl011) :
    (VirtualPl011.access offset false width value).run d =
      .ok (.read d.front.toUInt64) d.dropFront := by
  unfold VirtualPl011.access
  simp only [if_neg (not_not.mpr hwidth), Bool.false_eq_true, if_false, hoffset, EStateM.run_bind,
    VirtualPl011.dequeueRx_run, EStateM.run_pure]

theorem pl011_access_read (hwidth : Supported width)
    (hoffset : Pl011Register.ofOffset offset ≠ .dr) (d : VirtualPl011) :
    (VirtualPl011.access offset false width value).run d =
      .ok (.read (d.status (.ofOffset offset))) d := by
  unfold VirtualPl011.access
  rw [if_neg (not_not.mpr hwidth), if_neg (by decide)]
  generalize Pl011Register.ofOffset offset = register at hoffset
  cases register with
  | dr => exact absurd rfl hoffset
  | _ => rfl

theorem gicd_access_width {isWrite : Bool} (hwidth : ¬ Supported width)
    (d : VirtualGicDistributor) :
    (VirtualGicDistributor.access offset isWrite width value).run d = .error (.error ()) d := by
  unfold VirtualGicDistributor.access
  rw [if_pos hwidth]
  rfl

theorem gicd_access_write (hwidth : Supported width) (d : VirtualGicDistributor) :
    (VirtualGicDistributor.access offset true width value).run d =
      .ok 0 (d.stored offset value) := by
  unfold VirtualGicDistributor.access VirtualGicDistributor.stored
  rw [if_neg (not_not.mpr hwidth), if_pos rfl]
  split <;> rfl

theorem gicd_access_read (hwidth : Supported width) (d : VirtualGicDistributor) :
    (VirtualGicDistributor.access offset false width value).run d = .ok (d.status offset) d := by
  unfold VirtualGicDistributor.access
  rw [if_neg (not_not.mpr hwidth), if_neg (by decide)]
  rfl

namespace MmioDispatcher

theorem onGicd_run (x : EStateM (Stop Unit) VirtualGicDistributor UInt64) (bus : Bus) :
    (onGicd x).run bus =
      match x.run bus.dispatcher.gicd with
      | .ok a gicd => .ok a (bus.withGicd gicd)
      | .error e gicd => .error (mapStop (fun _ => .gicDistributor) e) (bus.withGicd gicd) := by
  rw [onGicd, run_mapError, run_zoom]
  cases x.run bus.dispatcher.gicd <;> rfl

theorem onPl011_run (x : EStateM (Stop Pl011Error) VirtualPl011 Pl011Result) (bus : Bus) :
    (onPl011 x).run bus =
      match x.run bus.dispatcher.pl011 with
      | .ok a pl011 => .ok a (bus.withPl011 pl011)
      | .error e pl011 => .error (mapStop .pl011 e) (bus.withPl011 pl011) := by
  rw [onPl011, run_mapError, run_zoom]
  cases x.run bus.dispatcher.pl011 <;> rfl

/-- An access to the distributor window. -/
theorem emulate_gicd (h : access.Decoded) {offset : UInt64}
    (hgicd : guestGicd.offset access.ipa = some offset) (bus : Bus) :
    Emulates access bus ((emulate access).run bus) := by
  unfold emulate
  simp only [hgicd, EStateM.run_bind, sourceValue_run h, onGicd_run]
  by_cases hwidth : Supported access.width
  · rcases hdir : access.isWrite with _ | _
    · simp only [gicd_access_read hwidth, Bool.not_false, if_true, writeBack_run h,
        EStateM.run_pure]
      exact .gicdRead hgicd hwidth hdir
    · simp only [gicd_access_write hwidth, Bool.not_true, Bool.false_eq_true, if_false,
        EStateM.run_pure]
      exact .gicdWrite hgicd hwidth hdir
  · simp only [gicd_access_width hwidth]
    exact .gicdWidth hgicd hwidth

/-- An access to the PL011 window. -/
theorem emulate_pl011 (h : access.Decoded) {offset : UInt64}
    (hgicd : guestGicd.offset access.ipa = none)
    (hpl011 : guestPl011.offset access.ipa = some offset) (bus : Bus) :
    Emulates access bus ((emulate access).run bus) := by
  have hregister : access.pl011Register = some (.ofOffset offset) := by
    simp [MmioAccess.pl011Register, hgicd, hpl011]
  unfold emulate
  simp only [hgicd, hpl011, EStateM.run_bind, sourceValue_run h, onPl011_run]
  by_cases hwidth : Supported access.width
  · rcases hdir : access.isWrite with _ | _
    · by_cases hdr : Pl011Register.ofOffset offset = .dr
      · simp only [pl011_access_receive hwidth hdr, EStateM.run_bind, writeBack_run h,
          EStateM.run_pure]
        exact .pl011Receive (hdr ▸ hregister) hwidth hdir
      · simp only [pl011_access_read hwidth hdr, EStateM.run_bind, writeBack_run h,
          EStateM.run_pure]
        exact .pl011Read hregister hwidth hdir hdr
    · simp only [pl011_access_write hwidth, EStateM.run_pure]
      by_cases hdr : Pl011Register.ofOffset offset = .dr
      · rw [if_pos hdr, hdr]
        exact .pl011Transmit (hdr ▸ hregister) hwidth hdir
      · rw [if_neg hdr]
        exact .pl011Write hregister hwidth hdir hdr
  · simp only [pl011_access_width hwidth]
    exact .pl011Width hregister hwidth

/-- The code does what the list says, and never indexes an array out of bounds. -/
theorem emulate_run (h : access.Decoded) (bus : Bus) :
    Emulates access bus ((emulate access).run bus) := by
  rcases hgicd : guestGicd.offset access.ipa with _ | offset
  · rcases hpl011 : guestPl011.offset access.ipa with _ | offset
    · have hrun : (emulate access).run bus = .error (.error (.unmappedIpa access.ipa)) bus := by
        simp only [emulate, hgicd, hpl011]
        rfl
      rw [hrun]
      exact .unmapped hgicd hpl011
    · exact emulate_pl011 h hgicd hpl011 bus
  · exact emulate_gicd h hgicd bus

end MmioDispatcher

end Tvisor.Mmio
