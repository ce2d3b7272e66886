/-
# Tvisor.GuestExit.Panics -- which guest accesses panic

The handler tests the address of a data abort against the two device windows and panics when the
emulation returns an error. The dispatcher knows every address that passes the test, so what is left
are the errors of the decoder, of the devices' widths and of the program counter: `handled_iff` says
exactly which exits reach one of them.
-/
import Tvisor.GuestExit.AllOrNothing

namespace Tvisor.GuestExit

open Fallible Mmio

/-! ## Syndromes and windows -/

/-- The addresses that the handler's own range test accepts. -/
def Trapped (ipa : UInt64) : Prop :=
  inRange guestGicd.start (guestGicd.start + guestGicd.size) ipa = true ∨
    inRange guestPl011.start (guestPl011.start + guestPl011.size) ipa = true

/-- A syndrome that no device can serve: none given, an eight-byte access, or a sign-extending
load. -/
def Unservable (esr : UInt64) : Prop :=
  issOf esr &&& esrIsv = 0 ∨ (issOf esr >>> esrSasShift) &&& 0x3 = 3 ∨
    (issOf esr &&& esrWnr = 0 ∧ issOf esr &&& esrSse ≠ 0)

theorem widthOf_cases (word : UInt32) :
    (word &&& 0x3 = 3 ∧ widthOf (word &&& 0x3) = .ok 8) ∨
      (word &&& 0x3 ≠ 3 ∧ ∃ width, widthOf (word &&& 0x3) = .ok width ∧ Supported width) := by
  have hle : (word &&& 0x3).toNat ≤ 3 := UInt32.and_le_right
  generalize word &&& 0x3 = sas at hle
  have hsas : sas = 0 ∨ sas = 1 ∨ sas = 2 ∨ sas = 3 := by
    have hcases : sas.toNat = 0 ∨ sas.toNat = 1 ∨ sas.toNat = 2 ∨ sas.toNat = 3 := by omega
    rcases hcases with h | h | h | h
    · exact .inl (UInt32.toNat_inj.mp h)
    · exact .inr (.inl (UInt32.toNat_inj.mp h))
    · exact .inr (.inr (.inl (UInt32.toNat_inj.mp h)))
    · exact .inr (.inr (.inr (UInt32.toNat_inj.mp h)))
  rcases hsas with rfl | rfl | rfl | rfl
  · exact .inr ⟨by decide, 1, rfl, .inl rfl⟩
  · exact .inr ⟨by decide, 2, rfl, .inr (.inl rfl)⟩
  · exact .inr ⟨by decide, 4, rfl, .inr (.inr rfl)⟩
  · exact .inl ⟨rfl, rfl⟩

/-- The decoder and the devices' widths together refuse exactly the unservable syndromes. -/
theorem servable_iff (esr ipa : UInt64) :
    (∃ access, decodeDataAbort esr ipa = .ok access ∧ Supported access.width) ↔
      ¬ Unservable esr := by
  unfold Unservable
  simp only [decodeDataAbort]
  by_cases hisv : issOf esr &&& esrIsv = 0
  · simp [hisv]
  rw [if_neg hisv]
  have hnot8 : ¬ Supported 8 := by decide
  by_cases hsign : issOf esr &&& esrWnr = 0 ∧ issOf esr &&& esrSse ≠ 0
  · rcases widthOf_cases (issOf esr >>> esrSasShift) with ⟨-, hwidth⟩ | ⟨-, width, hwidth, -⟩
    · simp [hwidth, hsign]
    · simp [hwidth, hsign]
  · have hguard : (!(issOf esr &&& esrWnr != 0) && issOf esr &&& esrSse != 0) = false := by
      rw [Bool.eq_false_iff]
      intro h
      simp only [Bool.and_eq_true, Bool.not_eq_true', bne_eq_false_iff_eq, bne_iff_ne] at h
      exact hsign h
    rcases widthOf_cases (issOf esr >>> esrSasShift) with
      ⟨hsas, hwidth⟩ | ⟨hsas, width, hwidth, hsupported⟩
    · simp only [hwidth, hguard]
      simp [hsas, hnot8]
    · simp [hwidth, hguard, hsas, hisv, hsign, hsupported]

theorem inRange_iff {start stop ipa : UInt64} :
    inRange start stop ipa = true ↔ start ≤ ipa ∧ ipa < stop := by
  simp [inRange]

/-- A window's range test and the dispatcher's offset test accept the same addresses. -/
theorem offset_isSome_of_inRange {r : IpaRegion UInt64} {ipa : UInt64}
    (hend : r.start.toNat + r.size.toNat < 2 ^ 64)
    (h : inRange r.start (r.start + r.size) ipa = true) : (r.offset ipa).isSome = true := by
  obtain ⟨hle, hlt⟩ := inRange_iff.mp h
  have hsub : (ipa - r.start).toNat = ipa.toNat - r.start.toNat := UInt64.toNat_sub_of_le _ _ hle
  have hadd : (r.start + r.size).toNat = r.start.toNat + r.size.toNat := by
    rw [UInt64.toNat_add]
    exact Nat.mod_eq_of_lt hend
  have hlt' : ipa.toNat < (r.start + r.size).toNat := UInt64.lt_iff_toNat_lt.mp hlt
  have hle' : r.start.toNat ≤ ipa.toNat := UInt64.le_iff_toNat_le.mp hle
  have hoffset : ipa - r.start < r.size := by
    rw [UInt64.lt_iff_toNat_lt]
    omega
  rw [IpaRegion.offset, if_pos hle, if_pos hoffset]
  rfl

theorem Trapped.mapped {access : MmioAccess} (h : Trapped access.ipa) :
    (guestGicd.offset access.ipa).isSome = true ∨ access.pl011Register.isSome = true := by
  rcases h with h | h
  · exact .inl (offset_isSome_of_inRange (by decide) h)
  · have hsome := offset_isSome_of_inRange (r := guestPl011) (by decide) h
    rcases hgicd : guestGicd.offset access.ipa with _ | offset
    · right
      simpa [MmioAccess.pl011Register, hgicd] using hsome
    · exact .inl rfl

/-- An exit that is no data abort is reported. -/
theorem handle_other {guest : Guest} (hec : guest.vcpu.exit.ec ≠ 0x24) (writeFails : UInt8 → Bool) :
    ∃ reason, (handleSynchronousException writeFails).run guest =
      .error (.error (.unexpectedException reason)) guest := by
  have hreason : ∀ ipa isWrite dfsc,
      guest.vcpu.exit.decodeReason guest.vcpu.context ≠ .stage2DataAbort ipa isWrite dfsc := by
    intro ipa isWrite dfsc h
    simp only [VcpuExit.decodeReason, ite_eq_iff, reduceCtorEq, and_false, false_or, hec,
      false_and] at h
  simp only [handleSynchronousException, EStateM.run_bind, EStateM.run_get]
  generalize guest.vcpu.exit.decodeReason guest.vcpu.context = reason at hreason
  cases reason with
  | stage2DataAbort ipa isWrite dfsc => exact absurd rfl (hreason ipa isWrite dfsc)
  | _ => exact ⟨_, rfl⟩

theorem decodeReason_dataAbort {exit : VcpuExit} (hec : exit.ec = 0x24) (context : VcpuContext) :
    ∃ isWrite dfsc, exit.decodeReason context = .stage2DataAbort exit.faultIpa isWrite dfsc := by
  simp only [VcpuExit.decodeReason, hec]
  exact ⟨_, _, rfl⟩

instance (ipa : UInt64) : Decidable (Trapped ipa) := inferInstanceAs (Decidable (_ ∨ _))

/-- A data abort is emulated where the range test lets it through. -/
theorem handle_dataAbort {guest : Guest} (hec : guest.vcpu.exit.ec = 0x24)
    (writeFails : UInt8 → Bool) :
    (handleSynchronousException writeFails).run guest =
      if Trapped guest.vcpu.exit.faultIpa then
        match (emulateOrPanic guest.vcpu.exit).run guest with
        | .ok none guest' => .ok () guest'
        | .ok (some byte) guest' =>
          if writeFails byte then .error (.error .consoleTransmit) guest' else .ok () guest'
        | .error stop guest' => .error stop guest'
      else .error (.error (.invalidIpa guest.vcpu.exit.faultIpa)) guest := by
  obtain ⟨isWrite, dfsc, hreason⟩ := decodeReason_dataAbort hec guest.vcpu.context
  have hgicd : guestGicd.endIpa = some (guestGicd.start + guestGicd.size) := rfl
  have hpl011 : guestPl011.endIpa = some (guestPl011.start + guestPl011.size) := rfl
  simp only [handleSynchronousException, EStateM.run_bind, EStateM.run_get, hreason, hgicd, hpl011]
  by_cases htrapped : Trapped guest.vcpu.exit.faultIpa
  · have htest : (!(inRange guestGicd.start (guestGicd.start + guestGicd.size)
        guest.vcpu.exit.faultIpa || inRange guestPl011.start (guestPl011.start + guestPl011.size)
        guest.vcpu.exit.faultIpa)) = false := by
      rw [Bool.not_eq_false', Bool.or_eq_true]
      exact htrapped
    rw [if_pos htrapped, htest, if_neg (by decide), EStateM.run_bind]
    rcases (emulateOrPanic guest.vcpu.exit).run guest with ⟨byte, guest'⟩ | ⟨stop, guest'⟩
    · rcases byte with _ | byte
      · rfl
      · exact run_ite _ _ _ _
    · rfl
  · have htest : (!(inRange guestGicd.start (guestGicd.start + guestGicd.size)
        guest.vcpu.exit.faultIpa || inRange guestPl011.start (guestPl011.start + guestPl011.size)
        guest.vcpu.exit.faultIpa)) = true := by
      rw [Bool.not_eq_true', Bool.eq_false_iff, ne_eq, Bool.or_eq_true]
      exact htrapped
    rw [if_neg htrapped, htest, if_pos rfl]
    rfl

/-- The emulation of a trapped exit succeeds unless no device can serve the syndrome or the program
counter cannot advance. -/
theorem emulate_succeeds_iff {exit : VcpuExit} (htrapped : Trapped exit.faultIpa) (trap : Trap) :
    isOk ((emulateStage2Mmio exit).run trap) = true ↔
      ¬ (Unservable exit.esrEl2 ∨ 2 ^ 64 ≤ trap.context.elrEl2.toNat + 4) := by
  rw [not_or, ← servable_iff exit.esrEl2 exit.faultIpa]
  rcases hdecode : decodeDataAbort exit.esrEl2 exit.faultIpa with error | access
  · rw [emulateStage2Mmio_decode hdecode]
    simp [isOk]
  obtain ⟨hipa, hdecoded, -⟩ := decodeDataAbort_ok hdecode
  have hrun := MmioDispatcher.emulate_run hdecoded ⟨trap.dispatcher, trap.context.x⟩
  have htaken := taken_iff_isOk hrun
  have hmapped : Trapped access.ipa := hipa ▸ htrapped
  rcases hresult : (MmioDispatcher.emulate access).run ⟨trap.dispatcher, trap.context.x⟩ with
    ⟨byte, bus⟩ | ⟨stop, bus⟩
  · rw [hresult] at htaken
    have hwidth : Supported access.width := (htaken.mpr rfl).1
    rw [emulateStage2Mmio_completed trap hdecode hresult]
    by_cases hpc : trap.context.elrEl2.toNat + 4 < 2 ^ 64
    · rw [if_pos hpc]
      exact iff_of_true rfl ⟨⟨access, rfl, hwidth⟩, by omega⟩
    · rw [if_neg hpc]
      exact iff_of_false Bool.false_ne_true fun hnot => hpc (Nat.lt_of_not_le hnot.2)
  · rw [hresult] at htaken hrun
    obtain ⟨hbus, error, rfl⟩ := hrun.error
    rw [emulateStage2Mmio_refused trap hdecode hresult hbus]
    refine iff_of_false Bool.false_ne_true ?_
    rintro ⟨⟨access', heq, hwidth⟩, -⟩
    cases heq
    exact Bool.false_ne_true (htaken.mp ⟨hwidth, hmapped.mapped⟩)

theorem emulateOrPanic_run (exit : VcpuExit) (guest : Guest) :
    (emulateOrPanic exit).run guest =
      match (emulateStage2Mmio exit).run ⟨guest.vcpu.context, guest.dispatcher⟩ with
      | .ok byte trap => .ok byte ⟨{ guest.vcpu with context := trap.context }, trap.dispatcher⟩
      | .error _ trap =>
        .error .panicked ⟨{ guest.vcpu with context := trap.context }, trap.dispatcher⟩ := by
  rw [emulateOrPanic, run_mapError, run_zoom]
  cases (emulateStage2Mmio exit).run ⟨guest.vcpu.context, guest.dispatcher⟩ <;> rfl

/-- The handler does not panic, and the dispatcher knows every address that it hands over. -/
def Handled (writeFails : UInt8 → Bool) (guest : Guest) : Prop :=
  (∀ guest', (handleSynchronousException writeFails).run guest ≠ .error .panicked guest') ∧
    (Trapped guest.vcpu.exit.faultIpa → ∀ access registers bus, access.Decoded →
      access.ipa = guest.vcpu.exit.faultIpa →
        (MmioDispatcher.emulate access).run ⟨guest.dispatcher, registers⟩ ≠
          .error (.error (.unmappedIpa access.ipa)) bus)

/-- The accesses that panic: a data abort in a window whose syndrome no device can serve, or whose
program counter cannot advance. -/
def Panics (vcpu : Vcpu) : Prop :=
  vcpu.exit.ec = 0x24 ∧ Trapped vcpu.exit.faultIpa ∧
    (Unservable vcpu.exit.esrEl2 ∨ 2 ^ 64 ≤ vcpu.context.elrEl2.toNat + 4)

/-- Every address that the range test accepts is one the dispatcher handles. -/
theorem trapped_handled {access : MmioAccess} (hdecoded : access.Decoded)
    (htrapped : Trapped access.ipa) (bus bus' : Bus) :
    (MmioDispatcher.emulate access).run bus ≠ .error (.error (.unmappedIpa access.ipa)) bus' := by
  intro heq
  have hrun := MmioDispatcher.emulate_run hdecoded bus
  rw [heq] at hrun
  cases hrun with
  | unmapped hgicd hpl011 =>
    rcases htrapped.mapped with h | h
    · simp [hgicd] at h
    · simp [MmioAccess.pl011Register, hgicd, hpl011] at h

theorem not_panicked_iff (writeFails : UInt8 → Bool) (guest : Guest) :
    (∀ guest', (handleSynchronousException writeFails).run guest ≠ .error .panicked guest') ↔
      ¬ Panics guest.vcpu := by
  unfold Panics
  by_cases hec : guest.vcpu.exit.ec = 0x24
  · rw [handle_dataAbort hec]
    by_cases htrapped : Trapped guest.vcpu.exit.faultIpa
    · have hsucceeds := emulate_succeeds_iff htrapped ⟨guest.vcpu.context, guest.dispatcher⟩
      rw [if_pos htrapped, emulateOrPanic_run]
      simp only [hec, htrapped, true_and]
      rw [← hsucceeds]
      rcases (emulateStage2Mmio guest.vcpu.exit).run ⟨guest.vcpu.context, guest.dispatcher⟩ with
        ⟨byte, trap⟩ | ⟨stop, trap⟩
      · refine iff_of_true ?_ rfl
        intro guest' heq
        rcases byte with _ | byte
        · cases heq
        · simp only at heq
          split at heq <;> cases heq
      · exact iff_of_false (fun h => h _ rfl) Bool.false_ne_true
    · rw [if_neg htrapped]
      exact iff_of_true (fun _ heq => by cases heq) fun h => htrapped h.2.1
  · obtain ⟨reason, hrun⟩ := handle_other hec writeFails
    rw [hrun]
    exact iff_of_true (fun _ heq => by cases heq) fun h => hec h.1

/-- An exit is handled without a panic exactly when it is none of the panicking accesses. -/
theorem handled_iff (writeFails : UInt8 → Bool) (guest : Guest) :
    Handled writeFails guest ↔ ¬ Panics guest.vcpu := by
  unfold Handled
  rw [not_panicked_iff]
  refine ⟨fun h => h.1, fun h => ⟨h, ?_⟩⟩
  intro htrapped access registers bus hdecoded hipa
  exact trapped_handled hdecoded (hipa ▸ htrapped) _ bus

/-- A data abort in the distributor window without a valid instruction syndrome. -/
theorem not_handled_without_syndrome :
    ¬ Handled (fun _ => false)
      ⟨⟨⟨Vector.replicate 31 0, 0x40000000⟩, ⟨8, 0x92000000, 0x08000000, 0x80000⟩⟩, .default⟩ := by
  intro h
  exact h.1 _ rfl

end Tvisor.GuestExit
