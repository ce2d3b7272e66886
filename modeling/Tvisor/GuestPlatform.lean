/-
# Tvisor.GuestPlatform -- the guest's view of its devices

`tvisor_util/guest_platform.rs`: the fixed IPA regions of the virtual platform, and the fitting of a
physical device into one of them. Stage-2 maps whole pages, so a device that does not start on a
page keeps its offset in the first page of its window, and the mapping is rounded outwards. The
result is about both halves together: what `map_device_into_window` computes, given to
`map_external_device`, exposes the device at its address and nothing beyond its own pages.
-/
import Tvisor.Mmio
import Tvisor.VmCtl.Mapping

namespace Tvisor.GuestPlatform

open Words Page SystemInfo GuestStage2 VmCtl

/-- Complete RAM presented to the guest. -/
def guestRam : IpaRegion Nat := ⟨0x4000_0000, defaultGuestRamSize⟩

/-- The guest-visible GICv2 virtual CPU interface. -/
def guestGicv : IpaRegion Nat := ⟨0x0801_0000, 2 * pageSize⟩

inductive GuestPlatformError where
  | emptyRegion
  | unalignedRegion
  | addressOverflow
  | ipaOutOfRange
  | overlappingRegions
  | invalidDeviceSize
  | deviceDoesNotFit
  deriving DecidableEq, Repr

/-- The device as the guest is told of it, and the page-aligned mapping behind it. -/
structure GuestDeviceMapping where
  deviceIpa : Nat
  device : PhysRegion
  mappedPa : Nat
  mappingSize : Nat
  deriving DecidableEq, Repr

def mapDeviceIntoWindow (window : IpaRegion Nat) (device : PhysRegion) :
    Except GuestPlatformError GuestDeviceMapping :=
  if window.size = 0 ∨ window.start &&& (pageSize - 1) ≠ 0 ∨ window.size &&& (pageSize - 1) ≠ 0 then
    .error .unalignedRegion
  else
    let offset := device.start &&& (pageSize - 1)
    let mappedPa := device.start - offset
    match checkedAdd offset device.size with
    | none => .error .addressOverflow
    | some required =>
        match checkedAdd required (pageSize - 1) with
        | none => .error .addressOverflow
        | some rounded =>
            let mappingSize := rounded &&& bitNot (pageSize - 1)
            if mappingSize > window.size then .error .deviceDoesNotFit
            else match checkedAdd window.start offset with
              | none => .error .addressOverflow
              | some deviceIpa => .ok ⟨deviceIpa, device, mappedPa, mappingSize⟩

/-! ## Fitting a device -/

/-- What an accepted fit is: the device's own pages, at the start of whole pages of the window. -/
structure Fits (window : IpaRegion Nat) (device : PhysRegion) (mapping : GuestDeviceMapping) :
    Prop where
  windowStart : window.start % 4096 = 0
  windowSize : window.size % 4096 = 0
  deviceIpa : mapping.deviceIpa = window.start + device.start % 4096
  mappedPa : mapping.mappedPa = 4096 * (device.start / 4096)
  mappingSize : mapping.mappingSize = 4096 * ((device.start % 4096 + device.size + 4095) / 4096)
  fits : mapping.mappingSize ≤ window.size

theorem land_pageMask (x : Nat) : x &&& (pageSize - 1) = x % 4096 :=
  Nat.and_two_pow_sub_one_eq_mod x 12

theorem mapDeviceIntoWindow_fits {window : IpaRegion Nat} {device : PhysRegion}
    {mapping : GuestDeviceMapping} (h : mapDeviceIntoWindow window device = .ok mapping) :
    Fits window device mapping := by
  unfold mapDeviceIntoWindow at h
  simp only [land_pageMask] at h
  split at h
  · cases h
  rename_i hbad
  simp only [not_or, not_not] at hbad
  split at h
  · cases h
  rename_i required hrequired
  obtain ⟨-, rfl⟩ := checkedAdd_eq_some.mp hrequired
  split at h
  · cases h
  rename_i rounded hrounded
  obtain ⟨hlt, rfl⟩ := checkedAdd_eq_some.mp hrounded
  have hmask : (device.start % 4096 + device.size + (pageSize - 1)) &&& bitNot (pageSize - 1) =
      4096 * ((device.start % 4096 + device.size + 4095) / 4096) := by
    rw [Nat.mul_comm]
    exact land_bitNot_low (k := 12) hlt (by decide)
  rw [hmask] at h
  split at h
  · cases h
  rename_i hlarge
  split at h
  · cases h
  rename_i deviceIpa hipa
  obtain ⟨-, rfl⟩ := checkedAdd_eq_some.mp hipa
  cases h
  exact ⟨hbad.2.1, hbad.2.2, rfl, by show device.start - device.start % 4096 = _; omega, rfl,
    not_lt.mp hlarge⟩

/-! ## The device in the VM -/

/-- The device stands in its window, and nothing else has come into the VM. -/
structure Exposed (window : IpaRegion Nat) (device : PhysRegion) (mapping : GuestDeviceMapping)
    (s s' : State) : Prop where
  /-- Each byte is visible at its offset, as device memory that can be read and written. -/
  visible : ∀ k, k < device.size → window.start ≤ mapping.deviceIpa + k ∧
    mapping.deviceIpa + k < window.start + window.size ∧
    ∃ w, s'.leafWord (mapping.deviceIpa + k) = some w ∧
      (w &&& addressMask) + (mapping.deviceIpa + k) % 4096 = device.start + k ∧
      w = leafAttributes .deviceNgNre .readWrite .executeNever ||| (w &&& addressMask)
  /-- A page that was mapped is a page of the window, and shows a page with a byte of the device. -/
  mapped : ∀ ipa, ipa < 2 ^ 39 → ∀ w, s.leafWord ipa = none → s'.leafWord ipa = some w →
    window.start ≤ 4096 * (ipa / 4096) ∧
    4096 * (ipa / 4096) + 4096 ≤ window.start + window.size ∧
    ∃ k, k < device.size ∧ (mapping.deviceIpa + k) / 4096 = ipa / 4096 ∧
      w &&& addressMask = 4096 * ((device.start + k) / 4096)
  /-- Outside the window every translation is what it was. -/
  outside : ∀ ipa, ipa < 2 ^ 39 → ¬ (window.start ≤ ipa ∧ ipa < window.start + window.size) →
    s'.leafWord ipa = s.leafWord ipa

/-- What a device call that succeeds has done, whatever the VM had before. In a window without
leaves, the pages of the device are then all there is. -/
structure WindowExact (window : IpaRegion Nat) (device : PhysRegion) (mapping : GuestDeviceMapping)
    (mmfr0 : Option Nat) (s : State) : Prop where
  exposed : ∀ s', (mapExternalDevice mmfr0 window.start mapping.mappedPa mapping.mappingSize).run
    s = .ok () s' → Exposed window device mapping s s'

section Exposing

variable {window : IpaRegion Nat} {device : PhysRegion} {mapping : GuestDeviceMapping}
  {s s' : State}

/-- The window holds the device's pages in order: the page of the window at a byte is the page of
the device at that byte. -/
theorem Fits.samePage (hfits : Fits window device mapping) {k : Nat} (hk : k < device.size) :
    window.start ≤ mapping.deviceIpa + k ∧
      mapping.deviceIpa + k < window.start + mapping.mappingSize ∧
      mapping.mappedPa + (4096 * ((mapping.deviceIpa + k) / 4096) - window.start) =
        4096 * ((device.start + k) / 4096) ∧
      (mapping.deviceIpa + k) % 4096 = (device.start + k) % 4096 := by
  obtain ⟨hwindow, -, hdevice, hpa, hsize, -⟩ := hfits
  exact ⟨by omega, by omega, by omega, by omega⟩

/-- Every page of the mapping has a byte of the device. -/
theorem Fits.exists_byte (hfits : Fits window device mapping) {ipa : Nat}
    (hlo : window.start ≤ ipa) (hhi : ipa < window.start + mapping.mappingSize) :
    ∃ k, k < device.size ∧ (mapping.deviceIpa + k) / 4096 = ipa / 4096 := by
  obtain ⟨hwindow, -, hdevice, -, hsize, -⟩ := hfits
  have hpos := device.size_pos
  by_cases hfirst : ipa / 4096 = window.start / 4096
  · exact ⟨0, hpos, by omega⟩
  · -- past the first page, the page begins inside the device
    exact ⟨4096 * (ipa / 4096) - mapping.deviceIpa, by omega, by omega⟩

theorem Fits.exposed (hfits : Fits window device mapping) (h : s.Wf) {mmfr0 : Option Nat}
    (hrun : (mapExternalDevice mmfr0 window.start mapping.mappedPa mapping.mappingSize).run s =
      .ok () s') : Exposed window device mapping s s' := by
  obtain ⟨hipaEnd, hpaEnd, hleaf⟩ := mapExternalDevice_leafWord h hrun
  have hle := hfits.fits
  -- the descriptor at a byte of the device
  have hword : ∀ k, k < device.size → s'.leafWord (mapping.deviceIpa + k) =
        some (encodeL3PageDescriptor (4096 * ((device.start + k) / 4096))
          .deviceNgNre .readWrite .executeNever) ∧
      encodeL3PageDescriptor (4096 * ((device.start + k) / 4096))
          .deviceNgNre .readWrite .executeNever &&& addressMask =
        4096 * ((device.start + k) / 4096) := by
    intro k hk
    obtain ⟨hlo, hhi, hpage, -⟩ := hfits.samePage hk
    refine ⟨?_, ?_⟩
    · rw [hleaf _ (by omega), if_pos ⟨hlo, hhi⟩, hpage]
    · exact (encodeL3PageDescriptor_fields (by omega) (by omega) _ _ _).2
  refine ⟨?_, ?_, ?_⟩
  · intro k hk
    obtain ⟨hlo, hhi, -, hoffset⟩ := hfits.samePage hk
    obtain ⟨hleafWord, haddress⟩ := hword k hk
    refine ⟨hlo, by omega, _, hleafWord, ?_, ?_⟩
    · rw [haddress, hoffset]
      omega
    · rw [haddress]
      show _ ||| (_ &&& addressMask) = _ ||| _
      rw [address_of_page (by omega) (by have := (hfits.samePage hk).2.2.1; omega)]
  · intro ipa hipa w hnone hsome
    by_cases hin : window.start ≤ ipa ∧ ipa < window.start + mapping.mappingSize
    · obtain ⟨k, hk, hpage⟩ := hfits.exists_byte hin.1 hin.2
      obtain ⟨hlo, hhi, -⟩ := hfits.samePage hk
      obtain ⟨hleafWord, haddress⟩ := hword k hk
      rw [State.leafWord_page (show mapping.deviceIpa + k < 2 ^ 39 by omega) hipa hpage.symm,
        hleafWord] at hsome
      cases hsome
      obtain ⟨hwindow, hwindowSize, -⟩ := hfits
      exact ⟨by omega, by omega, k, hk, hpage, haddress⟩
    · rw [hleaf ipa hipa, if_neg hin, hnone] at hsome
      cases hsome
  · intro ipa hipa hout
    rw [hleaf ipa hipa, if_neg]
    rintro ⟨hlo, hhi⟩
    exact hout ⟨hlo, by omega⟩

end Exposing

/-- A device that is accepted into a window and then mapped there is seen whole, at its offset, and
alone. -/
theorem device_window_exact {window : IpaRegion Nat} {device : PhysRegion}
    {mapping : GuestDeviceMapping} (hfit : mapDeviceIntoWindow window device = .ok mapping)
    (memory : Memory) (pages : Mm.GlobalPageAllocator) (ops : List Op) (mmfr0 : Option Nat) :
    WindowExact window device mapping mmfr0 (session memory pages ops).state where
  exposed := fun _ hrun =>
    (mapDeviceIntoWindow_fits hfit).exposed (session_inv memory pages ops).wf hrun

/-- A virtual CPU interface that starts inside a page. -/
theorem device_window_exact_gicv :
    mapDeviceIntoWindow guestGicv ⟨0xff84_6100, 0x1004, by decide, by decide⟩ =
      .ok ⟨0x0801_0100, ⟨0xff84_6100, 0x1004, by decide, by decide⟩, 0xff84_6000, 0x2000⟩ ∧
    ∀ memory pages ops mmfr0,
      WindowExact guestGicv ⟨0xff84_6100, 0x1004, by decide, by decide⟩
        ⟨0x0801_0100, ⟨0xff84_6100, 0x1004, by decide, by decide⟩, 0xff84_6000, 0x2000⟩ mmfr0
        (session memory pages ops).state :=
  ⟨by decide, device_window_exact (by decide)⟩

end Tvisor.GuestPlatform
