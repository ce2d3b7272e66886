/-
# Tvisor.LinuxBoot.Load -- loading a Linux image into guest RAM

The part of `run_linux_vm` in `src/vmctl.rs` that fills the memory of the guest: the layout for the
default RAM, the allocation of that RAM, the physical addresses of the image and of the DTB window
in it, and then three writes through raw pointers: the bytes of the image, zeros up to its extent,
and the DTB. The additions and the subtraction that the source leaves unchecked are checked here,
and one that would leave the word stops the load as a panic.

The image is the slice that the boot loader left, which nothing writes while it is borrowed. The
device tree is a function of its offset in the window: what `build_guest_dtb` puts there takes no
part in where it goes. The diagnostics, the interrupt controller and the stage-2 mapping around
these steps touch none of these bytes.
-/
import Tvisor.LinuxBoot

namespace Tvisor.LinuxBoot

open Words Page Fallible Bytes GuestPlatform VmCtl
open El2Stage1 (TranslationError)

/-- The physical address of an IPA in guest RAM. -/
def guestPaFor (guestRamPa ipa : Nat) : Except TranslationError Nat := do
  let offset ← okOr .unexpected (checkedSub ipa guestRam.start)
  okOr .addressOverflow (checkedAdd guestRamPa offset)

/-- The three writes, once the memory is there. -/
def writesFor (image : List UInt8) (dtb : Nat → UInt8) (layout : LinuxBootLayout)
    (guestRamPa : Nat) : Except (Stop TranslationError) (List (Block UInt8)) := do
  let imagePa ← (guestPaFor guestRamPa layout.imageIpa).mapError .error
  let dtbPa ← (guestPaFor guestRamPa layout.dtbIpa).mapError .error
  let tail ← okOr .panicked (checkedAdd imagePa image.length)
  let rest ← okOr .panicked (checkedSub layout.imageHeader.imageSize image.length)
  pure [⟨imagePa, image⟩, ⟨tail, List.replicate rest 0⟩,
    ⟨dtbPa, (List.range linuxDtbCapacity).map dtb⟩]

/-- The layout that was chosen and the writes that were made. -/
def loadLinux (image : List UInt8) (dtb : Nat → UInt8) :
    EStateM (Stop TranslationError) State (LinuxBootLayout × List (Block UInt8)) := do
  let layout ← lift ((LinuxBootLayout.defaultForImage image none).mapError fun _ =>
    Stop.error .unexpected)
  let allocated ← mapError (fun _ => .error .unexpected)
    (vmMemAlloc .guestRam (some guestRam.start) guestRam.size)
  let guestRamPa ← orThrow (.error .unexpected) allocated
  let writes ← lift (writesFor image dtb layout guestRamPa)
  pure (layout, writes)

/-! ## The memory of the guest -/

/-- The allocation of guest RAM. -/
theorem vmMemAlloc_guestRam {s s' : State} (h : s.Wf) {allocated : Option Nat}
    (hrun : (vmMemAlloc .guestRam (some guestRam.start) guestRam.size).run s = .ok allocated s') :
    ∃ pa, allocated = some pa ∧ pa + guestRam.size ≤ 2 ^ 32 ∧
      VmMem.ipaPa ⟨.guestRam, guestRam.start, pa, guestRam.size⟩ ∈ s'.vmMem := by
  have heffects : Effects (fun _ _ => False) s _ :=
    vmMemAlloc_effects h .guestRam (some guestRam.start) guestRam.size
  rw [hrun] at heffects
  rcases vmMemAlloc_cases h .guestRam (some guestRam.start) guestRam.size with
    ⟨e, herr⟩ | ⟨m, hguard, -⟩ | ⟨m, first, count, rfl, rfl, -, -, -, -, -, hok⟩
  · rw [herr] at hrun
    cases hrun
  · cases hguard
  · rw [hok] at hrun
    cases hrun
    have hmem : VmMem.ipaPa ⟨.guestRam, guestRam.start, 4096 * first, guestRam.size⟩ ∈
        s.vmMem ++ [memOf .guestRam (some guestRam.start) (4096 * first)
          (4096 * ((guestRam.size + 4095) / 4096))] :=
      List.mem_append_right _ (List.mem_singleton.mpr rfl)
    exact ⟨4096 * first, rfl, ((heffects.wf h).inReach hmem).2, hmem⟩

/-! ## The writes -/

theorem parse_length {image : List UInt8} {header : LinuxImageHeader}
    (h : LinuxImageHeader.parse image = .ok header) : image.length ≤ header.imageSize := by
  unfold LinuxImageHeader.parse at h
  split at h
  · cases h
  split at h
  · cases h
  dsimp only at h
  split at h
  · cases h
  split at h
  · cases h
  split at h
  · cases h
  · cases h
    exact not_lt.mp ‹_›

theorem guestPaFor_eq {guestRamPa ipa : Nat} (hlo : guestRam.start ≤ ipa)
    (hhi : guestRamPa + (ipa - guestRam.start) < wordBound) :
    guestPaFor guestRamPa ipa = .ok (guestRamPa + (ipa - guestRam.start)) :=
  bind_eq_ok.mpr ⟨_, okOr_eq_ok.mpr (checkedSub_of_le hlo),
    okOr_eq_ok.mpr (checkedAdd_of_lt hhi)⟩

section Writes

variable {image : List UInt8} {dtb : Nat → UInt8} {layout : LinuxBootLayout}
  (h : Placed image guestRam.start guestRam.size none layout)
include h

/-- Where the windows are in the allocation. -/
theorem Placed.offsets :
    guestRam.start ≤ layout.imageIpa ∧ layout.imageIpa ≤ layout.dtbIpa ∧
      layout.imageIpa - guestRam.start + layout.imageHeader.imageSize ≤
        layout.dtbIpa - guestRam.start ∧
      layout.dtbIpa - guestRam.start + linuxDtbCapacity ≤ guestRam.size := by
  obtain ⟨himage, -⟩ := h.inside _ (LinuxBootLayout.mem_windows.mpr (.inl rfl))
  obtain ⟨-, hdtb⟩ := h.inside _ (LinuxBootLayout.mem_windows.mpr (.inr (.inl rfl)))
  have hle := h.dtb.le
  dsimp only at himage hdtb
  exact ⟨himage, by omega, by omega, by omega⟩

/-- No addition leaves the word and the subtraction stays above zero. -/
theorem Placed.writesFor_eq {pa : Nat} (hpa : pa + guestRam.size ≤ 2 ^ 32) :
    writesFor image dtb layout pa =
      .ok (padded (pa + (layout.imageIpa - guestRam.start)) image layout.imageHeader.imageSize 0
        ⟨pa + (layout.dtbIpa - guestRam.start), (List.range linuxDtbCapacity).map dtb⟩) := by
  obtain ⟨himage, hdtb, hle, hcapacity⟩ := h.offsets
  have hlength := parse_length h.header
  have hpos : 0 < linuxDtbCapacity := by decide
  have hword : ∀ x, x < 2 ^ 32 → x < wordBound := by
    intro x hx
    unfold wordBound
    omega
  refine bind_eq_ok.mpr ⟨_, mapError_eq_ok.mpr (guestPaFor_eq himage (hword _ (by omega))), ?_⟩
  refine bind_eq_ok.mpr ⟨_, mapError_eq_ok.mpr
    (guestPaFor_eq (himage.trans hdtb) (hword _ (by omega))), ?_⟩
  refine bind_eq_ok.mpr ⟨_, okOr_eq_ok.mpr (checkedAdd_of_lt (hword _ (by omega))), ?_⟩
  exact bind_eq_ok.mpr ⟨_, okOr_eq_ok.mpr (checkedSub_of_le hlength), rfl⟩

end Writes

/-- What the writes of a load do to the memory of an entry, whatever was there before. -/
structure Loaded (image : List UInt8) (dtb : Nat → UInt8) (layout : LinuxBootLayout)
    (writes : List (Block UInt8)) (r : IpaPaRegion) : Prop where
  /-- Only bytes of the entry are written. -/
  inside : ∀ block ∈ writes, ∀ a, block.Covers a → r.pa ≤ a ∧ a < r.pa + r.size
  /-- The window of the image holds its bytes, and zeros after them. -/
  image : ∀ memory i, i < layout.imageHeader.imageSize →
    writeAll memory writes (r.pa + (layout.imageIpa - r.ipa) + i) = image.getD i 0
  /-- The window of the DTB holds the DTB. -/
  dtb : ∀ memory i, i < linuxDtbCapacity →
    writeAll memory writes (r.pa + (layout.dtbIpa - r.ipa) + i) = dtb i
  apart : Disjoint
    (Set.Ico (r.pa + (layout.imageIpa - r.ipa))
      (r.pa + (layout.imageIpa - r.ipa) + layout.imageHeader.imageSize))
    (Set.Ico (r.pa + (layout.dtbIpa - r.ipa)) (r.pa + (layout.dtbIpa - r.ipa) + linuxDtbCapacity))

theorem Placed.loaded {image : List UInt8} {dtb : Nat → UInt8} {layout : LinuxBootLayout}
    (h : Placed image guestRam.start guestRam.size none layout) (pa : Nat) :
    Loaded image dtb layout
      (padded (pa + (layout.imageIpa - guestRam.start)) image layout.imageHeader.imageSize 0
        ⟨pa + (layout.dtbIpa - guestRam.start), (List.range linuxDtbCapacity).map dtb⟩)
      ⟨.guestRam, guestRam.start, pa, guestRam.size⟩ := by
  obtain ⟨himage, hdtb, hle, hcapacity⟩ := h.offsets
  have hlength := parse_length h.header
  have hnext : pa + (layout.imageIpa - guestRam.start) + layout.imageHeader.imageSize ≤
      pa + (layout.dtbIpa - guestRam.start) := by omega
  -- as closed numbers, the bounds of RAM and the capacity would be computed with
  clear h
  generalize hcap : linuxDtbCapacity = capacity at hcapacity
  generalize guestRam.start = ramStart, guestRam.size = ramSize at *
  refine ⟨?_, ?_, ?_, ?_⟩
  all_goals dsimp only
  · intro block hblock a ha
    rcases covers_padded hlength hblock ha with ⟨hlo, hhi⟩ | ⟨hlo, hhi⟩
    · exact ⟨by omega, by omega⟩
    · rw [List.length_map, List.length_range] at hhi
      dsimp only at hlo hhi
      exact ⟨by omega, by omega⟩
  · intro memory i hi
    exact writeAll_padded hnext hi
  · intro memory i hi
    rw [hcap] at hi
    have hbound : i < ((List.range capacity).map dtb).length := by
      rw [List.length_map, List.length_range]
      exact hi
    refine (writeAll_next hbound 0).trans ?_
    rw [List.getD_eq_getElem _ _ hbound, List.getElem_map, List.getElem_range]
  · rw [Set.disjoint_left]
    intro a ha ha'
    exact absurd (ha.2.trans_le (hnext.trans ha'.1)) (lt_irrefl a)

/-! ## The load -/

/-- The load of an image on a VM. -/
structure LoadsSafely (image : List UInt8) (dtb : Nat → UInt8) (s : State) : Prop where
  /-- It never stops at an addition or subtraction. -/
  noOverflow : ∀ e s', (loadLinux image dtb).run s = .error e s' → e ≠ .panicked
  /-- With a layout and with memory there is nothing left to fail. -/
  completes : ∀ layout allocated s', LinuxBootLayout.defaultForImage image none = .ok layout →
    (vmMemAlloc .guestRam (some guestRam.start) guestRam.size).run s = .ok allocated s' →
    ∃ writes, (loadLinux image dtb).run s = .ok (layout, writes) s'
  /-- It writes guest RAM only, and leaves the image and the DTB in it. -/
  loaded : ∀ layout writes s', (loadLinux image dtb).run s = .ok (layout, writes) s' →
    ∃ r, VmMem.ipaPa r ∈ s'.vmMem ∧ r.usage = .guestRam ∧ Loaded image dtb layout writes r

/-- The load fails with an error of the source, or it has a layout, has the memory and writes. -/
theorem loadLinux_cases {s : State} (h : s.Wf) (image : List UInt8) (dtb : Nat → UInt8) :
    ((∃ s', (loadLinux image dtb).run s = .error (.error .unexpected) s') ∧
      ((∃ e, LinuxBootLayout.defaultForImage image none = .error e) ∨
        ∃ e s', (vmMemAlloc .guestRam (some guestRam.start) guestRam.size).run s = .error e s')) ∨
    ∃ layout pa s', LinuxBootLayout.defaultForImage image none = .ok layout ∧
      (vmMemAlloc .guestRam (some guestRam.start) guestRam.size).run s = .ok (some pa) s' ∧
      VmMem.ipaPa ⟨.guestRam, guestRam.start, pa, guestRam.size⟩ ∈ s'.vmMem ∧
      (loadLinux image dtb).run s = .ok (layout,
        padded (pa + (layout.imageIpa - guestRam.start)) image layout.imageHeader.imageSize 0
          ⟨pa + (layout.dtbIpa - guestRam.start), (List.range linuxDtbCapacity).map dtb⟩) s' := by
  unfold loadLinux
  simp only [EStateM.run_bind, run_mapError]
  rcases hlayout : LinuxBootLayout.defaultForImage image none with e | layout
  · exact .inl ⟨⟨s, rfl⟩, .inl ⟨e, rfl⟩⟩
  have hplaced := new_placed hlayout
  simp only [Except.mapError, run_lift_ok]
  rcases hrun : (vmMemAlloc .guestRam (some guestRam.start) guestRam.size).run s with
    ⟨allocated, s'⟩ | ⟨e, s'⟩
  · obtain ⟨pa, rfl, hpa, hmem⟩ := vmMemAlloc_guestRam h hrun
    simp only [run_orThrow_some, hplaced.writesFor_eq hpa, run_lift_ok, EStateM.run_pure]
    exact .inr ⟨layout, pa, s', rfl, rfl, hmem, rfl⟩
  · exact .inl ⟨⟨s', rfl⟩, .inr ⟨e, s', rfl⟩⟩

theorem loadLinux_safe {s : State} (h : s.Wf) (image : List UInt8) (dtb : Nat → UInt8) :
    LoadsSafely image dtb s := by
  rcases loadLinux_cases h image dtb with
    ⟨⟨s1, hrun⟩, hwhy⟩ | ⟨layout, pa, s1, hlayout, halloc, hmem, hrun⟩
  · refine ⟨?_, ?_, ?_⟩
    · intro e s' herr
      rw [hrun] at herr
      cases herr
      exact nofun
    · intro layout allocated s' hlayout halloc
      rcases hwhy with ⟨e, he⟩ | ⟨e, s2, he⟩
      · rw [hlayout] at he
        cases he
      · rw [halloc] at he
        cases he
    · intro layout writes s' hok
      rw [hrun] at hok
      cases hok
  · refine ⟨?_, ?_, ?_⟩
    · intro e s' herr
      rw [hrun] at herr
      cases herr
    · intro layout' allocated s' hlayout' halloc'
      rw [hlayout] at hlayout'
      cases hlayout'
      rw [halloc] at halloc'
      cases halloc'
      exact ⟨_, hrun⟩
    · intro layout' writes s' hok
      rw [hrun] at hok
      cases hok
      exact ⟨_, hmem, rfl, (new_placed hlayout).loaded pa⟩

/-- For any image, RAM and initrd: an accepted layout is one whose parts lie in RAM and apart, and a
refusal for lack of room is one. On any VM, the load into the default RAM is safe. -/
theorem linux_boot_placement_safe (image : List UInt8) (ramIpa ramSize : Nat)
    (initrdSize : Option Nat) (dtb : Nat → UInt8) (memory : GuestStage2.Memory)
    (pages : Mm.GlobalPageAllocator) (ops : List Op) :
    (match LinuxBootLayout.new image ramIpa ramSize initrdSize with
      | .ok layout => Placed image ramIpa ramSize initrdSize layout
      | .error e => Refused image ramIpa ramSize initrdSize e) ∧
    LoadsSafely image dtb (session memory pages ops).state := by
  refine ⟨?_, loadLinux_safe (session_inv memory pages ops).wf image dtb⟩
  rcases hnew : LinuxBootLayout.new image ramIpa ramSize initrdSize with e | layout
  · exact new_refused hnew
  · exact new_placed hnew

end Tvisor.LinuxBoot
