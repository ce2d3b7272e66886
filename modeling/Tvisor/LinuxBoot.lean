/-
# Tvisor.LinuxBoot -- where a Linux image, its DTB and its initrd go

`tvisor_util/linux_boot.rs`. The header of the image is 64 bytes from outside: the offset, the
extent and the flags in it are any three words. The layout puts the image at its offset in guest
RAM, a DTB window after its extent and the initrd after that, and refuses an image for which
something would leave RAM or an address would leave the word.
-/
import Mathlib.Data.Nat.Digits.Defs
import Tvisor.GuestPlatform
import Tvisor.Lib.Bytes

namespace Tvisor.LinuxBoot

open Words Page Fallible Bytes GuestPlatform

def linuxImageBaseAlignment : Nat := 2 * 1024 * 1024
/-- The room that is kept for the device tree. -/
def linuxDtbCapacity : Nat := 2 * 1024 * 1024
def linuxImageHeaderSize : Nat := 64
/-- The bytes `ARM\x64`, as a little-endian word. -/
def linuxImageMagic : Nat := 0x644d_5241

/-- Why an image is refused. -/
inductive LinuxImageError where
  | headerTooSmall
  | badMagic
  | legacyImageSize
  | imageTooLarge
  | bigEndianImage
  deriving DecidableEq, Repr

/-- What the loader uses of the header. -/
structure LinuxImageHeader where
  textOffset : Nat
  imageSize : Nat
  flags : Nat
  deriving DecidableEq, Repr

namespace LinuxImageHeader

/-- `from_le_bytes(image[start..stop])` -/
def field (image : List UInt8) (start stop : Nat) : Nat :=
  Nat.ofDigits 256 (((image.drop start).take (stop - start)).map UInt8.toNat)

/-- The size in the header bounds the file, and is what is reserved. -/
def parse (image : List UInt8) : Except LinuxImageError LinuxImageHeader :=
  if image.length < linuxImageHeaderSize then .error .headerTooSmall
  else if field image 56 60 ≠ linuxImageMagic then .error .badMagic
  else
    let textOffset := field image 8 16
    let imageSize := field image 16 24
    let flags := field image 24 32
    if flags &&& 1 ≠ 0 then .error .bigEndianImage
    else if imageSize = 0 then .error .legacyImageSize
    else if image.length > imageSize then .error .imageTooLarge
    else .ok ⟨textOffset, imageSize, flags⟩

/-- Bit 3 of the flags. -/
def requires48bitPlacement (h : LinuxImageHeader) : Bool := h.flags &&& (1 <<< 3) != 0

end LinuxImageHeader

/-- Why an image has no place in RAM. -/
inductive LinuxBootLayoutError where
  | image (error : LinuxImageError)
  | invalidRam
  | imageTooLarge
  | dtbTooLarge
  | initrdTooLarge
  | addressOverflow
  deriving DecidableEq, Repr

/-- Where the image, the device tree and the initrd go. -/
structure LinuxBootLayout where
  ramIpa : Nat
  ramSize : Nat
  imageHeader : LinuxImageHeader
  imageIpa : Nat
  dtbIpa : Nat
  initrd : Option (Nat × Nat)
  deriving DecidableEq, Repr

/-- For any alignment, unlike the one for pages. -/
def alignUp (value alignment : Nat) : Except LinuxBootLayoutError Nat :=
  let remainder := value % alignment
  if remainder = 0 then .ok value
  else okOr .addressOverflow (checkedAdd value (alignment - remainder))

namespace LinuxBootLayout

/-- The last part of `new`: the place of the initrd, if there is one. -/
def placeInitrd (dtbEnd ramEnd : Nat) :
    Option Nat → Except LinuxBootLayoutError (Option (Nat × Nat))
  | none | some 0 => .ok none
  | some size => do
      let initrdIpa ← alignUp dtbEnd pageSize
      let rounded ← alignUp size pageSize
      let stop ← okOr .addressOverflow (checkedAdd initrdIpa rounded)
      (if stop > ramEnd then throw .initrdTooLarge else pure ())
      pure (some (initrdIpa, size))

/-- One after the other from the start of RAM, each inside it. -/
def new (image : List UInt8) (ramIpa ramSize : Nat) (initrdSize : Option Nat) :
    Except LinuxBootLayoutError LinuxBootLayout := do
  let imageHeader ← (LinuxImageHeader.parse image).mapError .image
  (if !isAligned ramIpa linuxImageBaseAlignment ∨ !isPageAligned ramSize then throw .invalidRam
    else pure ())
  let ramEnd ← okOr .addressOverflow (checkedAdd ramIpa ramSize)
  let imageIpa ← okOr .addressOverflow (checkedAdd ramIpa imageHeader.textOffset)
  let imageEnd ← okOr .addressOverflow (checkedAdd imageIpa imageHeader.imageSize)
  (if imageIpa < ramIpa ∨ imageEnd > ramEnd then throw .imageTooLarge else pure ())
  (if imageHeader.requires48bitPlacement ∧ imageEnd > 1 <<< 48 then throw .imageTooLarge
    else pure ())
  let dtbIpa ← alignUp imageEnd 8
  let dtbEnd ← okOr .addressOverflow (checkedAdd dtbIpa linuxDtbCapacity)
  (if dtbEnd > ramEnd then throw .dtbTooLarge else pure ())
  let initrd ← placeInitrd dtbEnd ramEnd initrdSize
  pure { ramIpa, ramSize, imageHeader, imageIpa, dtbIpa, initrd }

/-- In the RAM of the guest platform. -/
def defaultForImage (image : List UInt8) (initrdSize : Option Nat) :
    Except LinuxBootLayoutError LinuxBootLayout :=
  new image guestRam.start guestRam.size initrdSize

end LinuxBootLayout

/-! ## Rounding -/

variable {e : LinuxBootLayoutError}

theorem alignUp_eq_ok {value alignment result : Nat} (h : alignUp value alignment = .ok result) :
    result = roundUp alignment value := by
  unfold alignUp at h
  unfold roundUp
  by_cases hzero : value % alignment = 0
  · rw [if_pos hzero] at h ⊢
    cases h
    rfl
  · rw [if_neg hzero] at h ⊢
    exact (checkedAdd_eq_some.mp (okOr_eq_ok.mp h)).2

theorem alignUp_eq_error {value alignment : Nat} (h : alignUp value alignment = .error e) :
    e = .addressOverflow := by
  unfold alignUp at h
  dsimp only at h
  split at h
  · cases h
  · exact (okOr_eq_error h).1

/-! ## What a layout has to be -/

/-- The image with its extent, the DTB window and the whole pages of the initrd. -/
def LinuxBootLayout.windows (layout : LinuxBootLayout) : List (Nat × Nat) :=
  (layout.imageIpa, layout.imageIpa + layout.imageHeader.imageSize) ::
  (layout.dtbIpa, layout.dtbIpa + linuxDtbCapacity) ::
  (layout.initrd.map fun initrd => (initrd.1, initrd.1 + roundUp pageSize initrd.2)).toList

variable {layout : LinuxBootLayout}

theorem LinuxBootLayout.mem_windows {window : Nat × Nat} :
    window ∈ layout.windows ↔
      window = (layout.imageIpa, layout.imageIpa + layout.imageHeader.imageSize) ∨
      window = (layout.dtbIpa, layout.dtbIpa + linuxDtbCapacity) ∨
      ∃ start size, layout.initrd = some (start, size) ∧
        window = (start, start + roundUp pageSize size) := by
  rcases hinitrd : layout.initrd with _ | ⟨start, size⟩
  · simp [windows, hinitrd]
  · simp [windows, hinitrd]

/-- Windows that begin where the one before has ended share nothing. -/
theorem LinuxBootLayout.windows_apart
    (hdtb : layout.imageIpa + layout.imageHeader.imageSize ≤ layout.dtbIpa)
    (hinitrd : ∀ start size, layout.initrd = some (start, size) →
      layout.dtbIpa + linuxDtbCapacity ≤ start) :
    layout.windows.Pairwise fun a b => Disjoint (Set.Ico a.1 a.2) (Set.Ico b.1 b.2) := by
  have hordered : layout.windows.Pairwise fun a b => a.2 ≤ b.1 := by
    rcases hsome : layout.initrd with _ | ⟨start, size⟩
    · simpa [windows, hsome] using hdtb
    · have hstart := hinitrd start size hsome
      have hdtbEnd : layout.dtbIpa ≤ layout.dtbIpa + linuxDtbCapacity := Nat.le_add_right _ _
      simpa [windows, hsome] using
        ⟨⟨hdtb, hdtb.trans (hdtbEnd.trans hstart)⟩, hstart⟩
  refine hordered.imp fun {a b} hle => Set.disjoint_left.mpr fun x hx hx' => ?_
  exact absurd (hx.2.trans_le (hle.trans hx'.1)) (lt_irrefl x)

/-- A layout that was accepted. -/
structure Placed (image : List UInt8) (ramIpa ramSize : Nat) (initrdSize : Option Nat)
    (layout : LinuxBootLayout) : Prop where
  header : LinuxImageHeader.parse image = .ok layout.imageHeader
  image : layout.imageIpa = ramIpa + layout.imageHeader.textOffset
  dtb : Rounded 8 (layout.imageIpa + layout.imageHeader.imageSize) layout.dtbIpa
  initrd : layout.initrd.map Prod.snd = initrdSize.filter (· ≠ 0)
  initrdAligned : ∀ start size, layout.initrd = some (start, size) → start % pageSize = 0
  inside : ∀ window ∈ layout.windows, ramIpa ≤ window.1 ∧ window.2 ≤ ramIpa + ramSize
  apart : layout.windows.Pairwise fun a b => Disjoint (Set.Ico a.1 a.2) (Set.Ico b.1 b.2)

/-- What a refusal for lack of room means. The places are those the objects would have had. -/
def Refused (image : List UInt8) (ramIpa ramSize : Nat) (initrdSize : Option Nat) :
    LinuxBootLayoutError → Prop
  | .imageTooLarge => ∃ header, LinuxImageHeader.parse image = .ok header ∧
      (ramIpa + ramSize < ramIpa + header.textOffset + header.imageSize ∨
        header.requires48bitPlacement = true ∧
          2 ^ 48 < ramIpa + header.textOffset + header.imageSize)
  | .dtbTooLarge => ∃ header dtbIpa, LinuxImageHeader.parse image = .ok header ∧
      Rounded 8 (ramIpa + header.textOffset + header.imageSize) dtbIpa ∧
      ramIpa + ramSize < dtbIpa + linuxDtbCapacity
  | .initrdTooLarge => ∃ header dtbIpa size start rounded,
      LinuxImageHeader.parse image = .ok header ∧ initrdSize = some size ∧ 0 < size ∧
      Rounded 8 (ramIpa + header.textOffset + header.imageSize) dtbIpa ∧
      Rounded pageSize (dtbIpa + linuxDtbCapacity) start ∧ Rounded pageSize size rounded ∧
      ramIpa + ramSize < start + rounded
  | _ => True

/-! ## Accepting and refusing -/

section Initrd

variable {dtbEnd ramEnd : Nat} {initrdSize : Option Nat}

theorem placeInitrd_eq_ok {initrd : Option (Nat × Nat)}
    (h : LinuxBootLayout.placeInitrd dtbEnd ramEnd initrdSize = .ok initrd) :
    initrd.map Prod.snd = initrdSize.filter (· ≠ 0) ∧
      ∀ start size, initrd = some (start, size) →
        start = roundUp pageSize dtbEnd ∧ start + roundUp pageSize size ≤ ramEnd := by
  rcases initrdSize with _ | _ | size
  · cases h
    exact ⟨rfl, nofun⟩
  · cases h
    exact ⟨rfl, nofun⟩
  · obtain ⟨start, hstart, h⟩ := bind_eq_ok.mp h
    obtain ⟨rounded, hrounded, h⟩ := bind_eq_ok.mp h
    obtain ⟨stop, hstop, h⟩ := bind_eq_ok.mp h
    obtain ⟨_, hcheck, h⟩ := bind_eq_ok.mp h
    cases h
    have hstart := alignUp_eq_ok hstart
    have hrounded := alignUp_eq_ok hrounded
    obtain ⟨-, rfl⟩ := checkedAdd_eq_some.mp (okOr_eq_ok.mp hstop)
    have hfits := ite_throw_eq_ok.mp hcheck
    refine ⟨rfl, ?_⟩
    rintro start' size' ⟨⟩
    exact ⟨hstart, by rw [← hrounded]; omega⟩

theorem placeInitrd_eq_error (h : LinuxBootLayout.placeInitrd dtbEnd ramEnd initrdSize = .error e) :
    e = .addressOverflow ∨ e = .initrdTooLarge ∧ ∃ size, initrdSize = some size ∧ 0 < size ∧
      ramEnd < roundUp pageSize dtbEnd + roundUp pageSize size := by
  rcases initrdSize with _ | _ | size
  · cases h
  · cases h
  · rcases bind_eq_error h with h | ⟨start, hstart, h⟩
    · exact .inl (alignUp_eq_error h)
    rcases bind_eq_error h with h | ⟨rounded, hrounded, h⟩
    · exact .inl (alignUp_eq_error h)
    rcases bind_eq_error h with h | ⟨stop, hstop, h⟩
    · exact .inl (okOr_eq_error h).1
    obtain ⟨-, rfl⟩ := checkedAdd_eq_some.mp (okOr_eq_ok.mp hstop)
    rcases bind_eq_error h with h | ⟨_, -, h⟩
    · obtain ⟨hlarge, rfl⟩ := ite_throw_eq_error.mp h
      rw [alignUp_eq_ok hstart, alignUp_eq_ok hrounded] at hlarge
      exact .inr ⟨rfl, size + 1, rfl, Nat.succ_pos size, hlarge⟩
    · cases h

end Initrd

section Layout

variable {image : List UInt8} {ramIpa ramSize : Nat} {initrdSize : Option Nat}

/-- An accepted layout puts its windows in RAM, one after the other. -/
theorem new_placed (h : LinuxBootLayout.new image ramIpa ramSize initrdSize = .ok layout) :
    Placed image ramIpa ramSize initrdSize layout := by
  obtain ⟨header, hparse, h⟩ := bind_eq_ok.mp h
  obtain ⟨_, -, h⟩ := bind_eq_ok.mp h
  obtain ⟨ramEnd, hramEnd, h⟩ := bind_eq_ok.mp h
  obtain ⟨imageIpa, himageIpa, h⟩ := bind_eq_ok.mp h
  obtain ⟨imageEnd, himageEnd, h⟩ := bind_eq_ok.mp h
  obtain ⟨_, himage, h⟩ := bind_eq_ok.mp h
  obtain ⟨_, -, h⟩ := bind_eq_ok.mp h
  obtain ⟨dtbIpa, hdtbIpa, h⟩ := bind_eq_ok.mp h
  obtain ⟨dtbEnd, hdtbEnd, h⟩ := bind_eq_ok.mp h
  obtain ⟨_, hdtb, h⟩ := bind_eq_ok.mp h
  obtain ⟨initrd, hinitrd, h⟩ := bind_eq_ok.mp h
  cases h
  obtain ⟨-, rfl⟩ := checkedAdd_eq_some.mp (okOr_eq_ok.mp hramEnd)
  obtain ⟨-, rfl⟩ := checkedAdd_eq_some.mp (okOr_eq_ok.mp himageIpa)
  obtain ⟨-, rfl⟩ := checkedAdd_eq_some.mp (okOr_eq_ok.mp himageEnd)
  obtain ⟨-, rfl⟩ := checkedAdd_eq_some.mp (okOr_eq_ok.mp hdtbEnd)
  have himage := ite_throw_eq_ok.mp himage
  have hdtb := ite_throw_eq_ok.mp hdtb
  have hround : Rounded 8 (ramIpa + header.textOffset + header.imageSize) dtbIpa :=
    alignUp_eq_ok hdtbIpa ▸ rounded_roundUp (by decide)
  have hle := hround.le
  obtain ⟨hsizes, hplace⟩ := placeInitrd_eq_ok hinitrd
  -- the initrd begins after the DTB window, on a page
  have hinitrd : ∀ start size, initrd = some (start, size) → start % pageSize = 0 ∧
      dtbIpa + linuxDtbCapacity ≤ start ∧
      start + roundUp pageSize size ≤ ramIpa + ramSize := by
    intro start size hsome
    obtain ⟨hstart, hfits⟩ := hplace start size hsome
    have hrounded : Rounded pageSize (dtbIpa + linuxDtbCapacity) start := by
      rw [hstart]
      exact rounded_roundUp (by decide)
    exact ⟨Nat.mod_eq_zero_of_dvd hrounded.dvd, hrounded.le, hfits⟩
  refine ⟨mapError_eq_ok.mp hparse, rfl, hround, hsizes, ?_, ?_, ?_⟩
  · exact fun start size hsome => (hinitrd start size hsome).1
  · intro window hwindow
    rcases LinuxBootLayout.mem_windows.mp hwindow with rfl | rfl | ⟨start, size, hsome, rfl⟩
    · exact ⟨Nat.le_add_right _ _, by dsimp only; omega⟩
    · exact ⟨by dsimp only; omega, by dsimp only; omega⟩
    · obtain ⟨-, hlo, hhi⟩ := hinitrd start size hsome
      exact ⟨by dsimp only; omega, hhi⟩
  · exact LinuxBootLayout.windows_apart hle fun start size hsome => (hinitrd start size hsome).2.1

-- An image with the usual offset of half a megabyte and an extent of two pages.
example :
    LinuxBootLayout.new
      (List.replicate 8 0 ++ [0, 0, 8, 0, 0, 0, 0, 0] ++ [0, 0x20, 0, 0, 0, 0, 0, 0] ++
        List.replicate 32 0 ++ [0x41, 0x52, 0x4d, 0x64, 0, 0, 0, 0])
      0x4000_0000 0x100_0000 (some 5) =
    .ok ⟨0x4000_0000, 0x100_0000, ⟨0x8_0000, 0x2000, 0⟩, 0x4008_0000, 0x4008_2000,
      some (0x4028_2000, 5)⟩ := by
  decide +kernel

/-- A refusal for lack of room is one. -/
theorem new_refused (h : LinuxBootLayout.new image ramIpa ramSize initrdSize = .error e) :
    Refused image ramIpa ramSize initrdSize e := by
  have overflow : ∀ {x : Option Nat}, okOr LinuxBootLayoutError.addressOverflow x = .error e →
      Refused image ramIpa ramSize initrdSize e := by
    intro x hx
    rw [(okOr_eq_error hx).1]
    trivial
  rcases bind_eq_error h with h | ⟨header, hparse, h⟩
  · rcases himage : LinuxImageHeader.parse image with e' | header
    · rw [himage] at h
      cases h
      trivial
    · rw [himage] at h
      cases h
  have hparse := mapError_eq_ok.mp hparse
  rcases bind_eq_error h with h | ⟨_, -, h⟩
  · obtain ⟨-, rfl⟩ := ite_throw_eq_error.mp h
    trivial
  rcases bind_eq_error h with h | ⟨ramEnd, hramEnd, h⟩
  · exact overflow h
  rcases bind_eq_error h with h | ⟨imageIpa, himageIpa, h⟩
  · exact overflow h
  rcases bind_eq_error h with h | ⟨imageEnd, himageEnd, h⟩
  · exact overflow h
  have hramEnd := (checkedAdd_eq_some.mp (okOr_eq_ok.mp hramEnd)).2
  have himageIpa := (checkedAdd_eq_some.mp (okOr_eq_ok.mp himageIpa)).2
  have himageEnd := (checkedAdd_eq_some.mp (okOr_eq_ok.mp himageEnd)).2
  rw [himageIpa] at himageEnd
  -- the image
  rcases bind_eq_error h with h | ⟨_, -, h⟩
  · obtain ⟨hlarge, rfl⟩ := ite_throw_eq_error.mp h
    exact ⟨header, hparse, .inl (by omega)⟩
  rcases bind_eq_error h with h | ⟨_, -, h⟩
  · obtain ⟨⟨hlow, hhigh⟩, rfl⟩ := ite_throw_eq_error.mp h
    exact ⟨header, hparse, .inr ⟨hlow, himageEnd ▸ hhigh⟩⟩
  -- the DTB window
  rcases bind_eq_error h with h | ⟨dtbIpa, hdtbIpa, h⟩
  · rw [alignUp_eq_error h]
    trivial
  have hround : Rounded 8 (ramIpa + header.textOffset + header.imageSize) dtbIpa := by
    rw [alignUp_eq_ok hdtbIpa, himageEnd]
    exact rounded_roundUp (by decide)
  rcases bind_eq_error h with h | ⟨dtbEnd, hdtbEnd, h⟩
  · exact overflow h
  have hdtbEnd := (checkedAdd_eq_some.mp (okOr_eq_ok.mp hdtbEnd)).2
  rcases bind_eq_error h with h | ⟨_, -, h⟩
  · obtain ⟨hlarge, rfl⟩ := ite_throw_eq_error.mp h
    exact ⟨header, dtbIpa, hparse, hround, by rw [← hramEnd, ← hdtbEnd]; exact hlarge⟩
  -- the initrd
  rcases bind_eq_error h with h | ⟨initrd, -, h⟩
  · rcases placeInitrd_eq_error h with rfl | ⟨rfl, size, hsize, hpos, hlarge⟩
    · trivial
    · rw [hdtbEnd, hramEnd] at hlarge
      exact ⟨header, dtbIpa, size, _, _, hparse, hsize, hpos, hround,
        rounded_roundUp (by decide), rounded_roundUp (by decide), hlarge⟩
  · cases h

end Layout

end Tvisor.LinuxBoot
