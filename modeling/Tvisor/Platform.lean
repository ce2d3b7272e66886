/-
# Tvisor.Platform -- the memory map of a device tree

`discover_memory_map` clears the destination and fills it from the device tree: RAM from the
enabled memory nodes, reservations from the reservation block, the reserved-memory nodes, the blob
itself and the image, MMIO windows from `/soc`. On a BCM2711 the stretch from the end of the low
RAM up to 1 GiB belongs to the firmware; it is inserted both as RAM and as reserved.

The tree is what the device-tree library yields from the blob: nodes and entries, each with the
result of its accessor, which may be an error of the library. What the library does with the bytes
is outside the model.
-/
import Tvisor.MemoryMap

namespace Tvisor.Platform

open SystemInfo Fallible Words Page

/-! ## The device tree -/

/-- A property that cannot be read. -/
inductive FdtError where
  | malformed
  deriving DecidableEq, Repr

/-- The values of `status`. -/
inductive Status where
  | okay
  | disabled
  | reserved
  | fail
  | failSss
  deriving DecidableEq, Repr

/-- An entry of `reg` or `alloc-ranges`. Its cells may not fit a word. -/
structure Reg where
  address : Except FdtError Nat
  size : Except FdtError Nat

/-- An entry of `ranges`. -/
structure Range where
  childBusAddress : Except FdtError Nat
  parentBusAddress : Except FdtError Nat
  length : Except FdtError Nat

/-- A child of the root. -/
structure Node where
  deviceType : Option (Except FdtError String)
  status : Except FdtError Status
  reg : Except FdtError (Option (List Reg))

/-- A child of `/reserved-memory`. -/
structure ReservedMemory where
  status : Except FdtError Status
  noMap : Bool
  reusable : Bool
  noMapFixup : Bool
  reg : Except FdtError (Option (List Reg))
  size : Except FdtError (Option (Except FdtError Nat))
  alignment : Except FdtError (Option (Except FdtError Nat))
  allocRanges : Except FdtError (Option (List Reg))

/-- The node `/soc`. -/
structure Soc where
  status : Except FdtError Status
  ranges : Except FdtError (Option (List Range))

/-- What discovery asks of the device tree. -/
structure Fdt where
  /-- `compatible` of the root. -/
  compatible : List String
  children : List Node
  /-- The reservation block: addresses and sizes. -/
  memoryReservations : List (Nat × Nat)
  reservedMemory : Option (List ReservedMemory)
  soc : Option Soc
  /-- The length of the blob. -/
  size : Nat

/-- The board with the carveout. -/
def bcm2711Compatible : String := "brcm,bcm2711"

/-- Where its first gigabyte ends. -/
def bcm2711LowMemoryLimit : Nat := 0x40000000

/-! ## Discovery -/

/-- The three lists of the map. -/
inductive CapacityKind where
  | ram
  | reserved
  | mmio
  deriving DecidableEq, Repr

/-- Why discovery fails. -/
inductive PlatformError where
  | missingMemory
  | invalidMemory
  | invalidReservation
  | conflictingReservationAttributes
  | invalidDynamicReservation
  | unboundedDynamicReservation
  | missingSocRanges
  | invalidSocRanges
  | invalidDtbRegion
  | memoryMap (e : MemoryMapError)
  | capacity (kind : CapacityKind) (capacity : Nat)
  deriving DecidableEq, Repr

/-- A step that adds to the map. -/
abbrev Discover := EStateM PlatformError MemoryMap

/-- `value.map_err(|_| e)?` -/
def orFail {ε α : Type} (e : PlatformError) (x : Except ε α) : Discover α :=
  lift (x.mapError fun _ => e)

/-- A full list is named by its kind. -/
def memoryError (kind : CapacityKind) : MemoryMapError → PlatformError
  | .capacity capacity => .capacity kind capacity
  | .invalidRegion _ | .ramMmioConflict _ _ => .invalidMemory

/-- The page of an address. -/
def pageAddress (addr : Nat) : Nat := addr &&& bitNot (pageSize - 1)

theorem pageAddress_eq {addr : Nat} (h : addr < wordBound) :
    pageAddress addr = addr / pageSize * pageSize :=
  land_bitNot_low (k := 12) h (by decide)

/-- The pages that a range of bytes meets. -/
def pageRoundedRegion (start size : Nat) : Except RegionError PhysRegion :=
  match checkedAdd start size with
  | none => .error .addressOverflow
  | some stop =>
      match checkedAdd stop (pageSize - 1) with
      | none => .error .addressOverflow
      | some rounded => PhysRegion.fromBounds (pageAddress start) (pageAddress rounded)

/-- The end of every loop body: a region from its bounds, into one of the lists. -/
def insertRegion (e : PlatformError) (kind : CapacityKind)
    (insert : PhysRegion → EStateM MemoryMapError MemoryMap Unit) (start size : Nat) :
    Discover Unit := do
  let region ← orFail e (PhysRegion.new start size)
  mapError (memoryError kind) (insert region)

/-- The loop body for an entry of `reg` or `alloc-ranges`. -/
def insertEntry (e : PlatformError) (kind : CapacityKind)
    (insert : PhysRegion → EStateM MemoryMapError MemoryMap Unit) (entry : Reg) :
    Discover Unit := do
  let start ← orFail e entry.address
  let size ← orFail e entry.size
  insertRegion e kind insert start size

/-- One round of the loop of `discover_ram`: whether a region has been found. -/
def discoverNode (found : Bool) (node : Node) : Discover Bool :=
  match node.deviceType with
  | none => pure found
  | some deviceType => do
      let deviceType ← orFail .invalidMemory deviceType
      if deviceType ≠ "memory" then pure found
      else
        let status ← orFail .invalidMemory node.status
        if status ≠ .okay then pure found
        else
          match ← orFail .invalidMemory node.reg with
          | none => throw .invalidMemory
          | some registers =>
              registers.forM (insertEntry .invalidMemory .ram MemoryMap.insertRam)
              pure (found || !registers.isEmpty)

/-- One memory node with an entry is needed. -/
def discoverRam (fdt : Fdt) : Discover Unit := do
  let found ← fdt.children.foldlM discoverNode false
  if found then pure () else throw .missingMemory

/-- The firmware hides the top of the first gigabyte; it is memory, and reserved. -/
def discoverBcm2711FirmwareCarveout (fdt : Fdt) : Discover Unit := do
  if !fdt.compatible.contains bcm2711Compatible then pure ()
  else
    let map ← get
    match ((map.ram.entries.filter fun ram => ram.start == 0).map PhysRegion.endAddr).max? with
    | none => throw .missingMemory
    | some lowRamEnd =>
        if bcm2711LowMemoryLimit ≤ lowRamEnd then pure ()
        else
          let carveout ← orFail .invalidMemory
            (PhysRegion.fromBounds lowRamEnd bcm2711LowMemoryLimit)
          mapError (memoryError .ram) (MemoryMap.insertRam carveout)
          mapError (memoryError .reserved) (MemoryMap.insertReserved carveout)

/-- The `alloc-ranges` of a dynamic reservation: every place where it may come to lie. -/
def reserveAllocRanges (reservation : ReservedMemory) : Discover Unit := do
  match ← orFail .invalidReservation reservation.allocRanges with
  | none => throw .unboundedDynamicReservation
  | some ranges =>
      ranges.forM (insertEntry .invalidReservation .reserved MemoryMap.insertReserved)
      if ranges.isEmpty then throw .unboundedDynamicReservation else pure ()

/-- A node without `reg`: its size and alignment, then its ranges. -/
def reserveRanges (reservation : ReservedMemory) : Discover Unit := do
  match ← orFail .invalidReservation reservation.size with
  | none => throw .invalidReservation
  | some size =>
      let size ← orFail .invalidReservation size
      if size = 0 then throw .invalidDynamicReservation
      else
        let alignment ← orFail .invalidReservation reservation.alignment
        let badAlignment ← match alignment with
          | none => pure false
          | some alignment => do
              let alignment ← orFail .invalidReservation alignment
              pure !isPowerOfTwo alignment
        if badAlignment then throw .invalidDynamicReservation
        else reserveAllocRanges reservation

/-- One child of `/reserved-memory`, fixed or dynamic. -/
def discoverReservation (reservation : ReservedMemory) : Discover Unit := do
  let status ← orFail .invalidReservation reservation.status
  if status ≠ .okay then pure ()
  else if reservation.noMap && reservation.reusable then throw .conflictingReservationAttributes
  else if reservation.noMapFixup then throw .invalidReservation
  else
    match ← orFail .invalidReservation reservation.reg with
    | some registers =>
        registers.forM (insertEntry .invalidReservation .reserved MemoryMap.insertReserved)
    | none => reserveRanges reservation

/-- The children of `/reserved-memory`. -/
def discoverReservedMemory (fdt : Fdt) : Discover Unit :=
  match fdt.reservedMemory with
  | none => pure ()
  | some reservations => reservations.forM discoverReservation

/-- The reservation block, the nodes, the blob and the image. -/
def discoverReservations (fdt : Fdt) (dtbAddress : Nat) (tvisorImage : PhysRegion) :
    Discover Unit := do
  fdt.memoryReservations.forM fun (address, size) =>
    insertRegion .invalidReservation .reserved MemoryMap.insertReserved address size
  discoverReservedMemory fdt
  let dtbRegion ← orFail .invalidDtbRegion (pageRoundedRegion dtbAddress fdt.size)
  mapError (memoryError .reserved) (MemoryMap.insertReserved dtbRegion)
  mapError (memoryError .reserved) (MemoryMap.insertReserved tvisorImage)

/-- One entry of the `ranges` of `/soc`. -/
def discoverRange (range : Range) : Discover Unit := do
  let _ ← orFail .invalidSocRanges range.childBusAddress
  insertEntry .invalidSocRanges .mmio MemoryMap.insertMmio
    { address := range.parentBusAddress, size := range.length }

/-- The windows of `/soc`. -/
def discoverMmio (fdt : Fdt) : Discover Unit :=
  match fdt.soc with
  | none => pure ()
  | some soc => do
      let status ← orFail .invalidSocRanges soc.status
      if status ≠ .okay then pure ()
      else
        match ← orFail .invalidSocRanges soc.ranges with
        | none => throw .missingSocRanges
        | some ranges => ranges.forM discoverRange

/-- A map is built from nothing and finalized. -/
def discoverMemoryMap (fdt : Fdt) (dtbAddress : Nat) (tvisorImage : PhysRegion) :
    Discover Unit := do
  modify MemoryMap.clear
  discoverRam fdt
  discoverBcm2711FirmwareCarveout fdt
  discoverReservations fdt dtbAddress tvisorImage
  discoverMmio fdt
  mapError .memoryMap MemoryMap.finalize

end Tvisor.Platform
