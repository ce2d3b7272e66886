/-
# Tvisor.VmCtl -- the memory of one virtual machine

`src/vmctl.rs`: the entries of `vm_mem`, the calls that add to them, the two calls that write
stage-2 leaves, and `release_all`. A call sees three things, which are the fields of `State`: the
entries of its own VM, all of physical memory, and the global page allocator. A call that fails
half-way leaves what it had done by then.

The EL2 address of a page is its physical address, so a table is read and written at the address an
entry names, whatever is there. The identifier and the virtual CPUs of a VM take no part in any of
this and are left out; so are the iterators that only report entries.
-/
import Tvisor.GuestStage2
import Tvisor.Mm

namespace Tvisor.VmCtl

open Fallible Page Words GuestStage2 Mm
open El2Stage1 (TranslationError)

/-- `guest_platform::DEFAULT_GUEST_RAM_SIZE` -/
def defaultGuestRamSize : Nat := 512 * 1024 * 1024

def maxGuestMemBytes : Nat := defaultGuestRamSize + 2 * 1024 * 1024
def maxGuestMemPages : Nat := maxGuestMemBytes / pageSize

inductive VmMemUsage where
  | guestRam
  | image
  | scratch
  | stack
  | dtb
  | guard
  | guestStage2PageTable
  deriving DecidableEq, Repr

def VmMemUsage.needPhysicalMemory : VmMemUsage → Bool
  | .guestRam => true
  | .image => true
  | .dtb => true
  | .stack => true
  | .guard => false
  | .scratch => true
  | .guestStage2PageTable => true

/-- The usages that `vm_mem_alloc` wants an IPA for. -/
def VmMemUsage.needsIpa : VmMemUsage → Bool
  | .image | .guestRam | .scratch | .dtb | .stack | .guard => true
  | .guestStage2PageTable => false

structure IpaOnlyRegion where
  usage : VmMemUsage
  base : Nat
  size : Nat
  deriving DecidableEq, Repr

def IpaOnlyRegion.endAddr (r : IpaOnlyRegion) : Option Nat := checkedAdd r.base r.size

structure IpaPaRegion where
  usage : VmMemUsage
  ipa : Nat
  pa : Nat
  size : Nat
  deriving DecidableEq, Repr

def IpaPaRegion.paEnd (r : IpaPaRegion) : Option Nat := checkedAdd r.pa r.size

def IpaPaRegion.ipaEnd (r : IpaPaRegion) : Option Nat := checkedAdd r.ipa r.size

structure PaRegion where
  usage : VmMemUsage
  pa : List Nat
  deriving DecidableEq, Repr

inductive VmMem where
  | ipaOnly (region : IpaOnlyRegion)
  | ipaPa (region : IpaPaRegion)
  | paOnly (region : PaRegion)
  deriving DecidableEq, Repr

namespace VmMem

def usage : VmMem → VmMemUsage
  | .ipaPa r => r.usage
  | .paOnly r => r.usage
  | .ipaOnly r => r.usage

def physicalPages : VmMem → Nat
  | .ipaOnly _ => 0
  | .ipaPa r => r.size / pageSize
  | .paOnly r => r.pa.length

def ipaRange : VmMem → Option (Nat × Nat)
  | .ipaPa r => r.ipaEnd.map fun stop => (r.ipa, stop)
  | .ipaOnly r => r.endAddr.map fun stop => (r.base, stop)
  | .paOnly _ => none

/-- What `vm_mem_alloc` returns for the entry it made. -/
def firstAddress : VmMem → Option Nat
  | .ipaPa r => some r.pa
  | .ipaOnly _ => none
  | .paOnly r => r.pa.head?

/-- The addresses `release_all` frees for an entry. -/
def backing : VmMem → List Nat
  | .ipaOnly _ => []
  | .ipaPa r => (List.range (r.size / pageSize)).map fun page => r.pa + page * pageSize
  | .paOnly r => r.pa

end VmMem

/-- What the calls of one VM work on. -/
structure State where
  vmMem : List VmMem
  memory : Memory
  pages : GlobalPageAllocator

/-- `self.vm_mem.iter().find(|f| f.usage() == usage)` -/
def findUsage (vmMem : List VmMem) (usage : VmMemUsage) : Option VmMem :=
  vmMem.find? fun m => m.usage = usage

/-- The page list of a region is never empty, so `pa[0]` is its head. -/
def guestStage2PageTableRoot (vmMem : List VmMem) : Option Nat :=
  match findUsage vmMem .guestStage2PageTable with
  | some (.paOnly r) => r.pa.head?
  | _ => none

def allocatedPhysicalPages (vmMem : List VmMem) : Nat := (vmMem.map VmMem.physicalPages).sum

def validateIpaRange (vmMem : List VmMem) (ipa size : Nat) : Except AllocatorError Unit :=
  if size = 0 ∨ !isPageAligned ipa then .error .invalidIpa
  else match checkedAdd ipa size with
    | none => .error .addressOverflow
    | some stop =>
        if wrappingSub stop 1 > (1 <<< ipaBits) - 1 then .error .invalidIpa
        else if (vmMem.filterMap VmMem.ipaRange).any fun r => ipa < r.2 && r.1 < stop then
          .error .overlappingIpa
        else .ok ()

/-- A call into the page allocator. -/
def onPages {α : Type} (x : EStateM AllocatorError GlobalPageAllocator α) :
    EStateM AllocatorError State α :=
  zoom State.pages (fun s g => { s with pages := g }) x

/-- The entry for a request that has passed its checks. `ipa` is there for every usage that reads
it. -/
def memOf (usage : VmMemUsage) (ipa : Option Nat) (phy size : Nat) : VmMem :=
  match usage with
  | .guestStage2PageTable =>
      .paOnly ⟨usage, (List.range (size / pageSize)).map fun p => phy + p * pageSize⟩
  | .guestRam | .image | .scratch | .dtb | .stack => .ipaPa ⟨usage, ipa.getD 0, phy, size⟩
  | .guard => .ipaOnly ⟨usage, ipa.getD 0, size⟩

/-- The checks of `vm_mem_alloc` that come before any memory is taken. -/
def validateRequest (vmMem : List VmMem) (usage : VmMemUsage) (ipa : Option Nat) (size : Nat) :
    Except AllocatorError Unit := do
  (if vmMem.any fun v => v.usage = usage then throw .alreadyAllocated else pure ())
  (if usage.needsIpa && ipa.isNone then throw .invalidateParameter else pure ())
  (if !usage.needsIpa && ipa.isSome then throw .invalidateParameter else pure ())
  match ipa with
  | some ipa => validateIpaRange vmMem ipa size
  | none => pure ()

/-- Take and clear the physical pages of a request within the budget of the VM. -/
def takeBacking (size : Nat) : EStateM AllocatorError State Nat := do
  let s ← get
  let total ← orThrow .addressOverflow
    (checkedAdd (allocatedPhysicalPages s.vmMem) (size / pageSize))
  (if total > maxGuestMemPages then throw .exhausted else pure ())
  let phy ← onPages (allocateContiguousPages (size / pageSize))
  modify fun s => { s with memory := s.memory.writeZeros phy size }
  pure phy

def vmMemAlloc (usage : VmMemUsage) (ipa : Option Nat) (size : Nat) :
    EStateM AllocatorError State (Option Nat) := do
  let sizeAligned ← orThrow .addressOverflow (alignUp size pageSize)
  let s ← get
  lift (validateRequest s.vmMem usage ipa sizeAligned)
  let phy ← (if usage.needPhysicalMemory then takeBacking sizeAligned else pure 0)
  let mem := memOf usage ipa phy sizeAligned
  modify fun s => { s with vmMem := s.vmMem ++ [mem] }
  pure mem.firstAddress

/-- `pt.pa.push(phy)` on the first entry with the page-table usage. -/
def pushTablePage (phy : Nat) : List VmMem → List VmMem
  | [] => []
  | m :: rest =>
      if m.usage = .guestStage2PageTable then
        (match m with
          | .paOnly r => .paOnly { r with pa := r.pa ++ [phy] }
          | m => m) :: rest
      else m :: pushTablePage phy rest

def vmMemAllocSubGuestStage2PageTable : EStateM AllocatorError State Nat := do
  let s ← get
  (if allocatedPhysicalPages s.vmMem ≥ maxGuestMemPages then throw .exhausted else pure ())
  match findUsage s.vmMem .guestStage2PageTable with
  | some (.paOnly _) => do
      let phy ← onPages allocatePage
      modify fun s =>
        { s with memory := s.memory.writeZeros phy pageSize, vmMem := pushTablePage phy s.vmMem }
      pure phy
  | _ => throw .unexpected

/-! ## Mapping -/

/-- The lookup of one level: follow the link, or grow a table and link it. -/
def nextTable (table : Nat) (index : Fin 512) : EStateM TranslationError State Nat := do
  let s ← get
  let entry := s.memory.entry table index
  if entry &&& valid ≠ 0 then
    (if entry &&& tableOrPage = 0 then throw .conflictingEntry else pure (entry &&& addressMask))
  else do
    let next ← mapError (fun _ => .tableExhausted) vmMemAllocSubGuestStage2PageTable
    modify fun s => { s with memory := s.memory.setEntry table index (tableDescriptor next) }
    pure next

/-- The insertion at level 3. -/
def insertLeaf (table : Nat) (index : Fin 512) (desc : Nat) :
    EStateM TranslationError State Unit := do
  let s ← get
  let current := s.memory.entry table index
  if current &&& valid ≠ 0 then
    (if current ≠ desc then throw .conflictingEntry else pure ())
  else set { s with memory := s.memory.setEntry table index desc }

def mapL3Page (ipa pa : Nat) (memType : GuestStage2MemoryType) (access : GuestStage2Access)
    (exec : GuestStage2Exec) : EStateM TranslationError State Unit := do
  let s ← get
  let root ← orThrow .unexpected (guestStage2PageTableRoot s.vmMem)
  let l2Pa ← nextTable root (tableIndex l1Shift ipa)
  let l3Pa ← nextTable l2Pa (tableIndex l2Shift ipa)
  insertLeaf l3Pa (tableIndex l3Shift ipa) (encodeL3PageDescriptor pa memType access exec)

/-- `1_u64 << pa_bits`, with the shift amount masked as on the target. -/
def paLimit (paBits : Nat) : Nat := 1 <<< (paBits % 64)

/-- The last address of a mapping must fit the IPA space and the physical address width. -/
def checkBounds (ipaEnd paEnd paBits : Nat) : Except TranslationError Unit :=
  let maxIpa := (1 <<< ipaBits) - 1
  let maxPa := paLimit paBits - 1
  if wrappingSub ipaEnd 1 > maxIpa then .error .virtualAddressOutOfRange
  else if wrappingSub paEnd 1 > maxPa then .error .physicalAddressOutOfRange
  else .ok ()

/-- `while current_ipa < ipa_end`. Each round moves by a page, so `stop - ipa` rounds suffice. -/
def mapPages (stop : Nat) (memType : GuestStage2MemoryType) (access : GuestStage2Access)
    (exec : GuestStage2Exec) : Nat → Nat → Nat → EStateM TranslationError State Unit
  | 0, _, _ => pure ()
  | fuel + 1, ipa, pa =>
      if ipa < stop then do
        mapL3Page ipa pa memType access exec
        mapPages stop memType access exec fuel (ipa + pageSize) (pa + pageSize)
      else pure ()

def mapWithPaBits (usage : VmMemUsage) (memType : GuestStage2MemoryType)
    (access : GuestStage2Access) (exec : GuestStage2Exec) (paBits : Nat) :
    EStateM TranslationError State Unit := do
  let s ← get
  match findUsage s.vmMem usage with
  | some (.ipaPa mapping) => do
      let ipaEnd ← orThrow .addressOverflow mapping.ipaEnd
      let paEnd ← orThrow .addressOverflow mapping.paEnd
      lift (checkBounds ipaEnd paEnd paBits)
      mapPages ipaEnd memType access exec (ipaEnd - mapping.ipa) mapping.ipa mapping.pa
  | _ => throw .invalidateParameter

/-- `IdAa64Mmfr0El1::pa_bits` -/
def paBitsOf (mmfr0 : Nat) : Option Nat :=
  match mmfr0 &&& 0xf with
  | 0 => some 32
  | 1 => some 36
  | 2 => some 40
  | 3 => some 42
  | 4 => some 44
  | 5 => some 48
  | _ => none

def mapExternalDeviceWithPaBits (ipa pa size paBits : Nat) :
    EStateM TranslationError State Unit := do
  (if size = 0 ∨ !isPageAligned ipa ∨ !isPageAligned pa ∨ !isPageAligned size then
    throw .unalignedMapping else pure ())
  let ipaEnd ← orThrow .addressOverflow (checkedAdd ipa size)
  let paEnd ← orThrow .addressOverflow (checkedAdd pa size)
  lift (checkBounds ipaEnd paEnd paBits)
  -- `(0..size).step_by(PAGE_SIZE)` on a size that is a whole number of pages
  (List.range (size / pageSize)).forM fun page =>
    mapL3Page (ipa + page * pageSize) (pa + page * pageSize) .deviceNgNre .readWrite .executeNever

/-- The register is unreadable below EL1. -/
def mapExternalDevice (mmfr0 : Option Nat) (ipa pa size : Nat) :
    EStateM TranslationError State Unit := do
  (if !isPageAligned ipa ∨ !isPageAligned pa ∨ !isAligned size pageSize then
    throw .unalignedMapping else pure ())
  let mmfr0 ← orThrow .unexpected mmfr0
  let paBits ← orThrow .unexpected (paBitsOf mmfr0)
  mapExternalDeviceWithPaBits ipa pa size paBits

/-! ## Release -/

/-- Free pages one by one. A failed call is printed and passed over. The calls are returned with
their results. -/
def freeEach : List Nat → GlobalPageAllocator →
    List (Nat × Except AllocatorError Unit) × GlobalPageAllocator
  | [], g => ([], g)
  | pa :: rest, g =>
      let result := (freePage pa).run g
      let (calls, g') := freeEach rest (Fallible.state result)
      ((pa, outcome result) :: calls, g')

/-- `release_all`, with the calls of `free_page` it makes. -/
def releaseAll (s : State) : List (Nat × Except AllocatorError Unit) × State :=
  let (calls, pages) := freeEach (s.vmMem.flatMap VmMem.backing) s.pages
  (calls, { s with vmMem := [], pages })

/-! ## Calls -/

/-- The calls that build up a VM. -/
inductive Call where
  | vmMemAlloc (usage : VmMemUsage) (ipa : Option Nat) (size : Nat)
  | map (usage : VmMemUsage) (memType : GuestStage2MemoryType) (access : GuestStage2Access)
      (exec : GuestStage2Exec) (paBits : Nat)
  | mapExternalDevice (mmfr0 : Option Nat) (ipa pa size : Nat)
  deriving DecidableEq, Repr

/-- The state a call leaves, whatever it returns. -/
def State.call (s : State) : Call → State
  | .vmMemAlloc usage ipa size => Fallible.state ((vmMemAlloc usage ipa size).run s)
  | .map usage memType access exec paBits =>
      Fallible.state ((mapWithPaBits usage memType access exec paBits).run s)
  | .mapExternalDevice mmfr0 ipa pa size =>
      Fallible.state ((mapExternalDevice mmfr0 ipa pa size).run s)

/-- A fresh `VmCtl` in whatever memory and allocator there are. -/
def fresh (memory : Memory) (pages : GlobalPageAllocator) : State := ⟨[], memory, pages⟩

end Tvisor.VmCtl
