/-
# Tvisor.CpuStartup -- the firmware's memory that secondary CPUs wait in

`tvisor_util/cpu_startup.rs`. Before the memory map exists, `discover_startup_memory` reads the
reservation block of the device tree and collects the release cells of the enabled CPUs, each of
which must lie in one entry of the block and in declared RAM. Once the map exists,
`verify_memory_map` reads the block again and asks of every entry and every cell that the map keeps
it: inside one reserved region, and outside everything usable.

The result is that the second reading cannot fail after the first. Discovery has inserted every
entry of the block, and insertion never tears a region apart: what is merged stays in one piece,
because the list keeps a gap between its members.
-/
import Tvisor.CpuTopology.Discovery
import Tvisor.Platform.Exact

namespace Tvisor.CpuStartup

open SystemInfo Fallible Intervals
open CpuTopology (maxCpus StartupMethod CpuDescriptor Topology)
open Platform (Fdt Node Reg)

inductive StartupContractError where
  | invalidReservation
  | missingHoldingReservation
  | releaseCellNotRam
  | invalidRam
  | unsupportedStartupMethod
  | releaseCellNotIdentityMapped
  | nonzeroReleaseCell
  | holdingMemoryAllocatable
  deriving DecidableEq, Repr

structure StartupMemoryContract where
  releaseCells : FixedList PhysRegion maxCpus
  deriving DecidableEq, Repr

def reservationRegion (address size : Nat) : Except StartupContractError PhysRegion :=
  (PhysRegion.new address size).mapError fun _ => .invalidReservation

/-- The loop over the `reg` of a memory node: whether an entry contains the cell. -/
def cellInRegisters (cell : PhysRegion) : List Reg → Except StartupContractError Bool
  | [] => .ok false
  | register :: rest => do
      let address ← register.address.mapError fun _ => .invalidRam
      let size ← register.size.mapError fun _ => .invalidRam
      let ram ← (PhysRegion.new address size).mapError fun _ => .invalidRam
      if ram.containsRegion cell then .ok true else cellInRegisters cell rest

/-- The loop over the children of the root. -/
def cellInNodes (cell : PhysRegion) : List Node → Except StartupContractError Bool
  | [] => .ok false
  | node :: rest =>
      match node.deviceType with
      | none => cellInNodes cell rest
      | some kind => do
          let kind ← kind.mapError fun _ => .invalidRam
          if kind ≠ "memory" then cellInNodes cell rest
          else
            let status ← node.status.mapError fun _ => .invalidRam
            if status ≠ .okay then cellInNodes cell rest
            else
              match ← node.reg.mapError fun _ => .invalidRam with
              | none => .error .invalidRam
              | some registers =>
                  if ← cellInRegisters cell registers then .ok true else cellInNodes cell rest

def cellInRam (fdt : Fdt) (cell : PhysRegion) : Except StartupContractError Bool :=
  cellInNodes cell fdt.children

/-- Does an entry of the reservation block contain the cell? -/
def inReservation (fdt : Fdt) (cell : PhysRegion) : Bool :=
  fdt.memoryReservations.any fun (address, size) =>
    match reservationRegion address size with
    | .ok region => region.containsRegion cell
    | .error _ => false

/-- One round of the loop over the enabled CPUs. -/
def addCell (fdt : Fdt) (contract : StartupMemoryContract) (cpu : CpuDescriptor) :
    Except StartupContractError StartupMemoryContract :=
  match cpu.startup with
  | .spinTable releaseAddress => do
      let cell ← reservationRegion releaseAddress 8
      if !inReservation fdt cell then .error .missingHoldingReservation
      else if !(← cellInRam fdt cell) then .error .releaseCellNotRam
      else if contract.releaseCells.entries.any fun entry => entry == cell then .ok contract
      else match contract.releaseCells.push cell with
        | .ok releaseCells => .ok { contract with releaseCells }
        | .error _ => .error .unsupportedStartupMethod
  | .psci => .ok contract
  | .missing | .unsupported => .error .unsupportedStartupMethod

def discoverStartupMemory (fdt : Fdt) (topology : Topology) :
    Except StartupContractError StartupMemoryContract := do
  fdt.memoryReservations.forM fun (address, size) => do
    let _ ← reservationRegion address size
  (topology.cpus.entries.filter fun cpu => cpu.enabled).foldlM (addCell fdt) ⟨.empty⟩

def verifyReservedRange (region : PhysRegion) (map : MemoryMap) :
    Except StartupContractError Unit :=
  if !map.permanentReserved.entries.any fun reserved => reserved.containsRegion region then
    .error .missingHoldingReservation
  else if map.usableRam.entries.any fun usable => usable.overlaps region then
    .error .holdingMemoryAllocatable
  else .ok ()

def StartupMemoryContract.verifyMemoryMap (contract : StartupMemoryContract) (fdt : Fdt)
    (map : MemoryMap) : Except StartupContractError Unit := do
  fdt.memoryReservations.forM fun (address, size) => do
    let region ← reservationRegion address size
    verifyReservedRange region map
  contract.releaseCells.entries.forM fun cell => verifyReservedRange cell map

/-! ## What the first reading establishes -/

variable {region : PhysRegion}

section Discovered

variable {fdt : Fdt}

theorem reservationRegion_eq_ok {address size : Nat} :
    reservationRegion address size = .ok region ↔ PhysRegion.new address size = .ok region :=
  mapError_eq_ok

/-- The cell lies in an entry of the reservation block. -/
def Reserved (fdt : Fdt) (cell : PhysRegion) : Prop :=
  ∃ address size region, (address, size) ∈ fdt.memoryReservations ∧
    PhysRegion.new address size = .ok region ∧ region.containsRegion cell = true

theorem inReservation_reserved {cell : PhysRegion} (h : inReservation fdt cell = true) :
    Reserved fdt cell := by
  obtain ⟨⟨address, size⟩, hentry, hin⟩ := List.any_eq_true.mp h
  dsimp only at hin
  split at hin
  · rename_i region hregion
    exact ⟨address, size, region, hentry, reservationRegion_eq_ok.mp hregion, hin⟩
  · cases hin

/-- A cell is added only from inside the reservation block. -/
theorem addCell_reserved {contract contract' : StartupMemoryContract} {cpu : CpuDescriptor}
    (hcells : ∀ cell ∈ contract.releaseCells.entries, Reserved fdt cell)
    (h : addCell fdt contract cpu = .ok contract') :
    ∀ cell ∈ contract'.releaseCells.entries, Reserved fdt cell := by
  unfold addCell at h
  rcases hstartup : cpu.startup with _ | _ | releaseAddress | _
  · rw [hstartup] at h
    cases h
  · rw [hstartup] at h
    cases h
  · rw [hstartup] at h
    dsimp only at h
    obtain ⟨cell, -, h⟩ := bind_eq_ok.mp h
    split at h
    · cases h
    rename_i hreserved
    obtain ⟨inRam, -, h⟩ := bind_eq_ok.mp h
    split at h
    · cases h
    split at h
    · cases h
      exact hcells
    split at h
    · rename_i releaseCells hpush
      cases h
      rw [FixedList.push_eq_ok hpush]
      intro other hother
      rcases List.mem_append.mp hother with hold | hnew
      · exact hcells other hold
      · rw [List.mem_singleton.mp hnew]
        exact inReservation_reserved (by simpa using hreserved)
    · cases h
  · rw [hstartup] at h
    cases h
    exact hcells

theorem discoverStartupMemory_reserved {topology : Topology} {contract : StartupMemoryContract}
    (h : discoverStartupMemory fdt topology = .ok contract) :
    (∀ entry ∈ fdt.memoryReservations, ∃ region, PhysRegion.new entry.1 entry.2 = .ok region) ∧
      ∀ cell ∈ contract.releaseCells.entries, Reserved fdt cell := by
  obtain ⟨⟨⟩, hblock, h⟩ := bind_eq_ok.mp h
  refine ⟨?_, ?_⟩
  · intro entry hentry
    obtain ⟨region, hregion, -⟩ := bind_eq_ok.mp (forM_eq_ok.mp hblock entry hentry)
    exact ⟨region, reservationRegion_eq_ok.mp hregion⟩
  · refine foldlM_invariant (P := fun contract : StartupMemoryContract =>
      ∀ cell ∈ contract.releaseCells.entries, Reserved fdt cell) ?_ (List.forall_mem_nil _) h
    exact fun contract cpu contract' hcells hadd => addCell_reserved hcells hadd

end Discovered

/-! ## What the second reading asks -/

/-- The map keeps the region: it lies in one reserved region and outside what is usable. -/
structure Held (region : PhysRegion) (map : MemoryMap) : Prop where
  reserved : ∃ reserved ∈ map.permanentReserved.entries, reserved.containsRegion region = true
  notUsable : ∀ usable ∈ map.usableRam.entries, usable.overlaps region = false

theorem verifyReservedRange_eq_ok {map : MemoryMap} :
    verifyReservedRange region map = .ok () ↔ Held region map := by
  unfold verifyReservedRange
  constructor
  · intro h
    split at h
    · cases h
    rename_i hreserved
    split at h
    · cases h
    rename_i husable
    exact ⟨by simpa using hreserved, by simpa using husable⟩
  · rintro ⟨hreserved, husable⟩
    rw [if_neg (by simpa using hreserved), if_neg (by simpa using husable)]

/-- A region of reserved addresses is held. Its addresses are in one member of the list, because the
list has gaps between its members. -/
theorem held_of_finalized {map : MemoryMap} {A B C : Set Nat} (h : Platform.Finalized map A B C)
    (hregion : ∀ x, Within x region → x ∈ B) : Held region map := by
  refine ⟨?_, ?_⟩
  · obtain ⟨reserved, hmem, hlo, hhi⟩ := exists_span_of_subset_cover h.reservedSeparated
      region.start_lt_endAddr fun x hlo hhi => h.reserved ▸ hregion x ⟨hlo, hhi⟩
    refine ⟨reserved, hmem, ?_⟩
    simpa [PhysRegion.containsRegion] using ⟨hlo, hhi⟩
  · intro usable husable
    by_contra hoverlap
    obtain ⟨x, hx, hxr⟩ := PhysRegion.overlaps_iff.mp (Bool.not_eq_false _ ▸ hoverlap)
    have hmem : x ∈ cover map.usableRam.entries := ⟨usable, husable, hx⟩
    rw [h.usable] at hmem
    exact hmem.2 (hregion x hxr)

/-- The order of `MEMORY_MAP.initialize`: discovery, the reservation for the Linux image, and
`finalize` once more. -/
theorem initialized_finalized {fdt : Fdt} {dtbAddress : Nat} {tvisorImage linuxImage : PhysRegion}
    {destination discovered inserted map : MemoryMap}
    (hdiscover : (Platform.discoverMemoryMap fdt dtbAddress tvisorImage).run destination =
      .ok () discovered)
    (hinsert : (MemoryMap.insertReserved linuxImage).run discovered = .ok () inserted)
    (hfinalize : MemoryMap.finalize.run inserted = .ok () map) :
    ∃ A B C, Platform.Finalized map A B C ∧ Platform.reservationBlock fdt ⊆ B := by
  have hfirst := Platform.discoverMemoryMap_ensures fdt dtbAddress tvisorImage destination ()
    discovered trivial hdiscover
  have hlinux := Platform.insertReserved_ensures linuxImage discovered () inserted hfirst.toBuilt
    hinsert
  have hlast := Platform.finalize_ensures inserted () map hlinux hfinalize
  refine ⟨_, _, _, hlast, ?_⟩
  intro x hx
  exact .inl (.inr (.inl hx))

/-- If both readings of the tree and the insertions succeed, the map passes the checks: every entry
of the reservation block and every release cell is held. -/
theorem reservation_checks_agree {fdt : Fdt} {topology : Topology}
    {contract : StartupMemoryContract} {dtbAddress : Nat} {tvisorImage linuxImage : PhysRegion}
    {destination discovered inserted map : MemoryMap}
    (hcontract : discoverStartupMemory fdt topology = .ok contract)
    (hdiscover : (Platform.discoverMemoryMap fdt dtbAddress tvisorImage).run destination =
      .ok () discovered)
    (hinsert : (MemoryMap.insertReserved linuxImage).run discovered = .ok () inserted)
    (hfinalize : MemoryMap.finalize.run inserted = .ok () map) :
    contract.verifyMemoryMap fdt map = .ok () ∧
      (∀ entry ∈ fdt.memoryReservations, ∃ region,
        PhysRegion.new entry.1 entry.2 = .ok region ∧ Held region map) ∧
      ∀ cell ∈ contract.releaseCells.entries, Held cell map := by
  obtain ⟨hblock, hcells⟩ := discoverStartupMemory_reserved hcontract
  obtain ⟨A, B, C, hmap, hsubset⟩ := initialized_finalized hdiscover hinsert hfinalize
  have hentry : ∀ address size region, (address, size) ∈ fdt.memoryReservations →
      PhysRegion.new address size = .ok region → ∀ x, Within x region → x ∈ B := by
    intro address size region hmem hregion x hx
    refine hsubset ⟨(address, size), hmem, ?_⟩
    have hset := Platform.within_new hregion
    exact hset.subset hx
  have hentries : ∀ entry ∈ fdt.memoryReservations, ∃ region,
      PhysRegion.new entry.1 entry.2 = .ok region ∧ Held region map := by
    intro entry hmem
    obtain ⟨region, hregion⟩ := hblock entry hmem
    exact ⟨region, hregion, held_of_finalized hmap (hentry entry.1 entry.2 region hmem hregion)⟩
  have hheld : ∀ cell ∈ contract.releaseCells.entries, Held cell map := by
    intro cell hcell
    obtain ⟨address, size, region, hmem, hregion, hcontains⟩ := hcells cell hcell
    refine held_of_finalized hmap fun x hx => hentry address size region hmem hregion x ?_
    simp only [PhysRegion.containsRegion, Bool.and_eq_true, decide_eq_true_eq] at hcontains
    exact ⟨hcontains.1.trans hx.1, hx.2.trans_le hcontains.2⟩
  refine ⟨bind_eq_ok.mpr ⟨(), forM_eq_ok.mpr ?_, forM_eq_ok.mpr ?_⟩, hentries, hheld⟩
  · intro entry hmem
    obtain ⟨region, hregion, hregionHeld⟩ := hentries entry hmem
    exact bind_eq_ok.mpr ⟨region, reservationRegion_eq_ok.mpr hregion,
      verifyReservedRange_eq_ok.mpr hregionHeld⟩
  · intro cell hcell
    exact verifyReservedRange_eq_ok.mpr (hheld cell hcell)

/-- Four CPUs behind spin-table cells in the first page, two of them behind one cell, and one CPU
that is not enabled. -/
def spinTableCpus : Topology where
  cpus := ⟨[⟨0, true, some 0, .spinTable 0xd8⟩, ⟨1, true, some 1, .spinTable 0xe0⟩,
    ⟨2, true, some 2, .spinTable 0xe0⟩, ⟨3, false, none, .missing⟩], by decide⟩
  psci := none

/-- The first block of addresses above the tvisor image. -/
def linuxPages : PhysRegion := ⟨0x280000, 0x100000, by decide, by decide⟩

theorem reservation_checks_agree_board :
    ∃ contract discovered inserted map,
      discoverStartupMemory Platform.boardFdt spinTableCpus = .ok contract ∧
      (Platform.discoverMemoryMap Platform.boardFdt 0x2eff0100 Platform.boardImage).run .empty =
        .ok () discovered ∧
      (MemoryMap.insertReserved linuxPages).run discovered = .ok () inserted ∧
      MemoryMap.finalize.run inserted = .ok () map ∧
      contract.releaseCells.len = 2 ∧
      contract.verifyMemoryMap Platform.boardFdt map = .ok () := by
  have hdiscover := eq_ok_of_isOk
    (r := (Platform.discoverMemoryMap Platform.boardFdt 0x2eff0100 Platform.boardImage).run .empty)
    (by decide +kernel)
  have hinsert := eq_ok_of_isOk
    (r := (MemoryMap.insertReserved linuxPages).run (state
      ((Platform.discoverMemoryMap Platform.boardFdt 0x2eff0100 Platform.boardImage).run .empty)))
    (by decide +kernel)
  have hfinalize := eq_ok_of_isOk
    (r := MemoryMap.finalize.run (state ((MemoryMap.insertReserved linuxPages).run (state
      ((Platform.discoverMemoryMap Platform.boardFdt 0x2eff0100 Platform.boardImage).run
        .empty))))) (by decide +kernel)
  have hcontract : discoverStartupMemory Platform.boardFdt spinTableCpus =
      .ok ⟨⟨[⟨0xd8, 8, by decide, by decide⟩, ⟨0xe0, 8, by decide, by decide⟩], by decide⟩⟩ := by
    decide +kernel
  exact ⟨_, _, _, _, hcontract, hdiscover, hinsert, hfinalize, rfl,
    (reservation_checks_agree hcontract hdiscover hinsert hfinalize).1⟩

end Tvisor.CpuStartup
