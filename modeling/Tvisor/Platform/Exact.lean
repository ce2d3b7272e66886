/-
# Tvisor.Platform.Exact -- what a successful discovery says about addresses

The device tree and the map are read as sets of addresses. `Built` says which sets the three input
lists of a map stand for; every stage of the discovery adds a set to one of them, and the set it
adds is written down next to the tree. The firmware's carve-out is added to RAM and to the
reservations, where it cancels: what is left of it in the result is that its addresses are not
usable.
-/
import Tvisor.MemoryMap.Exact
import Tvisor.Platform

namespace Tvisor.Platform

open SystemInfo Fallible Words Page Intervals

/-! ## The tree as sets of addresses -/

/-- The addresses of an entry. -/
def Reg.span (entry : Reg) : Set Nat :=
  {x | ∃ start size, entry.address = .ok start ∧ entry.size = .ok size ∧ start ≤ x ∧
    x < start + size}

def spans (entries : List Reg) : Set Nat := {x | ∃ entry ∈ entries, x ∈ entry.span}

/-- The `reg` of a node, where it is an enabled memory node. -/
def Node.memory (node : Node) : Set Nat :=
  {x | node.deviceType = some (.ok "memory") ∧ node.status = .ok .okay ∧
    ∃ registers, node.reg = .ok (some registers) ∧ x ∈ spans registers}

/-- Declared memory: the `reg` of some enabled memory node. -/
def declared (fdt : Fdt) : Set Nat := {x | ∃ node ∈ fdt.children, x ∈ node.memory}

def reservationBlock (fdt : Fdt) : Set Nat :=
  {x | ∃ entry ∈ fdt.memoryReservations, entry.1 ≤ x ∧ x < entry.1 + entry.2}

def ReservedMemory.registers (node : ReservedMemory) : Set Nat :=
  {x | ∃ registers, node.reg = .ok (some registers) ∧ x ∈ spans registers}

def ReservedMemory.ranges (node : ReservedMemory) : Set Nat :=
  {x | ∃ ranges, node.allocRanges = .ok (some ranges) ∧ x ∈ spans ranges}

/-- What an enabled node reserves: its `reg`, or its `alloc-ranges` where it has no `reg`. -/
def ReservedMemory.reserved (node : ReservedMemory) : Set Nat :=
  {x | node.status = .ok .okay ∧
    (x ∈ node.registers ∨ node.reg = .ok none ∧ x ∈ node.ranges)}

def reservedNodes (fdt : Fdt) : Set Nat :=
  {x | ∃ nodes, fdt.reservedMemory = some nodes ∧ ∃ node ∈ nodes, x ∈ node.reserved}

/-- The pages of the blob. -/
def dtbPages (fdt : Fdt) (dtbAddress : Nat) : Set Nat :=
  {x | dtbAddress / pageSize * pageSize ≤ x ∧
    x < (dtbAddress + fdt.size + (pageSize - 1)) / pageSize * pageSize}

/-- On a BCM2711, from the end of the contiguous declared memory that starts at zero up to the limit
of low memory. -/
def firmwareGap (fdt : Fdt) : Set Nat :=
  {x | bcm2711Compatible ∈ fdt.compatible ∧ ∃ stop, (∀ y < stop, y ∈ declared fdt) ∧
    stop ∉ declared fdt ∧ stop ≤ x ∧ x < bcm2711LowMemoryLimit}

/-- The windows of an enabled `/soc`. -/
def socRanges (fdt : Fdt) : Set Nat :=
  {x | ∃ soc, fdt.soc = some soc ∧ soc.status = .ok .okay ∧
    ∃ ranges, soc.ranges = .ok (some ranges) ∧
      ∃ range ∈ ranges, x ∈ Reg.span ⟨range.parentBusAddress, range.length⟩}

/-! ## Maps as sets of addresses -/

/-- The lists of a map are canonical and stand for these sets. -/
structure Built (map : MemoryMap) (ram reserved mmio : Set Nat) : Prop where
  ramSeparated : Separated map.ram.entries
  reservedSeparated : Separated map.permanentReserved.entries
  mmioSeparated : Separated map.mmio.entries
  ram : cover map.ram.entries = ram
  reserved : cover map.permanentReserved.entries = reserved
  mmio : cover map.mmio.entries = mmio

/-- A map after `finalize`: what is usable is the RAM that is not reserved. -/
structure Finalized (map : MemoryMap) (A B C : Set Nat) : Prop extends Built map A B C where
  usable : cover map.usableRam.entries = A \ B
  conflictFree : Disjoint A C

section Insert

variable {ram reserved mmio : Set Nat} (region : PhysRegion)

theorem built_clear (map : MemoryMap) : Built map.clear ∅ ∅ ∅ :=
  ⟨.nil, .nil, .nil, cover_nil, cover_nil, cover_nil⟩

/-- An insertion into any of the lists. -/
theorem insertSortedMerged_ensures {n : Nat} {A : Set Nat} :
    Ensures (fun list : FixedList PhysRegion n => Separated list.entries ∧ cover list.entries = A)
      (MemoryMap.insertSortedMerged region)
      fun _ list => Separated list.entries ∧ cover list.entries = A ∪ {x | Within x region} := by
  rintro list u list' ⟨hsep, rfl⟩ hrun
  have hspec := MemoryMap.insertSortedMerged_spec hsep region
  rw [hrun] at hspec
  refine ⟨hspec.1, Set.ext fun x => ?_⟩
  rw [hspec.2 x, or_comm]
  rfl

/-- An insertion through one list of the map. -/
theorem zoom_ensures {n : Nat} {view : MemoryMap → FixedList PhysRegion n}
    {put : MemoryMap → FixedList PhysRegion n → MemoryMap} {A : Set Nat}
    {P Q : MemoryMap → Prop}
    (hP : ∀ map, P map → Separated (view map).entries ∧ cover (view map).entries = A)
    (hQ : ∀ map list, P map → Separated list.entries →
      cover list.entries = A ∪ {x | Within x region} → Q (put map list)) :
    Ensures P (zoom view put (MemoryMap.insertSortedMerged region)) fun _ => Q := by
  intro map u map' hmap hrun
  rw [run_zoom] at hrun
  rcases hlist : (MemoryMap.insertSortedMerged region).run (view map) with ⟨v, list⟩ | ⟨e, list⟩
  · rw [hlist] at hrun
    cases hrun
    obtain ⟨hsep, hcover⟩ := insertSortedMerged_ensures region (view map) _ list (hP map hmap) hlist
    exact hQ map list hmap hsep hcover
  · rw [hlist] at hrun
    cases hrun

theorem insertRam_ensures :
    Ensures (fun map => Built map ram reserved mmio) (MemoryMap.insertRam region)
      fun _ map => Built map (ram ∪ {x | Within x region}) reserved mmio :=
  zoom_ensures region (fun _ h => ⟨h.ramSeparated, h.ram⟩)
    fun _ _ h hsep hcover => { h with ramSeparated := hsep, ram := hcover }

theorem insertReserved_ensures :
    Ensures (fun map => Built map ram reserved mmio) (MemoryMap.insertReserved region)
      fun _ map => Built map ram (reserved ∪ {x | Within x region}) mmio :=
  zoom_ensures region (fun _ h => ⟨h.reservedSeparated, h.reserved⟩)
    fun _ _ h hsep hcover => { h with reservedSeparated := hsep, reserved := hcover }

theorem insertMmio_ensures :
    Ensures (fun map => Built map ram reserved mmio) (MemoryMap.insertMmio region)
      fun _ map => Built map ram reserved (mmio ∪ {x | Within x region}) :=
  zoom_ensures region (fun _ h => ⟨h.mmioSeparated, h.mmio⟩)
    fun _ _ h hsep hcover => { h with mmioSeparated := hsep, mmio := hcover }

theorem finalize_ensures :
    Ensures (fun map => Built map ram reserved mmio) MemoryMap.finalize
      fun _ map => Finalized map ram reserved mmio := by
  rintro map u map' h hrun
  rcases MemoryMap.finalize_run map h.ramSeparated with
    ⟨r, _, m, _, _, hfail⟩ | ⟨hapart, usable, husable, hok⟩
  · rw [hfail] at hrun
    cases hrun
  · rw [hok] at hrun
    cases hrun
    refine ⟨{ h with }, Set.ext fun x => ?_, Set.disjoint_left.mpr fun x hram hmmio => ?_⟩
    · show x ∈ cover usable.entries ↔ _
      rw [husable, MemoryMap.mem_cover_usableOf h.reservedSeparated, h.ram, h.reserved]
      rfl
    · rw [← h.ram] at hram
      rw [← h.mmio] at hmmio
      obtain ⟨r, hr, hxr⟩ := hram
      obtain ⟨m, hm, hxm⟩ := hmmio
      have hoverlap := PhysRegion.overlaps_iff.mpr ⟨x, hxr, hxm⟩
      rw [hapart r hr m hm] at hoverlap
      cases hoverlap

end Insert

/-! ## Stages that add a set -/

variable {region : PhysRegion}

/-- The stage adds this set to the one that `P` keeps track of. -/
def Adds {α : Type} (P : Set Nat → MemoryMap → Prop) (x : Discover α) (B : Set Nat) : Prop :=
  ∀ A, Ensures (P A) x fun _ => P (A ∪ B)

section Adds

variable {α β ε : Type} {P : Set Nat → MemoryMap → Prop} {B C : Set Nat}

theorem Adds.pure (a : α) : Adds P (Pure.pure a) ∅ :=
  fun A => Ensures.pure fun _ h => (Set.union_empty A).symm ▸ h

theorem Adds.throw (e : PlatformError) : Adds P (MonadExcept.throw e : Discover α) B :=
  fun _ => Ensures.throw

theorem Adds.orFail_bind {e : PlatformError} {x : Except ε α} {f : α → Discover β}
    (h : ∀ a, x = .ok a → Adds P (f a) B) : Adds P (orFail e x >>= f) B := by
  exact fun A => Ensures.lift_bind fun a ha => h a (mapError_eq_ok.mp ha) A

theorem Adds.bind {x : Discover α} {f : α → Discover β} (h : Adds P x B)
    (hf : ∀ a, Adds P (f a) C) : Adds P (x >>= f) (B ∪ C) := by
  intro A
  rw [← Set.union_assoc]
  exact (h A).bind fun a => hf a (A ∪ B)

theorem Adds.forM {ι : Type} {S : ι → Set Nat} {f : ι → Discover Unit} (h : ∀ i, Adds P (f i) (S i))
    (items : List ι) : Adds P (items.forM f) {x | ∃ i ∈ items, x ∈ S i} := by
  induction items with
  | nil => simpa using Adds.pure (P := P) ()
  | cons i rest ih =>
    simp only [List.exists_mem_cons_iff, Set.ofPred_or]
    exact (h i).bind fun _ => ih

theorem Adds.foldlM {ι : Type} {S : ι → Set Nat} {f : α → ι → Discover α}
    (h : ∀ a i, Adds P (f a i) (S i)) (items : List ι) (a : α) :
    Adds P (items.foldlM f a) {x | ∃ i ∈ items, x ∈ S i} := by
  induction items generalizing a with
  | nil => simpa using Adds.pure (P := P) a
  | cons i rest ih =>
    simp only [List.exists_mem_cons_iff, Set.ofPred_or, List.foldlM_cons]
    exact (h a i).bind fun a' => ih a'

/-- Insertions into the list that `P` keeps track of. -/
def Inserts (P : Set Nat → MemoryMap → Prop)
    (insert : PhysRegion → EStateM MemoryMapError MemoryMap Unit) : Prop :=
  ∀ A region, Ensures (P A) (insert region) fun _ => P (A ∪ {x | Within x region})

variable {insert : PhysRegion → EStateM MemoryMapError MemoryMap Unit}

/-- The addresses of a region that was made from a start and a size. -/
theorem within_new {start size : Nat} (h : PhysRegion.new start size = .ok region) :
    {x | Within x region} = {x | start ≤ x ∧ x < start + size} := by
  obtain ⟨rfl, rfl⟩ := PhysRegion.new_eq_ok h
  rfl

theorem insertRegion_adds (h : Inserts P insert) (e : PlatformError) (kind : CapacityKind)
    (start size : Nat) :
    Adds P (insertRegion e kind insert start size) {x | start ≤ x ∧ x < start + size} := by
  refine Adds.orFail_bind fun region hregion => ?_
  rw [← within_new hregion]
  exact fun A => (h A region).mapError

theorem insertEntry_adds (h : Inserts P insert) (e : PlatformError) (kind : CapacityKind)
    (entry : Reg) : Adds P (insertEntry e kind insert entry) entry.span := by
  refine Adds.orFail_bind fun start hstart => Adds.orFail_bind fun size hsize => ?_
  have hspan : entry.span = {x | start ≤ x ∧ x < start + size} := by
    ext x
    simp [Reg.span, hstart, hsize]
  rw [hspan]
  exact insertRegion_adds h e kind start size

theorem insertEntries_adds (h : Inserts P insert) (e : PlatformError) (kind : CapacityKind)
    (entries : List Reg) : Adds P (entries.forM (insertEntry e kind insert)) (spans entries) :=
  Adds.forM (insertEntry_adds h e kind) entries

end Adds

/-! ## The stages -/

section Stages

variable {ram reserved mmio : Set Nat}

theorem discoverNode_adds (found : Bool) (node : Node) :
    Adds (fun A map => Built map A reserved mmio) (discoverNode found node) node.memory := by
  have hempty : (¬ ∃ registers, node.deviceType = some (.ok "memory") ∧ node.status = .ok .okay ∧
      node.reg = .ok (some registers)) → node.memory = ∅ := by
    intro hnone
    refine Set.eq_empty_of_forall_notMem fun x hx => ?_
    obtain ⟨htype, hstatus, registers, hreg, _⟩ := hx
    exact hnone ⟨registers, htype, hstatus, hreg⟩
  unfold discoverNode
  split
  · rename_i htype
    rw [hempty (by simp [htype])]
    exact Adds.pure found
  rename_i deviceType htype
  refine Adds.orFail_bind fun name hname => ?_
  split
  · rename_i hother
    rw [hempty (by simp [htype, hname, hother])]
    exact Adds.pure found
  rename_i hmemory
  obtain rfl : name = "memory" := not_not.mp hmemory
  refine Adds.orFail_bind fun status hstatus => ?_
  split
  · rename_i hdisabled
    rw [hempty (by simp [hstatus, hdisabled])]
    exact Adds.pure found
  rename_i henabled
  obtain rfl : status = .okay := not_not.mp henabled
  refine Adds.orFail_bind fun registers hregisters => ?_
  split
  · exact Adds.throw _
  rename_i registers
  have hspans : node.memory = spans registers ∪ ∅ := by
    ext x
    simp [Node.memory, htype, hname, hstatus, hregisters]
  rw [hspans]
  exact (insertEntries_adds (fun _ region => insertRam_ensures region) _ _ registers).bind
    fun _ => Adds.pure _

theorem discoverRam_adds (fdt : Fdt) :
    Adds (fun A map => Built map A reserved mmio) (discoverRam fdt) (declared fdt) := by
  have hunion : declared fdt = declared fdt ∪ ∅ := (Set.union_empty _).symm
  rw [hunion]
  refine (Adds.foldlM discoverNode_adds fdt.children false).bind fun found => ?_
  split
  · exact Adds.pure ()
  · exact Adds.throw _

/-- The gap begins where the declared memory that starts at zero ends. -/
theorem firmwareGap_eq {fdt : Fdt} {stop : Nat} (hcompatible : bcm2711Compatible ∈ fdt.compatible)
    (hbelow : ∀ y < stop, y ∈ declared fdt) (hstop : stop ∉ declared fdt) :
    firmwareGap fdt = {x | stop ≤ x ∧ x < bcm2711LowMemoryLimit} := by
  refine Set.ext fun x => ⟨?_, fun h => ⟨hcompatible, stop, hbelow, hstop, h⟩⟩
  rintro ⟨_, stop', hbelow', hstop', hx⟩
  have hsame : stop' = stop := by
    rcases Nat.lt_trichotomy stop' stop with hlt | heq | hgt
    · exact absurd (hbelow stop' hlt) hstop'
    · exact heq
    · exact absurd (hbelow' stop hgt) hstop
  exact hsame ▸ hx

/-- The region at address zero of a canonical list ends at the first address that is not covered. -/
theorem endAddr_notMem_cover {regions : List PhysRegion} (hsep : Separated regions)
    (hmem : region ∈ regions) (hzero : region.start = 0) :
    (∀ y < region.endAddr, y ∈ cover regions) ∧ region.endAddr ∉ cover regions := by
  refine ⟨fun y hy => ⟨region, hmem, ?_, hy⟩, ?_⟩
  · show region.start ≤ y
    omega
  rintro ⟨other, hother, hlo, hhi⟩
  by_cases hsame : region = other
  · subst hsame
    exact Nat.lt_irrefl _ hhi
  rcases hsep.lt_or_lt hmem hother hsame with hbefore | hafter
  · exact Nat.lt_irrefl _ (Nat.lt_of_lt_of_le hbefore hlo)
  · rw [show Span.lo region = 0 from hzero] at hafter
    exact Nat.not_lt_zero _ hafter

theorem fromBounds_eq_ok {start stop : Nat} (h : PhysRegion.fromBounds start stop = .ok region) :
    {x | Within x region} = {x | start ≤ x ∧ x < stop} := by
  unfold PhysRegion.fromBounds at h
  split at h
  · cases h
  split at h
  · cases h
  · rw [within_new h]
    ext x
    simp only [Set.mem_ofPred_eq]
    omega

/-- The carve-out becomes RAM and a reservation. -/
theorem discoverBcm2711FirmwareCarveout_ensures (fdt : Fdt) :
    Ensures (fun map => Built map (declared fdt) ∅ mmio) (discoverBcm2711FirmwareCarveout fdt)
      fun _ map => Built map (declared fdt ∪ firmwareGap fdt) (firmwareGap fdt) mmio := by
  have hempty : firmwareGap fdt = ∅ → ∀ map, Built map (declared fdt) ∅ mmio →
      Built map (declared fdt ∪ firmwareGap fdt) (firmwareGap fdt) mmio := by
    intro hgap map h
    rw [hgap, Set.union_empty]
    exact h
  unfold discoverBcm2711FirmwareCarveout
  split
  · rename_i hother
    refine Ensures.pure (hempty ?_)
    refine Set.eq_empty_of_forall_notMem fun x hx => ?_
    simp [hx.1] at hother
  rename_i hcontains
  have hcompatible : bcm2711Compatible ∈ fdt.compatible := by
    simpa using hcontains
  refine Ensures.get_bind fun map h => ?_
  split
  · exact Ensures.throw
  rename_i lowRamEnd hmax
  obtain ⟨region, hregion, hend⟩ := List.mem_map.mp (List.max?_mem hmax)
  obtain ⟨hmem, hzero⟩ := List.mem_filter.mp hregion
  have hends := endAddr_notMem_cover h.ramSeparated hmem (beq_iff_eq.mp hzero)
  rw [h.ram, hend] at hends
  have hgap := firmwareGap_eq hcompatible hends.1 hends.2
  split
  · rename_i hlimit
    refine Ensures.pure (hempty (hgap.trans ?_))
    ext x
    simp only [Set.mem_ofPred_eq, Set.mem_empty_iff_false, iff_false]
    omega
  refine Ensures.lift_bind fun carveout hcarveout => ?_
  rw [hgap, ← fromBounds_eq_ok (mapError_eq_ok.mp hcarveout)]
  refine ((insertRam_ensures carveout).mapError).bind fun _ => ?_
  refine ((insertReserved_ensures carveout).mapError).post fun _ _ hbuilt => ?_
  rwa [Set.empty_union] at hbuilt

theorem insertReserved_inserts :
    Inserts (fun A map => Built map ram A mmio) MemoryMap.insertReserved :=
  fun _ region => insertReserved_ensures region

theorem reserveAllocRanges_adds (node : ReservedMemory) :
    Adds (fun A map => Built map ram A mmio) (reserveAllocRanges node) node.ranges := by
  refine Adds.orFail_bind fun ranges hranges => ?_
  split
  · exact Adds.throw _
  rename_i ranges
  have hspans : node.ranges = spans ranges ∪ ∅ := by
    ext x
    simp [ReservedMemory.ranges, hranges]
  rw [hspans]
  refine (insertEntries_adds insertReserved_inserts _ _ ranges).bind fun _ => ?_
  split
  · exact Adds.throw _
  · exact Adds.pure ()

theorem reserveRanges_adds (node : ReservedMemory) :
    Adds (fun A map => Built map ram A mmio) (reserveRanges node) node.ranges := by
  have hchecked : ∀ bad : Bool, Adds (fun A map => Built map ram A mmio)
      (if bad then throw .invalidDynamicReservation else reserveAllocRanges node) node.ranges := by
    intro bad
    split
    · exact Adds.throw _
    · exact reserveAllocRanges_adds node
  refine Adds.orFail_bind fun size _ => ?_
  split
  · exact Adds.throw _
  refine Adds.orFail_bind fun size _ => ?_
  split
  · exact Adds.throw _
  refine Adds.orFail_bind fun alignment _ => ?_
  rcases alignment with _ | alignment
  · exact hchecked false
  · exact Adds.orFail_bind fun alignment _ => hchecked (!isPowerOfTwo alignment)

theorem discoverReservation_adds (node : ReservedMemory) :
    Adds (fun A map => Built map ram A mmio) (discoverReservation node) node.reserved := by
  refine Adds.orFail_bind fun status hstatus => ?_
  split
  · rename_i hdisabled
    have hempty : node.reserved = ∅ := by
      ext x
      simp [ReservedMemory.reserved, hstatus, hdisabled]
    rw [hempty]
    exact Adds.pure ()
  rename_i henabled
  obtain rfl : status = .okay := not_not.mp henabled
  split
  · exact Adds.throw _
  split
  · exact Adds.throw _
  refine Adds.orFail_bind fun registers hregisters => ?_
  split
  · rename_i registers
    have hspans : node.reserved = spans registers := by
      ext x
      simp [ReservedMemory.reserved, ReservedMemory.registers, hstatus, hregisters]
    rw [hspans]
    exact insertEntries_adds insertReserved_inserts _ _ registers
  · have hranges : node.reserved = node.ranges := by
      ext x
      simp [ReservedMemory.reserved, ReservedMemory.registers, hstatus, hregisters]
    rw [hranges]
    exact reserveRanges_adds node

theorem discoverReservedMemory_adds (fdt : Fdt) :
    Adds (fun A map => Built map ram A mmio) (discoverReservedMemory fdt) (reservedNodes fdt) := by
  unfold discoverReservedMemory
  split
  · rename_i hnone
    have hempty : reservedNodes fdt = ∅ := by
      ext x
      simp [reservedNodes, hnone]
    rw [hempty]
    exact Adds.pure ()
  · rename_i nodes hnodes
    have hall : reservedNodes fdt = {x | ∃ node ∈ nodes, x ∈ node.reserved} := by
      ext x
      simp [reservedNodes, hnodes]
    rw [hall]
    exact Adds.forM discoverReservation_adds nodes

theorem pageRoundedRegion_eq_ok {start size : Nat} (h : pageRoundedRegion start size = .ok region) :
    {x | Within x region} = {x | start / pageSize * pageSize ≤ x ∧
      x < (start + size + (pageSize - 1)) / pageSize * pageSize} := by
  unfold pageRoundedRegion at h
  split at h
  · cases h
  rename_i stop hstop
  split at h
  · cases h
  rename_i rounded hrounded
  obtain ⟨hlt, rfl⟩ := checkedAdd_eq_some.mp hstop
  obtain ⟨hlt', rfl⟩ := checkedAdd_eq_some.mp hrounded
  rw [fromBounds_eq_ok h, pageAddress_eq hlt', pageAddress_eq (by omega)]

theorem discoverReservations_adds (fdt : Fdt) (dtbAddress : Nat) (tvisorImage : PhysRegion) :
    Adds (fun A map => Built map ram A mmio) (discoverReservations fdt dtbAddress tvisorImage)
      (reservationBlock fdt ∪ (reservedNodes fdt ∪
        (dtbPages fdt dtbAddress ∪ {x | Within x tvisorImage}))) := by
  unfold discoverReservations
  apply Adds.bind
  · exact Adds.forM (fun entry => insertRegion_adds insertReserved_inserts _ _ entry.1 entry.2)
      fdt.memoryReservations
  refine fun _ => (discoverReservedMemory_adds fdt).bind fun _ => ?_
  refine Adds.orFail_bind fun dtb hdtb => ?_
  rw [dtbPages, ← pageRoundedRegion_eq_ok hdtb]
  exact Adds.bind (fun A => (insertReserved_inserts A dtb).mapError)
    fun _ A => (insertReserved_inserts A tvisorImage).mapError

theorem discoverMmio_adds (fdt : Fdt) :
    Adds (fun A map => Built map ram reserved A) (discoverMmio fdt) (socRanges fdt) := by
  unfold discoverMmio
  split
  · rename_i hsoc
    have hempty : socRanges fdt = ∅ := by
      ext x
      simp [socRanges, hsoc]
    rw [hempty]
    exact Adds.pure ()
  rename_i soc hsoc
  refine Adds.orFail_bind fun status hstatus => ?_
  split
  · rename_i hdisabled
    have hempty : socRanges fdt = ∅ := by
      ext x
      simp [socRanges, hsoc, hstatus, hdisabled]
    rw [hempty]
    exact Adds.pure ()
  rename_i henabled
  obtain rfl : status = .okay := not_not.mp henabled
  refine Adds.orFail_bind fun ranges hranges => ?_
  split
  · exact Adds.throw _
  rename_i ranges
  have hall : socRanges fdt =
      {x | ∃ range ∈ ranges, x ∈ Reg.span ⟨range.parentBusAddress, range.length⟩} := by
    ext x
    simp [socRanges, hsoc, hstatus, hranges]
  rw [hall]
  refine Adds.forM (fun range => Adds.orFail_bind fun _ _ => ?_) ranges
  exact insertEntry_adds (fun _ region => insertMmio_ensures region) _ _ _

end Stages

/-! ## Discovery -/

/-- A destination is cleared before anything is read from it. -/
theorem run_discoverMemoryMap (fdt : Fdt) (dtbAddress : Nat) (tvisorImage : PhysRegion)
    (destination : MemoryMap) :
    (discoverMemoryMap fdt dtbAddress tvisorImage).run destination =
      (discoverMemoryMap fdt dtbAddress tvisorImage).run .empty :=
  rfl

theorem clear_ensures :
    Ensures (fun _ => True) (modify MemoryMap.clear : Discover Unit)
      fun _ map => Built map ∅ ∅ ∅ := by
  rintro map _ _ _ ⟨⟩
  exact built_clear map

/-- The sets that the stages build up, and what the last one makes of them. -/
theorem discoverMemoryMap_ensures (fdt : Fdt) (dtbAddress : Nat) (tvisorImage : PhysRegion) :
    Ensures (fun _ => True) (discoverMemoryMap fdt dtbAddress tvisorImage) fun _ map =>
      Finalized map (declared fdt ∪ firmwareGap fdt)
        (firmwareGap fdt ∪ (reservationBlock fdt ∪ (reservedNodes fdt ∪
          (dtbPages fdt dtbAddress ∪ {x | Within x tvisorImage}))))
        (socRanges fdt) := by
  refine clear_ensures.bind fun _ => (discoverRam_adds fdt ∅).bind fun _ => ?_
  rw [Set.empty_union]
  refine (discoverBcm2711FirmwareCarveout_ensures fdt).bind fun _ => ?_
  refine (discoverReservations_adds fdt dtbAddress tvisorImage _).bind fun _ => ?_
  refine (discoverMmio_adds fdt ∅).bind fun _ => ?_
  rw [Set.empty_union]
  exact finalize_ensures.mapError

/-- A discovery that succeeds is exact: usable is what is declared and not reserved, not of the
blob, not of the image and not in the firmware's gap. No such address lies in a window of `/soc`,
and the map is the same whatever the destination held before. -/
theorem discovery_exact {fdt : Fdt} {dtbAddress : Nat} {tvisorImage : PhysRegion}
    {destination map : MemoryMap}
    (hrun : (discoverMemoryMap fdt dtbAddress tvisorImage).run destination = .ok () map) :
    (∀ x, x ∈ cover map.usableRam.entries ↔ x ∈ declared fdt ∧
      x ∉ reservationBlock fdt ∧ x ∉ reservedNodes fdt ∧ x ∉ dtbPages fdt dtbAddress ∧
      ¬ Within x tvisorImage ∧ x ∉ firmwareGap fdt) ∧
    (∀ x ∈ cover map.usableRam.entries, x ∉ socRanges fdt) ∧
    ∀ prior, (discoverMemoryMap fdt dtbAddress tvisorImage).run prior = .ok () map := by
  obtain ⟨-, hcover, hsoc⟩ :=
    discoverMemoryMap_ensures fdt dtbAddress tvisorImage destination () map trivial hrun
  have hexact : ∀ x, x ∈ cover map.usableRam.entries ↔ x ∈ declared fdt ∧
      x ∉ reservationBlock fdt ∧ x ∉ reservedNodes fdt ∧ x ∉ dtbPages fdt dtbAddress ∧
      ¬ Within x tvisorImage ∧ x ∉ firmwareGap fdt := by
    intro x
    -- The gap is on both sides of the difference.
    rw [hcover]
    simp only [Set.mem_sdiff, Set.mem_union, Set.mem_ofPred_eq]
    tauto
  refine ⟨hexact, fun x hx => ?_, fun prior => ?_⟩
  · exact Set.disjoint_left.mp hsoc (Or.inl ((hexact x).mp hx).1)
  · rw [run_discoverMemoryMap, ← run_discoverMemoryMap _ _ _ destination, hrun]

/-- A reservation with a place of its own, and with windows where it is not put. -/
def placedReservation : ReservedMemory where
  status := .ok .okay
  noMap := true
  reusable := false
  noMapFixup := false
  reg := .ok (some [⟨.ok 0x1000000, .ok 0x10000⟩])
  size := .ok none
  alignment := .ok none
  allocRanges := .ok (some [⟨.ok 0x2000000, .ok 0x10000⟩])

/-- A board whose firmware declares less than its low memory, and a second bank above. -/
def boardFdt : Fdt where
  compatible := ["raspberrypi,4-model-b", "brcm,bcm2711"]
  children := [{
    deviceType := some (.ok "memory")
    status := .ok .okay
    reg := .ok (some [⟨.ok 0, .ok 0x3b400000⟩, ⟨.ok 0x40000000, .ok 0xbc000000⟩]) }]
  memoryReservations := [(0, 0x1000)]
  reservedMemory := some [placedReservation]
  soc := some {
    status := .ok .okay
    ranges := .ok (some [⟨.ok 0x7e000000, .ok 0xfe000000, .ok 0x1800000⟩]) }
  size := 0xc000

def boardImage : PhysRegion := ⟨0x80000, 0x200000, by decide, by decide⟩

theorem discovery_exact_board :
    ∃ map, (discoverMemoryMap boardFdt 0x2eff0100 boardImage).run .empty = .ok () map ∧
      (∀ x, x ∈ cover map.usableRam.entries ↔ x ∈ declared boardFdt ∧
        x ∉ reservationBlock boardFdt ∧ x ∉ reservedNodes boardFdt ∧
        x ∉ dtbPages boardFdt 0x2eff0100 ∧ ¬ Within x boardImage ∧ x ∉ firmwareGap boardFdt) ∧
      (∀ x ∈ cover map.usableRam.entries, x ∉ socRanges boardFdt) ∧
      ∀ prior, (discoverMemoryMap boardFdt 0x2eff0100 boardImage).run prior = .ok () map := by
  have hrun := eq_ok_of_isOk
    (r := (discoverMemoryMap boardFdt 0x2eff0100 boardImage).run .empty) (by decide +kernel)
  exact ⟨_, hrun, discovery_exact hrun⟩

/-- The windows of an enabled node that has a place of its own stay usable. -/
theorem alloc_ranges_beside_reg_usable :
    ∃ map, (discoverMemoryMap boardFdt 0x2eff0100 boardImage).run .empty = .ok () map ∧
      boardFdt.reservedMemory = some [placedReservation] ∧
      placedReservation.status = .ok .okay ∧ 0x2000000 ∈ placedReservation.ranges ∧
      0x2000000 ∈ cover map.usableRam.entries := by
  refine ⟨_, eq_ok_of_isOk (by decide +kernel), rfl, rfl, ?_, ?_⟩
  · exact ⟨_, rfl, _, List.mem_singleton_self _, _, _, rfl, rfl, by decide, by decide⟩
  · have hregion : ∃ region ∈ (state ((discoverMemoryMap boardFdt 0x2eff0100 boardImage).run
        .empty)).usableRam.entries, region.start ≤ 0x2000000 ∧ 0x2000000 < region.endAddr := by
      decide +kernel
    exact hregion

end Tvisor.Platform
