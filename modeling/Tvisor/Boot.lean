/-
# Tvisor.Boot -- from the device tree to the memory of a guest

`boot.rs` fills the memory map from the device tree, reserves the Linux image as well and gives the
map to the page allocator, which the pages of a VM come from. `guest_memory_free` follows a page of
the VM back to the tree.
-/
import Tvisor.CpuStartup
import Tvisor.PageAllocator.Reserved
import Tvisor.VmCtl.Accounting
import Tvisor.VmCtl.Isolation

namespace Tvisor.Boot

open SystemInfo Fallible Intervals PageAllocator Platform VmCtl
open CpuStartup (StartupMemoryContract)
open GuestStage2 (Memory addressMask)

/-- The closure of `MEMORY_MAP.initialize`. Every error is printed and then dropped. -/
def initializeMemoryMap (fdt : Fdt) (dtbAddress : Nat) (tvisorImage linuxImagePages : PhysRegion)
    (startup : StartupMemoryContract) : EStateM Unit MemoryMap Unit := do
  mapError (fun _ => ()) (discoverMemoryMap fdt dtbAddress tvisorImage)
  mapError (fun _ => ()) (MemoryMap.insertReserved linuxImagePages)
  mapError (fun _ => ()) MemoryMap.finalize
  let map ← get
  mapError (fun _ => ()) (lift (startup.verifyMemoryMap fdt map))

/-- The declared RAM that nothing else has a claim on. -/
def freeRam (fdt : Fdt) (dtbAddress : Nat) (tvisorImage linuxImagePages : PhysRegion) : Set Nat :=
  {x | x ∈ declared fdt ∧ x ∉ reservationBlock fdt ∧ x ∉ reservedNodes fdt ∧
    x ∉ dtbPages fdt dtbAddress ∧ ¬ Within x tvisorImage ∧ ¬ Within x linuxImagePages ∧
    x ∉ firmwareGap fdt ∧ x ∉ socRanges fdt}

variable {fdt : Fdt} {dtbAddress : Nat} {tvisorImage linuxImagePages : PhysRegion}
  {startup : StartupMemoryContract}

theorem initializeMemoryMap_ensures : Ensures (fun _ => True)
      (initializeMemoryMap fdt dtbAddress tvisorImage linuxImagePages startup) fun _ map =>
      cover map.usableRam.entries = freeRam fdt dtbAddress tvisorImage linuxImagePages := by
  refine ((discoverMemoryMap_ensures fdt dtbAddress tvisorImage).mapError.post
    fun _ _ h => h.toBuilt).bind fun _ => ?_
  refine (insertReserved_ensures linuxImagePages).mapError.bind fun _ => ?_
  refine finalize_ensures.mapError.bind fun _ => Ensures.get_bind fun _ _ => Ensures.mapError ?_
  rintro map _ _ h hrun
  obtain ⟨-, rfl⟩ := run_lift_eq_ok.mp hrun
  ext x
  have hsoc : x ∈ _ → x ∉ _ := fun hx => Set.disjoint_left.mp h.conflictFree hx
  rw [h.usable]
  simp only [freeRam, Set.mem_sdiff, Set.mem_union, Set.mem_ofPred_eq] at hsoc ⊢
  tauto

/-- The books of a VM stay right over any calls and releases. -/
theorem accounted_session {before : Mm.GlobalPageAllocator} (hbefore : before.allocator.Coherent)
    (memory : Memory) (ops : List VmCtl.Op) :
    Accounted before (VmCtl.session memory before ops).state := by
  refine foldl_invariant VmCtl.Session.step (fun s => Accounted before s.state) ?_ ops
    (accounted_fresh hbefore memory)
  rintro s (c | _) h
  · exact h.effects (call_effects h.wf c)
  · exact h.released hbefore

/-- Whatever other owners do with the allocator and whatever is called on the VM, releases included,
the pages in use are those of the others and those the VM tracks, and each byte of a page that it
tracks, or that a leaf stored by `map` leads to, is free RAM of the tree. -/
theorem guest_memory_free {destination map : MemoryMap}
    {storage built : PageAllocator pageBitmapBytes}
    (hmap : (initializeMemoryMap fdt dtbAddress tvisorImage linuxImagePages startup).run
      destination = .ok () map)
    (hnew : (PageAllocator.new map.ram map.usableRam map.usableRam).run storage = .ok () built)
    (others : List PageAllocator.Op) (initialized : Bool) (memory : Memory) (ops : List VmCtl.Op) :
    let before := ⟨(PageAllocator.session built others).allocator, initialized⟩
    let s := VmCtl.session memory before ops
    let free := freeRam fdt dtbAddress tvisorImage linuxImagePages
    Accounted before s.state ∧ (∀ p ∈ trackedPages s.state.vmMem, ∀ x, InPage p x → x ∈ free) ∧
    ∀ ipa < 2 ^ 39, ∀ w, s.state.leafWord ipa = some w → s.source ipa = some .map →
      ∀ x, InPage ((w &&& addressMask) / 4096) x → x ∈ free := by
  intro before s free
  obtain ⟨hbefore, hmanaged, -⟩ := session_managed (new_ok hnew).coherent others
  have h : Accounted before s.state := accounted_session hbefore memory ops
  have hfree : ∀ p ∈ trackedPages s.state.vmMem, ∀ x, InPage p x → x ∈ free := by
    intro p hp x hx
    have hpage := (h.wf.owned p hp).1
    rw [h.managed_eq, hmanaged, (new_ok hnew).managed_iff] at hpage
    obtain ⟨region, hregion, hcovers⟩ := hpage
    exact (initializeMemoryMap_ensures destination () map trivial hmap).subset
      ⟨region, hregion, within_of_covers hcovers hx⟩
  refine ⟨h, hfree, fun ipa hipa w hw hsource => hfree _ ?_⟩
  exact ((session_inv memory before ops).isolated.map_leaf ipa hipa w hw hsource).2.1

open CpuStartup (linuxPages)

/-- The map of a board whose secondary CPUs do not wait in memory. -/
def boardMap : MemoryMap :=
  state ((initializeMemoryMap boardFdt 0x2eff0100 boardImage linuxPages ⟨.empty⟩).run .empty)

theorem guest_memory_free_board : ∃ built,
    (PageAllocator.new boardMap.ram boardMap.usableRam boardMap.usableRam).run
      ⟨.zeroed, .zeroed, 0⟩ = .ok () built ∧
    ∀ p ∈ trackedPages (VmCtl.session (fun _ => 0) ⟨(PageAllocator.session built []).allocator,
        true⟩ [.call (.vmMemAlloc .guestRam (some 0x40000000) 8192)]).state.vmMem,
      ∀ x, InPage p x → x ∈ freeRam boardFdt 0x2eff0100 boardImage linuxPages := by
  have hram : countPages boardMap.ram.entries 0 = .ok 0xfc000 := by decide +kernel
  exact (new_succeeds (by decide) hram (by decide +kernel) (by decide +kernel) _).imp
    fun built hnew =>
      ⟨hnew, (guest_memory_free (eq_ok_of_isOk (by decide +kernel)) hnew [] true _ _).2.1⟩

end Tvisor.Boot
