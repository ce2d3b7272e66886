/-
# Tvisor.PageAllocator.Reserved -- reserved memory is never handed out

`mm.rs` builds the allocator from a finalized memory map: `PageAllocator::new(ram, usable_ram,
usable_ram)`. The map speaks about bytes and the bitmap about pages, and the bridge is one fact
about separated regions: if every byte of a page is usable then the page lies inside a single usable
region, so rounding that region inwards keeps the page.

What is managed never changes afterwards, so a page with one bad byte stays `Reserved` for ever.
-/
import Tvisor.MemoryMap.Exact
import Tvisor.PageAllocator.Invariant

namespace Tvisor.PageAllocator

open SystemInfo Fallible Intervals

variable {n : Nat}

/-- The address is one of the 4096 bytes of the page. -/
def InPage (index x : Nat) : Prop := 4096 * index ≤ x ∧ x < 4096 * (index + 1)

/-- The whole page is RAM and holds no reserved byte. -/
def UsablePage (i : MemoryMap.Inserted) (index : Nat) : Prop :=
  ∀ x, InPage index x → x ∈ cover i.ram ∧ x ∉ cover i.reserved

/-- The page holds a byte of a reserved region, of MMIO or of a non-RAM address. -/
def BadPage (i : MemoryMap.Inserted) (index : Nat) : Prop :=
  ∃ x, InPage index x ∧ (x ∈ cover i.reserved ∨ x ∈ cover i.mmio ∨ x ∉ cover i.ram)

theorem within_of_covers {r : PhysRegion} {index x : Nat} (h : Covers r index)
    (hx : InPage index x) : Within x r := by
  unfold Covers at h
  unfold InPage at hx
  show r.start ≤ x ∧ x < r.endAddr
  omega

variable {map : MemoryMap} {i : MemoryMap.Inserted}

/-- Rounding the usable regions inwards loses no page that is usable as a whole. -/
theorem covered_iff_usablePage (h : MemoryMap.UsableExact map i) (index : Nat) :
    (∃ r ∈ map.usableRam.entries, Covers r index) ↔ UsablePage i index := by
  constructor
  · rintro ⟨r, hr, hcov⟩ x hx
    exact (h.cover_eq x).mp ⟨r, hr, within_of_covers hcov hx⟩
  · intro hpage
    have hsub : ∀ x, 4096 * index ≤ x → x < 4096 * (index + 1) →
        x ∈ cover map.usableRam.entries := by
      intro x h1 h2
      exact (h.cover_eq x).mpr (hpage x ⟨h1, h2⟩)
    obtain ⟨r, hr, h1, h2⟩ := exists_span_of_subset_cover h.separated (by omega) hsub
    exact ⟨r, hr, h1, h2⟩

/-- A managed page is a usable one. -/
theorem usablePage_of_managed (h : MemoryMap.UsableExact map i) {ram unused : List PhysRegion}
    {built : PageAllocator n} (hbuilt : Built ram map.usableRam.entries unused built)
    {index : Nat} (hman : index ∈ built.managed.pageSet) : UsablePage i index :=
  (covered_iff_usablePage h index).mp ((hbuilt.managed_iff index).mp hman)

/-- No conflict was found, so a usable page has no MMIO byte either. -/
theorem not_usablePage_of_bad (hfree : ¬ i.Conflict) {index : Nat} (hbad : BadPage i index) :
    ¬ UsablePage i index := by
  rintro hpage
  obtain ⟨x, hx, hres | hmmio | hram⟩ := hbad
  · exact (hpage x hx).2 hres
  · exact hfree ⟨x, (hpage x hx).1, hmmio⟩
  · exact hram (hpage x hx).1

/-- The answer of the allocator built from a finalized map, before and after any calls. -/
theorem reserved_never_handed_out (map : MemoryMap) (calls : List MemoryMap.Call)
    {finalized : MemoryMap}
    (hfinal : MemoryMap.finalize.run (MemoryMap.session map calls).map = .ok () finalized)
    {storage built : PageAllocator n}
    (hnew : (new finalized.ram finalized.usableRam finalized.usableRam).run storage =
      .ok () built) :
    (∀ index < bitmapPages n,
      (UsablePage (MemoryMap.session map calls).inserted index →
        built.state (4096 * index) = .ok .unused) ∧
      (¬ UsablePage (MemoryMap.session map calls).inserted index →
        built.state (4096 * index) = .ok .reserved)) ∧
    ∀ ops index, BadPage (MemoryMap.session map calls).inserted index →
      (session built ops).allocator.state (4096 * index) ≠ .ok .unused ∧
      (session built ops).allocator.state (4096 * index) ≠ .ok .inUse ∧
      ∀ (op : Op) address a', op.run.run (session built ops).allocator = .ok (.page address) a' →
        ∀ k < op.pages, address + 4096 * k ≠ 4096 * index := by
  obtain ⟨hfree, hexact⟩ := (MemoryMap.session_tracks map calls).finalize_ok hfinal
  have hbuilt := new_ok hnew
  refine ⟨?_, ?_⟩
  · intro index hindex
    rw [state_page built hindex]
    constructor
    · intro hpage
      have hcov := (covered_iff_usablePage hexact index).mpr hpage
      have hnotUsed : index ∉ built.inUse.pageSet := by
        rw [hbuilt.inUse_iff]
        rintro ⟨-, hnone⟩
        obtain ⟨r, hr, hri⟩ := hcov
        exact hnone r hr hri
      exact congrArg Except.ok (stateAt_eq_unused.mpr
        (isUnused_iff.mpr ⟨(hbuilt.managed_iff index).mpr hcov, hnotUsed⟩))
    · intro hpage
      have hclear : ¬ built.managed.isSet index = true := fun hset =>
        hpage (usablePage_of_managed hexact hbuilt (PageBitmap.mem_pageSet.mpr hset))
      unfold stateAt
      simp [hclear]
  · intro ops index hbad
    obtain ⟨hcoh, hman, -⟩ := session_managed hbuilt.coherent ops
    have hnot : index ∉ (session built ops).allocator.managed.pageSet := by
      rw [hman]
      intro hset
      exact not_usablePage_of_bad hfree hbad (usablePage_of_managed hexact hbuilt hset)
    -- A page in either of the two other states is managed.
    have hstate : ∀ st, (session built ops).allocator.state (4096 * index) = .ok st →
        st = .reserved := by
      intro st hst
      obtain ⟨-, -, rfl⟩ := state_eq_ok hst
      rw [Nat.mul_div_cancel_left index (by decide)]
      have hclear : ¬ (session built ops).allocator.managed.isSet index = true :=
        fun h => hnot (PageBitmap.mem_pageSet.mpr h)
      unfold stateAt
      simp [hclear]
    refine ⟨?_, ?_, ?_⟩
    · intro h
      cases hstate _ h
    · intro h
      cases hstate _ h
    · intro op address a' hres k hk heq
      have hbefore := ((hcoh.callSound op).allocated address a' hres k hk).1
      rw [heq] at hbefore
      cases hstate _ hbefore

/-- RAM with a hole of a few reserved bytes in its second page. -/
def holedMap : List MemoryMap.Call :=
  [.insertRam lowPages,
    .insertReserved (.ofBounds 0x1800 0x1900 (by decide) (by decide)),
    .insertMmio (.ofBounds 0x9000 0xa000 (by decide) (by decide))]

def holedFinal : EStateM.Result MemoryMapError MemoryMap Unit :=
  MemoryMap.finalize.run (MemoryMap.session MemoryMap.empty holedMap).map

def holedAllocator : EStateM.Result AllocatorError (PageAllocator 1) Unit :=
  (new (Fallible.state holedFinal).ram (Fallible.state holedFinal).usableRam
    (Fallible.state holedFinal).usableRam).run ⟨.zeroed, .zeroed, 0⟩

theorem reserved_never_handed_out_holedMap :
    BadPage (MemoryMap.session MemoryMap.empty holedMap).inserted 1 ∧
      ∀ ops, (session (Fallible.state holedAllocator) ops).allocator.state 0x1000 ≠
        .ok .unused := by
  have hfinal : holedFinal = .ok () (Fallible.state holedFinal) :=
    eq_ok_of_isOk (by decide +kernel)
  have hnew : holedAllocator = .ok () (Fallible.state holedAllocator) :=
    eq_ok_of_isOk (by decide +kernel)
  have hbad : BadPage (MemoryMap.session MemoryMap.empty holedMap).inserted 1 := by
    refine ⟨0x1800, ⟨by decide, by decide⟩, .inl ?_⟩
    show 0x1800 ∈ cover [PhysRegion.ofBounds 0x1800 0x1900 _ _]
    refine ⟨_, List.mem_singleton_self _, ?_⟩
    show 0x1800 ≤ 0x1800 ∧ 0x1800 < 0x1800 + (0x1900 - 0x1800)
    decide
  exact ⟨hbad, fun ops =>
    ((reserved_never_handed_out MemoryMap.empty holedMap hfinal hnew).2 ops 1 hbad).1⟩

end Tvisor.PageAllocator
