/-
# Tvisor.VmCtl.Accounting -- no page of a VM is lost, shared or freed twice

The allocator knows which pages are in use, the VM knows which pages it has. `Accounted` says that
the two agree: what is in use is what was in use when the VM was created, and the pages behind its
entries. Each effect takes a run of pages from the allocator and tracks exactly those, whichever
call it belongs to and however that call ends. `release_all` then frees each tracked page once and
leaves the in-use bitmap as it was found.
-/
import Tvisor.VmCtl.Calls

namespace Tvisor.VmCtl

open Fallible Page GuestStage2 Mm PageAllocator State

/-- The books of a VM over the allocator it was created with. -/
structure Accounted (before : GlobalPageAllocator) (s : State) : Prop where
  wf : s.Wf
  coherent : s.pages.allocator.Coherent
  initialized_eq : s.pages.initialized = before.initialized
  managed_eq : s.pages.allocator.managed = before.allocator.managed
  ram_eq : s.pages.allocator.ramPages = before.allocator.ramPages
  inUse_eq : s.pages.allocator.inUse.pageSet =
    before.allocator.inUse.pageSet ∪ (trackedPages s.vmMem).toFinset
  tracked_new : ∀ p ∈ trackedPages s.vmMem, p ∉ before.allocator.inUse.pageSet
  ready : trackedPages s.vmMem = [] ∨ Ready s.pages

variable {before : GlobalPageAllocator} {s s' : State} {allowed : Nat → Nat → Prop}

theorem accounted_fresh (hcoherent : before.allocator.Coherent) (memory : Memory) :
    Accounted before (fresh memory before) where
  wf := fresh_wf memory before
  coherent := hcoherent
  initialized_eq := rfl
  managed_eq := rfl
  ram_eq := rfl
  inUse_eq := (Finset.union_empty _).symm
  tracked_new := List.forall_mem_nil _
  ready := .inl rfl

theorem Accounted.effect (h : Accounted before s) (he : Effect allowed s s') :
    Accounted before s' := by
  obtain ⟨first, count, hready, hrun, hpages, hperm, -⟩ := he.takes h.wf
  have hcoherent : s'.pages.allocator.Coherent := by
    rw [hpages]
    exact h.coherent.takeRun hrun
  have htracked : (trackedPages s'.vmMem).toFinset =
      (trackedPages s.vmMem).toFinset ∪ Finset.Ico first (first + count) := by
    rw [List.toFinset_eq_of_perm _ _ hperm, List.toFinset_append]
    congr 1
    ext p
    rw [List.mem_toFinset, List.mem_range'_1, Finset.mem_Ico]
  refine ⟨he.wf h.wf, hcoherent, ?_, ?_, ?_, ?_, ?_, ?_⟩
  · rw [hpages]
    exact h.initialized_eq
  · rw [hpages]
    exact h.managed_eq
  · rw [hpages]
    exact h.ram_eq
  · rw [hpages, inUse_takePages hrun, h.inUse_eq, htracked, Finset.union_assoc]
  · intro p hp
    rcases List.mem_append.mp (hperm.mem_iff.mp hp) with hold | hrange
    · exact h.tracked_new p hold
    · -- the page was unused just now, so it was not in use at the start
      intro hused
      refine (run_managed hrun p hrange).2 ?_
      rw [h.inUse_eq]
      exact Finset.mem_union_left _ hused
  · have hkeep : ∀ hr : Ready s.pages, Ready s'.pages := fun hr =>
      hr.of_managed hcoherent (by rw [hpages]; rfl) (by rw [hpages]; rfl) (by rw [hpages]; rfl)
    rcases hready with rfl | hr
    · rcases h.ready with hnone | hr
      · left
        rw [hnone] at hperm
        exact List.perm_nil.mp hperm
      · exact .inr (hkeep hr)
    · exact .inr (hkeep hr)

theorem Accounted.effects (h : Accounted before s) (he : Effects allowed s s') :
    Accounted before s' := by
  induction he with
  | refl => exact h
  | tail _ hstep ih => exact ih.effect hstep

/-- The books stay right over any calls. -/
theorem Accounted.calls (h : Accounted before s) (calls : List Call) :
    Accounted before (calls.foldl State.call s) :=
  foldl_invariant State.call (Accounted before) (fun _ c h => h.effects (call_effects h.wf c))
    calls h

/-! ## Release -/

theorem VmMem.backing_eq {m : VmMem} (h : m.Wf) : m.backing = m.pageList.map (4096 * ·) := by
  rcases m with r | r | r
  · rfl
  · obtain ⟨-, -, -, -, -, hpa⟩ := h
    show (List.range (r.size / 4096)).map (fun page => r.pa + page * 4096) =
      (List.range' (r.pa / 4096) (r.size / 4096)).map (4096 * ·)
    rw [List.range'_eq_map_range, List.map_map]
    refine List.map_congr_left fun k _ => ?_
    show r.pa + k * 4096 = 4096 * (r.pa / 4096 + k)
    omega
  · obtain ⟨-, -, halign⟩ := h
    show r.pa = (r.pa.map (· / 4096)).map (4096 * ·)
    rw [List.map_map]
    refine (List.map_id r.pa).symm.trans (List.map_congr_left fun a ha => ?_)
    have := halign a ha
    show a = 4096 * (a / 4096)
    omega

theorem backing_eq_tracked (h : s.Wf) :
    s.vmMem.flatMap VmMem.backing = (trackedPages s.vmMem).map (4096 * ·) := by
  unfold trackedPages
  rw [List.map_flatMap]
  exact List.flatMap_congr fun m hm => VmMem.backing_eq (h.entries m hm)

/-- Freeing pages that are all in use, one by one, frees them all. -/
theorem freeEach_run {pages : List Nat} (hnodup : pages.Nodup) {g : GlobalPageAllocator}
    (hcoherent : g.allocator.Coherent) (hready : pages = [] ∨ Ready g)
    (hpages : ∀ p ∈ pages, p ∈ g.allocator.inUse.pageSet) :
    freeEach (pages.map (4096 * ·)) g =
      (pages.map fun p => (4096 * p, .ok ()),
        { g with allocator := g.allocator.givePages pages }) := by
  induction pages generalizing g with
  | nil => rfl
  | cons p rest ih =>
    obtain ⟨hp, hnodup⟩ := List.nodup_cons.mp hnodup
    obtain ⟨hused, hrest⟩ := List.forall_mem_cons.mp hpages
    have hready : Ready g := hready.resolve_left (List.cons_ne_nil p rest)
    have hmanaged := hcoherent.inUse_subset hused
    have hlt : p < 2 ^ 20 := by
      have := (pageSet_lt hcoherent hmanaged).1
      rwa [bitmapPages_eq] at this
    have hone : ∀ q ∈ [p], q ∈ g.allocator.inUse.pageSet :=
      List.forall_mem_singleton.mpr hused
    -- after the first call the rest are still in use
    have hafter := ih hnodup (g := { g with allocator := g.allocator.givePages [p] })
      (hcoherent.givePages hone)
      (.inr (hready.of_managed (hcoherent.givePages hone) rfl rfl rfl)) (by
        intro q hq
        rw [inUse_givePages hone, Finset.mem_sdiff, List.mem_toFinset, List.mem_singleton]
        exact ⟨hrest q hq, fun heq => hp (heq ▸ hq)⟩)
    rw [List.map_cons, freeEach, freePage_ok hready hlt hmanaged hused]
    show ((4096 * p, Except.ok ()) :: (freeEach (rest.map (4096 * ·))
        { g with allocator := g.allocator.givePages [p] }).1,
      (freeEach (rest.map (4096 * ·)) { g with allocator := g.allocator.givePages [p] }).2) = _
    rw [hafter]
    rfl

theorem Accounted.releaseAll_run (h : Accounted before s) :
    releaseAll s = ((trackedPages s.vmMem).map fun p => (4096 * p, .ok ()),
      { s with
        vmMem := []
        pages := { s.pages with
          allocator := s.pages.allocator.givePages (trackedPages s.vmMem) } }) := by
  unfold releaseAll
  rw [backing_eq_tracked h.wf,
    freeEach_run h.wf.nodup h.coherent h.ready fun p hp => (h.wf.owned p hp).2]

/-- After the release the in-use bitmap is the old one, bit for bit and with the same count. -/
theorem Accounted.releaseAll_inUse (h : Accounted before s)
    (hbefore : before.allocator.Coherent) :
    (releaseAll s).2.pages.allocator.inUse = before.allocator.inUse := by
  rw [h.releaseAll_run]
  have hused : ∀ p ∈ trackedPages s.vmMem, p ∈ s.pages.allocator.inUse.pageSet :=
    fun p hp => (h.wf.owned p hp).2
  refine PageBitmap.eq_of_pageSet_eq (h.coherent.givePages hused).inUse_counted
    hbefore.inUse_counted ?_
  show (s.pages.allocator.givePages (trackedPages s.vmMem)).inUse.pageSet = _
  rw [inUse_givePages hused, h.inUse_eq]
  refine Finset.union_sdiff_cancel_right (Finset.disjoint_left.mpr ?_)
  intro p hp htracked
  exact h.tracked_new p (List.mem_toFinset.mp htracked) hp

/-- A VM may be used again after a release: the books are right. -/
theorem Accounted.released (h : Accounted before s) (hbefore : before.allocator.Coherent) :
    Accounted before (releaseAll s).2 := by
  have hinUse := h.releaseAll_inUse hbefore
  rw [h.releaseAll_run] at hinUse ⊢
  exact ⟨fresh_wf _ _, h.coherent.givePages fun p hp => (h.wf.owned p hp).2, h.initialized_eq,
    h.managed_eq, h.ram_eq, (congrArg _ hinUse).trans (Finset.union_empty _).symm,
    List.forall_mem_nil _, .inl rfl⟩

/-- The pages that are in use now and were not when the VM was created. -/
theorem Accounted.newly_inUse_iff (h : Accounted before s) (hbefore : before.allocator.Coherent)
    (p : Nat) :
    (s.pages.allocator.state (4096 * p) = .ok .inUse ∧
      before.allocator.state (4096 * p) ≠ .ok .inUse) ↔ p ∈ trackedPages s.vmMem := by
  constructor
  · rintro ⟨hnow, hthen⟩
    obtain ⟨-, hlt, hstate⟩ := state_eq_ok hnow
    rw [Nat.mul_div_cancel_left p (by decide)] at hlt hstate
    have hset := (stateAt_eq_inUse.mp hstate.symm).2
    rw [← PageBitmap.mem_pageSet, h.inUse_eq, Finset.mem_union, List.mem_toFinset] at hset
    exact hset.resolve_left fun hold => hthen (hbefore.state_inUse hold)
  · intro hp
    refine ⟨h.coherent.state_inUse (h.wf.owned p hp).2, ?_⟩
    intro hthen
    obtain ⟨-, -, hstate⟩ := state_eq_ok hthen
    rw [Nat.mul_div_cancel_left p (by decide)] at hstate
    exact h.tracked_new p hp (PageBitmap.mem_pageSet.mpr (stateAt_eq_inUse.mp hstate.symm).2)

/-- VM page accounting, over any allocator that `new` and later calls of other owners have made. The
pages newly in use are the tracked ones, each tracked once and within the budget; `release_all`
frees each of them once, without an error, and restores the in-use bitmap. -/
theorem vm_pages_accounted {r m u : Nat} {ram : SystemInfo.FixedList SystemInfo.PhysRegion r}
    {allocatable : SystemInfo.FixedList SystemInfo.PhysRegion m}
    {initiallyUnused : SystemInfo.FixedList SystemInfo.PhysRegion u}
    {storage built : PageAllocator pageBitmapBytes}
    (hnew : (PageAllocator.new ram allocatable initiallyUnused).run storage = .ok () built)
    (others : List PageAllocator.Op) (initialized : Bool) (memory : Memory) (calls : List Call) :
    let before := (PageAllocator.session built others).allocator
    let s := calls.foldl State.call (fresh memory ⟨before, initialized⟩)
    (∀ p, (s.pages.allocator.state (4096 * p) = .ok .inUse ∧
      before.state (4096 * p) ≠ .ok .inUse) ↔ p ∈ trackedPages s.vmMem) ∧
    (trackedPages s.vmMem).Nodup ∧
    (trackedPages s.vmMem).length ≤ maxGuestMemPages ∧
    (releaseAll s).1 = ((trackedPages s.vmMem).map fun p => (4096 * p, .ok ())) ∧
    (releaseAll s).2.pages.allocator.inUse = before.inUse := by
  intro before s
  have hbefore : before.Coherent := (session_managed (new_ok hnew).coherent others).1
  have h : Accounted ⟨before, initialized⟩ s := (accounted_fresh hbefore memory).calls calls
  exact ⟨h.newly_inUse_iff hbefore, h.wf.nodup, h.wf.budget,
    congrArg Prod.fst h.releaseAll_run, h.releaseAll_inUse hbefore⟩

/-- Eight pages of RAM, all of them allocatable. -/
theorem vm_pages_accounted_eightPages :
    ∃ built : PageAllocator pageBitmapBytes,
      (PageAllocator.new (oneRegion 0 0x8000 (by decide) (by decide))
        (oneRegion 0 0x8000 (by decide) (by decide))
        (oneRegion 0 0x8000 (by decide) (by decide))).run ⟨.zeroed, .zeroed, 0⟩ = .ok () built ∧
      (releaseAll
        ([.vmMemAlloc .guestStage2PageTable none 4096,
            .vmMemAlloc .guestRam (some 0x40000000) 8192,
            .map .guestRam .normalWbWa .readWrite .executable 40].foldl State.call
          (fresh (fun _ => 0)
            ⟨(PageAllocator.session built []).allocator, true⟩))).2.pages.allocator.inUse =
        (PageAllocator.session built []).allocator.inUse := by
  have hregion : ∀ region ∈ (oneRegion 0 0x8000 (by decide) (by decide)).entries,
      region.start + 4095 < Words.wordBound ∧
        4096 * (region.endAddr / 4096) ≤ apertureEnd pageBitmapBytes :=
    List.forall_mem_singleton.mpr (by decide)
  have hram : countPages (oneRegion 0 0x8000 (by decide) (by decide)).entries 0 = .ok 8 := by
    decide +kernel
  obtain ⟨built, hnew⟩ := new_succeeds (n := pageBitmapBytes) (by decide) hram hregion
    (fun region hin => (hregion region hin).1) ⟨.zeroed, .zeroed, 0⟩
  exact ⟨built, hnew, (vm_pages_accounted hnew [] true (fun _ => 0) _).2.2.2.2⟩

end Tvisor.VmCtl
