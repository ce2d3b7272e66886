/-
# Tvisor.PageAllocator.RamPages -- the count of RAM pages and its subtractions

`count_pages` rounds every RAM region inwards and subtracts the bounds. `mark_managed` and `release`
round the same way and then loop while the page is below the end, so an empty result is an empty
loop. The subtraction has no such guard: for a region that begins and ends strictly inside one page
the rounded start lies above the rounded end. The subtractions of `new` are listed here with both
operands; the count is right, and the later checks with it pass, exactly for the maps in which no
such region is reached.
-/
import Mathlib.Data.Set.Card
import Tvisor.PageAllocator.Reserved

namespace Tvisor.PageAllocator

open SystemInfo Fallible Page Words Intervals

variable {n : Nat}
variable {region : PhysRegion} {regions : List PhysRegion} {pages : Nat} {a : PageAllocator n}
  {i : MemoryMap.Inserted}

/-! ## The subtractions of `new` -/

variable {r m u : Nat}

/-- A subtraction that is performed, as minuend and subtrahend. -/
structure Subtraction where
  minuend : Nat
  subtrahend : Nat
  deriving DecidableEq, Repr

def Subtraction.Exact (s : Subtraction) : Prop := s.subtrahend ≤ s.minuend

instance (s : Subtraction) : Decidable s.Exact := inferInstanceAs (Decidable (_ ≤ _))

/-- The subtractions of `count_pages`, region by region until it returns. -/
def countSubtractions : List PhysRegion → Nat → List Subtraction
  | [], _ => []
  | region :: rest, pages =>
      match alignUp region.start pageSize, alignDown region.endAddr pageSize with
      | some start, some stop =>
          if stop > maxPhysicalAddress then []
          else ⟨stop, start⟩ :: match checkedAdd pages (wrappingSub stop start / pageSize) with
            | some pages => countSubtractions rest pages
            | none => []
      | _, _ => []

/-- `set_bit(index, false)` takes one from the count if the bit was set; setting a bit adds one. -/
def clearBitSubtractions (b : PageBitmap n) (index : Nat) : List Subtraction :=
  if b.isSet index then [⟨b.setPages, 1⟩] else []

/-- The loop of `release`. -/
def releaseLoopSubtractions (stop : Nat) : Nat → Nat → PageAllocator n → List Subtraction
  | 0, _, _ => []
  | fuel + 1, page, a =>
      if page < stop then
        match bitmapIndex n page, checkedAdd page pageSize with
        | .ok index, some next =>
            (if a.managed.isSet index && a.inUse.isSet index then
              clearBitSubtractions a.inUse index else []) ++
            releaseLoopSubtractions stop fuel next (Fallible.state ((releasePage page 0).run a))
        | _, _ => []
      else []

def releaseSubtractions (region : PhysRegion) (a : PageAllocator n) : List Subtraction :=
  match alignUp region.start pageSize, alignDown region.endAddr pageSize with
  | some start, some stop =>
      let stop := min stop (apertureEnd n)
      releaseLoopSubtractions stop (stop - start) start a
  | _, _ => []

/-- One region after the other, each from the bitmaps that the one before has left. -/
def releaseEachSubtractions : List PhysRegion → PageAllocator n → List Subtraction
  | [], _ => []
  | region :: rest, a => releaseSubtractions region a ++
      match (release region).run a with
      | .ok _ a' => releaseEachSubtractions rest a'
      | .error _ _ => []

/-- What `new` has when it begins to release: the managed pages are marked, and all are in use. -/
def newMarked {r m : Nat} (ram : FixedList PhysRegion r) (allocatable : FixedList PhysRegion m) :
    EStateM AllocatorError (PageAllocator n) Unit := do
  lift (validateBitmaps n)
  modify fun a => { a with managed := a.managed.clear, inUse := a.inUse.clear }
  let ramPages ← lift (countPages ram.entries 0)
  modify fun a => { a with ramPages := ramPages }
  allocatable.entries.forM markManaged
  modify markAllManagedInUse

/-- All subtractions of `new`. -/
def newSubtractions {r m u : Nat} (ram : FixedList PhysRegion r)
    (allocatable : FixedList PhysRegion m) (initiallyUnused : FixedList PhysRegion u)
    (storage : PageAllocator n) : List Subtraction :=
  match validateBitmaps n with
  | .error _ => []
  | .ok () => countSubtractions ram.entries 0 ++
      match (newMarked ram allocatable).run storage with
      | .ok _ a => releaseEachSubtractions initiallyUnused.entries a
      | .error _ _ => []

/-- The two parts of `new` together are `new`. -/
theorem new_eq (ram : FixedList PhysRegion r) (allocatable : FixedList PhysRegion m)
    (initiallyUnused : FixedList PhysRegion u) :
    new (n := n) ram allocatable initiallyUnused = (do
      newMarked ram allocatable
      initiallyUnused.entries.forM fun region => do
        let _ ← release region
        pure ()) := by
  simp only [new, newMarked, bind_assoc]

/-! ## Counting -/

section Counting

-- Unfolding the rounding makes Lean count up to the page size in unary.
attribute [local irreducible] alignUp

/-- The region begins and ends strictly inside one page. -/
def InsidePage (region : PhysRegion) : Prop := region.endAddr / 4096 < firstPage region

/-- The rounded end of the region is inside the physical address space that is counted. -/
def Counted (region : PhysRegion) : Prop := 4096 * (region.endAddr / 4096) ≤ maxPhysicalAddress

/-- How many pages the region covers. -/
def pagesOf (region : PhysRegion) : Nat := region.endAddr / 4096 - firstPage region

theorem Counted.start_fits (h : Counted region) :
    region.start + 4095 < wordBound := by
  have hstart := region.start_lt_endAddr
  have hmax : maxPhysicalAddress = 4294967296 := rfl
  have hbound : wordBound = 18446744073709551616 := rfl
  unfold Counted at h
  omega

theorem bounds_of_counted (h : Counted region) :
    alignUp region.start pageSize = some (4096 * firstPage region) ∧
      alignDown region.endAddr pageSize = some (4096 * (region.endAddr / 4096)) := by
  refine ⟨?_, alignDown_page region.endAddr_lt⟩
  rw [alignUp_page, if_pos h.start_fits]
  rfl

theorem countPages_cons (region : PhysRegion) (rest : List PhysRegion) (pages : Nat) :
    countPages (region :: rest) pages =
      match alignUp region.start pageSize, alignDown region.endAddr pageSize with
      | some start, some stop =>
        if stop > maxPhysicalAddress then .error .physicalAddressOutOfRange
        else match checkedAdd pages (wrappingSub stop start / pageSize) with
          | some pages => countPages rest pages
          | none => .error .addressOverflow
      | _, _ => .error .addressOverflow := rfl

theorem countSubtractions_cons (region : PhysRegion) (rest : List PhysRegion) (pages : Nat) :
    countSubtractions (region :: rest) pages =
      match alignUp region.start pageSize, alignDown region.endAddr pageSize with
      | some start, some stop =>
        if stop > maxPhysicalAddress then []
        else ⟨stop, start⟩ :: match checkedAdd pages (wrappingSub stop start / pageSize) with
          | some pages => countSubtractions rest pages
          | none => []
      | _, _ => [] := rfl

theorem Counted.not_gt (h : Counted region) :
    ¬ 4096 * (region.endAddr / 4096) > maxPhysicalAddress := Nat.not_lt.mpr h

theorem countPages_cons_of_counted (h : Counted region) (rest : List PhysRegion) (pages : Nat) :
    countPages (region :: rest) pages =
      match checkedAdd pages (wrappingSub (4096 * (region.endAddr / 4096))
        (4096 * firstPage region) / pageSize) with
      | some pages => countPages rest pages
      | none => .error .addressOverflow := by
  obtain ⟨hup, hdown⟩ := bounds_of_counted h
  rw [countPages_cons, hup, hdown]
  dsimp only
  rw [if_neg h.not_gt]

theorem countSubtractions_cons_of_counted (h : Counted region) (rest : List PhysRegion)
    (pages : Nat) :
    countSubtractions (region :: rest) pages =
      ⟨4096 * (region.endAddr / 4096), 4096 * firstPage region⟩ ::
        match checkedAdd pages (wrappingSub (4096 * (region.endAddr / 4096))
          (4096 * firstPage region) / pageSize) with
        | some pages => countSubtractions rest pages
        | none => [] := by
  obtain ⟨hup, hdown⟩ := bounds_of_counted h
  rw [countSubtractions_cons, hup, hdown]
  dsimp only
  rw [if_neg h.not_gt]

/-- A region outside the counted space ends the loop before the subtraction. -/
theorem countSubtractions_cons_of_not_counted (h : ¬ Counted region) (rest : List PhysRegion)
    (pages : Nat) : countSubtractions (region :: rest) pages = [] := by
  rw [countSubtractions_cons, alignDown_page region.endAddr_lt]
  cases alignUp region.start pageSize with
  | none => rfl
  | some start =>
    have hgt : 4096 * (region.endAddr / 4096) > maxPhysicalAddress := Nat.lt_of_not_le h
    dsimp only
    rw [if_pos hgt]

theorem countPages_cons_of_not_counted (h : ¬ Counted region) (rest : List PhysRegion)
    (pages : Nat) :
    ∃ e, countPages (region :: rest) pages = .error e := by
  rw [countPages_cons, alignDown_page region.endAddr_lt]
  cases alignUp region.start pageSize with
  | none => exact ⟨_, rfl⟩
  | some start =>
    have hgt : 4096 * (region.endAddr / 4096) > maxPhysicalAddress := Nat.lt_of_not_le h
    dsimp only
    rw [if_pos hgt]
    exact ⟨_, rfl⟩

/-- The next count, where the subtraction does not underflow. The pages counted so far all lie below
the region, so the sum stays small. -/
theorem checkedAdd_pagesOf (hwhole : ¬ InsidePage region) (hbelow : 4096 * pages ≤ region.start) :
    checkedAdd pages (wrappingSub (4096 * (region.endAddr / 4096)) (4096 * firstPage region) /
      pageSize) = some (pages + pagesOf region) ∧
      4096 * (pages + pagesOf region) ≤ region.endAddr := by
  have hle : firstPage region ≤ region.endAddr / 4096 := not_lt.mp hwhole
  have hsub : wrappingSub (4096 * (region.endAddr / 4096)) (4096 * firstPage region) / pageSize =
      pagesOf region := by
    rw [wrappingSub_of_le (by omega), ← Nat.mul_sub]
    exact Nat.mul_div_cancel_left _ (by decide)
  have hnext : 4096 * (pages + pagesOf region) ≤ region.endAddr := by
    unfold pagesOf firstPage at *
    omega
  refine ⟨?_, hnext⟩
  rw [hsub]
  have hend := region.endAddr_lt
  exact checkedAdd_of_lt (by omega)

/-- The counted pages lie below every region that is still to come. -/
theorem below_rest {rest : List PhysRegion} (hsep : Separated (region :: rest))
    (hnext : 4096 * (pages + pagesOf region) ≤ region.endAddr) :
    ∀ r ∈ rest, 4096 * (pages + pagesOf region) ≤ r.start := by
  intro r hr
  have hlt : region.endAddr < r.start := (separated_cons.mp hsep).1 r hr
  omega

/-- Without an underflow: every subtraction is exact. -/
theorem countSubtractions_exact (hwhole : ∀ r ∈ regions, InsidePage r → ¬ Counted r) :
    ∀ s ∈ countSubtractions regions pages, s.Exact := by
  induction regions generalizing pages with
  | nil => exact nofun
  | cons region rest ih =>
    obtain ⟨hregion, hrest⟩ := List.forall_mem_cons.mp hwhole
    by_cases hcounted : Counted region
    · rw [countSubtractions_cons_of_counted hcounted, List.forall_mem_cons]
      constructor
      · show 4096 * firstPage region ≤ 4096 * (region.endAddr / 4096)
        have hle : firstPage region ≤ region.endAddr / 4096 :=
          not_lt.mp fun h => hregion h hcounted
        omega
      · cases checkedAdd pages _ with
        | none => exact nofun
        | some pages' => exact ih hrest
    · rw [countSubtractions_cons_of_not_counted hcounted]
      exact nofun

/-- A region inside a page is reached, since all before it are lower still; it or one before it
underflows. -/
theorem countSubtractions_underflow (hsep : Separated regions)
    (hbelow : ∀ r ∈ regions, 4096 * pages ≤ r.start) (hmem : region ∈ regions)
    (hinside : InsidePage region) (hcounted : Counted region) :
    ∃ s ∈ countSubtractions regions pages, ¬ s.Exact := by
  induction regions generalizing pages with
  | nil => cases hmem
  | cons first rest ih =>
    have hfirst : Counted first := by
      rcases List.mem_cons.mp hmem with rfl | hrest
      · exact hcounted
      · have hlt : first.endAddr < region.start := (separated_cons.mp hsep).1 region hrest
        have := region.start_lt_endAddr
        unfold Counted at hcounted ⊢
        omega
    rw [countSubtractions_cons_of_counted hfirst]
    by_cases htiny : InsidePage first
    · refine ⟨_, List.mem_cons_self, ?_⟩
      show ¬ 4096 * firstPage first ≤ 4096 * (first.endAddr / 4096)
      unfold InsidePage at htiny
      omega
    · have hrest : region ∈ rest := by
        rcases List.mem_cons.mp hmem with rfl | hrest
        · exact absurd hinside htiny
        · exact hrest
      obtain ⟨hadd, hnext⟩ := checkedAdd_pagesOf htiny (hbelow first List.mem_cons_self)
      obtain ⟨s, hs, hunder⟩ := ih (separated_cons.mp hsep).2 (below_rest hsep hnext) hrest
      rw [hadd]
      exact ⟨s, List.mem_cons_of_mem _ hs, hunder⟩

/-- With every region counted and none inside a page, the count is the sum. -/
theorem countPages_eq_sum (hsep : Separated regions)
    (hbelow : ∀ r ∈ regions, 4096 * pages ≤ r.start)
    (hall : ∀ r ∈ regions, Counted r ∧ ¬ InsidePage r) :
    countPages regions pages = .ok (pages + (regions.map pagesOf).sum) := by
  induction regions generalizing pages with
  | nil => rfl
  | cons region rest ih =>
    obtain ⟨⟨hcounted, hwhole⟩, hrest⟩ := List.forall_mem_cons.mp hall
    obtain ⟨hadd, hnext⟩ := checkedAdd_pagesOf hwhole (hbelow region List.mem_cons_self)
    rw [countPages_cons_of_counted hcounted, hadd]
    show countPages rest (pages + pagesOf region) = _
    rw [ih (separated_cons.mp hsep).2 (below_rest hsep hnext) hrest, List.map_cons, List.sum_cons,
      Nat.add_assoc]

/-- A count that succeeds has seen no region outside the counted space. -/
theorem counted_of_countPages {pages total : Nat} (h : countPages regions pages = .ok total) :
    ∀ r ∈ regions, Counted r := by
  induction regions generalizing pages with
  | nil => exact nofun
  | cons region rest ih =>
    by_cases hcounted : Counted region
    · rw [countPages_cons_of_counted hcounted] at h
      cases hadd : checkedAdd pages (wrappingSub (4096 * (region.endAddr / 4096))
          (4096 * firstPage region) / pageSize) with
      | none =>
        rw [hadd] at h
        cases h
      | some pages' =>
        rw [hadd] at h
        exact List.forall_mem_cons.mpr ⟨hcounted, ih h⟩
    · obtain ⟨e, herror⟩ := countPages_cons_of_not_counted hcounted rest pages
      rw [herror] at h
      cases h

end Counting

/-! ## Pages of a list of regions -/

section Pages

/-- The pages that lie wholly inside one of the regions. -/
def wholePages (regions : List PhysRegion) : Set Nat := {index | ∃ r ∈ regions, Covers r index}

/-- The same pages in order. -/
def pageList (regions : List PhysRegion) : List Nat :=
  regions.flatMap fun r => List.range' (firstPage r) (pagesOf r)

theorem mem_range_covers {index : Nat} :
    index ∈ List.range' (firstPage region) (pagesOf region) ↔ Covers region index := by
  rw [List.mem_range'_1, covers_iff]
  unfold pagesOf
  omega

theorem mem_pageList {index : Nat} :
    index ∈ pageList regions ↔ index ∈ wholePages regions := by
  simp only [pageList, List.mem_flatMap, mem_range_covers]
  exact Iff.rfl

theorem length_pageList (regions : List PhysRegion) :
    (pageList regions).length = (regions.map pagesOf).sum := by
  simp [pageList, List.length_flatMap]

/-- No page lies inside two separated regions. -/
theorem nodup_pageList (hsep : Separated regions) :
    (pageList regions).Nodup := by
  refine List.nodup_flatMap.mpr ⟨fun r _ => List.nodup_range' 1, hsep.imp fun {a b} hab => ?_⟩
  intro index ha hb
  obtain ⟨_, hle⟩ := mem_range_covers.mp ha
  obtain ⟨hge, _⟩ := mem_range_covers.mp hb
  have hlt : a.endAddr < b.start := hab
  omega

theorem ncard_wholePages (hsep : Separated regions) :
    (wholePages regions).ncard = (regions.map pagesOf).sum := by
  have hset : wholePages regions = ((pageList regions).toFinset : Set Nat) := by
    ext index
    rw [Finset.mem_coe, List.mem_toFinset, mem_pageList]
  rw [hset, Set.ncard_coe_finset, List.toFinset_card_of_nodup (nodup_pageList hsep),
    length_pageList]

theorem finite_wholePages (regions : List PhysRegion) : (wholePages regions).Finite := by
  refine (pageList regions).toFinset.finite_toSet.subset fun index hindex => ?_
  rw [Finset.mem_coe, List.mem_toFinset, mem_pageList]
  exact hindex

end Pages

/-! ## Releasing -/

variable {a' : PageAllocator n}

section Releasing

attribute [local irreducible] alignUp release

/-- The count of a coherent bitmap is at least one where a bit is set. -/
theorem Coherent.clearBit_exact (h : a.Coherent) (index : Nat) :
    ∀ s ∈ clearBitSubtractions a.inUse index, s.Exact := by
  unfold clearBitSubtractions
  split
  · rename_i hset
    intro s hs
    obtain rfl := List.mem_singleton.mp hs
    show 1 ≤ a.inUse.setPages
    rw [h.inUse_counted]
    exact Finset.card_pos.mpr ⟨index, PageBitmap.mem_pageSet.mpr hset⟩
  · exact nofun

theorem Coherent.releasePage (h : a.Coherent) (page released : Nat) :
    (Fallible.state ((releasePage page released).run a)).Coherent := by
  unfold PageAllocator.releasePage
  simp only [EStateM.run_bind]
  cases bitmapIndex n page with
  | error e => exact h
  | ok index =>
    simp only [run_lift_ok, EStateM.run_get, run_ite]
    split
    · rename_i hset
      have hmem : ∀ i ∈ [index], i ∈ a.inUse.pageSet := by
        simpa using (Bool.and_eq_true_iff.mp hset).2
      exact h.givePages hmem
    · exact h

theorem Coherent.releaseLoop_exact {stop fuel page : Nat} (h : a.Coherent) :
    ∀ s ∈ releaseLoopSubtractions stop fuel page a, s.Exact := by
  induction fuel generalizing page a with
  | zero => exact nofun
  | succ fuel ih =>
    unfold releaseLoopSubtractions
    split
    · split
      · rename_i index next _ _
        refine List.forall_mem_append.mpr ⟨?_, ih (h.releasePage page 0)⟩
        split
        · exact h.clearBit_exact index
        · exact nofun
      · exact nofun
    · exact nofun

theorem Coherent.release (h : a.Coherent) {count : Nat}
    (hrun : (release region).run a = .ok count a') : a'.Coherent := by
  rcases release_cases a region with ⟨pages, _, hpages, hok⟩ | ⟨_, herror⟩
  · rw [hok] at hrun
    cases hrun
    exact h.givePages fun i hi => PageBitmap.mem_pageSet.mpr ((hpages i).mp hi).2.2.2
  · rw [herror] at hrun
    cases hrun

theorem releaseEachSubtractions_cons (region : PhysRegion) (rest : List PhysRegion)
    (a : PageAllocator n) :
    releaseEachSubtractions (region :: rest) a = releaseSubtractions region a ++
      match (PageAllocator.release region).run a with
      | .ok _ a' => releaseEachSubtractions rest a'
      | .error _ _ => [] := rfl

theorem Coherent.releaseEach_exact (h : a.Coherent) :
    ∀ s ∈ releaseEachSubtractions regions a, s.Exact := by
  induction regions generalizing a with
  | nil => exact nofun
  | cons region rest ih =>
    rw [releaseEachSubtractions_cons]
    refine List.forall_mem_append.mpr ⟨?_, ?_⟩
    · unfold releaseSubtractions
      split
      · exact h.releaseLoop_exact
      · exact nofun
    · cases hrun : (PageAllocator.release region).run a with
      | ok count a' => exact ih (h.release hrun)
      | error e a' => exact nofun

end Releasing

/-! ## Construction -/

variable {ram : FixedList PhysRegion r} {allocatable : FixedList PhysRegion m}
  {built : PageAllocator n}

variable {storage : PageAllocator n} {initiallyUnused : FixedList PhysRegion u}

section Construction

theorem markManaged_bound (h : (markManaged region).run a = .ok () a') :
    4096 * (region.endAddr / 4096) ≤ apertureEnd n := by
  by_contra hover
  unfold markManaged at h
  rw [bounds_run] at h
  by_cases hfit : region.start + 4095 < wordBound
  · rw [if_pos hfit] at h
    simp [Nat.lt_of_not_le hover] at h
  · rw [if_neg hfit] at h
    cases h

theorem markEach_bound (h : (regions.forM markManaged).run a = .ok () a') :
    ∀ r ∈ regions, 4096 * (r.endAddr / 4096) ≤ apertureEnd n := by
  induction regions generalizing a with
  | nil => exact nofun
  | cons region rest ih =>
    obtain ⟨mid, hfirst, hrest⟩ := run_forM_cons_eq_ok.mp h
    exact List.forall_mem_cons.mpr ⟨markManaged_bound hfirst, ih hrest⟩

theorem newMarked_ok (h : (newMarked ram allocatable).run storage = .ok () a) :
    a.Coherent ∧ ∀ region ∈ allocatable.entries,
      4096 * (region.endAddr / 4096) ≤ apertureEnd n := by
  unfold newMarked at h
  obtain ⟨_, s0, -, h⟩ := run_bind_eq_ok.mp h
  obtain ⟨_, s1, hclear, h⟩ := run_bind_eq_ok.mp h
  obtain ⟨ramPages, s2, hcount, h⟩ := run_bind_eq_ok.mp h
  obtain ⟨_, s3, hset, h⟩ := run_bind_eq_ok.mp h
  obtain ⟨_, s4, hmark, hall⟩ := run_bind_eq_ok.mp h
  rw [EStateM.run_modify] at hclear hset hall
  cases hclear
  cases hset
  cases hall
  obtain ⟨_, rfl⟩ := run_lift_eq_ok.mp hcount
  have hempty : ∀ i ∈ (PageBitmap.zeroed : PageBitmap n).pageSet, i < apertureEnd n / 4096 := by
    simp [PageBitmap.pageSet_zeroed]
  obtain ⟨hinUse, _, hcounted, haperture, _⟩ :=
    markEach_ok hmark PageBitmap.wellCounted_zeroed hempty
  exact ⟨(markAll_spec hinUse hcounted haperture).1, markEach_bound hmark⟩

theorem new_bound (h : (new ram allocatable initiallyUnused).run storage = .ok () built) :
    n ≠ 0 ∧ ∀ region ∈ allocatable.entries, 4096 * (region.endAddr / 4096) ≤ apertureEnd n := by
  rw [new_eq] at h
  obtain ⟨_, a, hmarked, _⟩ := run_bind_eq_ok.mp h
  refine ⟨?_, (newMarked_ok hmarked).2⟩
  rintro rfl
  obtain ⟨_, _, hvalid, _⟩ := run_bind_eq_ok.mp hmarked
  cases hvalid

theorem newSubtractions_exact
    (hwhole : ∀ region ∈ ram.entries, InsidePage region → ¬ Counted region)
    (storage : PageAllocator n) :
    ∀ s ∈ newSubtractions ram allocatable initiallyUnused storage, s.Exact := by
  unfold newSubtractions
  cases validateBitmaps n with
  | error e => exact nofun
  | ok valid =>
    refine List.forall_mem_append.mpr ⟨countSubtractions_exact hwhole, ?_⟩
    cases hmarked : (newMarked ram allocatable).run storage with
    | error e a => exact nofun
    | ok marked a => exact (newMarked_ok hmarked).1.releaseEach_exact

end Construction

/-! ## The accounting -/

/-- No subtraction of `new` underflows; a count that `new` returns is that of the pages wholly
inside a RAM region, and covers the managed pages; and after any calls the subtraction in `stats`
does not underflow and `from_existing` accepts the bitmaps with that count. -/
structure Accounted (n : Nat) (map : MemoryMap) : Prop where
  exact : ∀ (storage : PageAllocator n),
    ∀ s ∈ newSubtractions map.ram map.usableRam map.usableRam storage, s.Exact
  counted : ∀ storage built : PageAllocator n,
    (new map.ram map.usableRam map.usableRam).run storage = .ok () built →
    built.ramPages = (wholePages map.ram.entries).ncard ∧ built.managed.pages ≤ built.ramPages
  later : ∀ storage built : PageAllocator n,
    (new map.ram map.usableRam map.usableRam).run storage = .ok () built → ∀ ops,
    (session built ops).allocator.managed.pages ≤ (session built ops).allocator.ramPages ∧
    fromExisting (session built ops).allocator = .ok (session built ops).allocator

/-- No region that lies inside a page is counted. -/
def NoneInsidePage (map : MemoryMap) : Prop :=
  ∀ region ∈ map.ram.entries, InsidePage region → ¬ Counted region

/-- `new` fails, or the bitmap has a bit for every RAM page. -/
def FitsBitmap (n : Nat) (map : MemoryMap) : Prop :=
  (∃ region ∈ map.ram.entries, ¬ Counted region) ∨
  (∃ region ∈ map.usableRam.entries, apertureEnd n < 4096 * (region.endAddr / 4096)) ∨
  (wholePages map.ram.entries).ncard ≤ bitmapPages n

section Accounting

variable {map : MemoryMap}

theorem fromExisting_ok_iff :
    fromExisting a = .ok a ↔ n ≠ 0 ∧ a.ramPages ≤ bitmapPages n ∧
      a.managed.pages ≤ a.ramPages ∧ a.inUse.pages ≤ a.managed.pages := by
  unfold fromExisting validateBitmaps
  by_cases hn : n = 0
  · simp [hn]
  · simp [hn]

/-- A managed page lies inside a usable region, and that inside a RAM region. -/
theorem managed_subset (hexact : MemoryMap.UsableExact map i) {ram unused : List PhysRegion}
    (hbuilt : Built ram map.usableRam.entries unused built) :
    (built.managed.pageSet : Set Nat) ⊆ wholePages map.ram.entries := by
  intro index hindex
  obtain ⟨u, hu, hlo, hhi⟩ := (hbuilt.managed_iff index).mp hindex
  obtain ⟨r, hr, hcontains⟩ := hexact.within_ram u hu
  simp only [PhysRegion.containsRegion, Bool.and_eq_true, decide_eq_true_eq] at hcontains
  exact ⟨r, hr, hcontains.1.trans hlo, hhi.trans hcontains.2⟩

/-- What a successful `new` has counted. -/
theorem built_counted (hsep : Separated map.ram.entries) (hexact : MemoryMap.UsableExact map i)
    (hwhole : NoneInsidePage map)
    (hbuilt : Built map.ram.entries map.usableRam.entries map.usableRam.entries built) :
    built.ramPages = (wholePages map.ram.entries).ncard ∧ built.managed.pages ≤ built.ramPages := by
  have hcounted := counted_of_countPages hbuilt.ram_pages
  have hcount := @countPages_eq_sum _ 0 hsep (fun _ _ => Nat.zero_le _)
    fun r hr => ⟨hcounted r hr, fun hinside => hwhole r hr hinside (hcounted r hr)⟩
  rw [hbuilt.ram_pages, Nat.zero_add, ← ncard_wholePages hsep] at hcount
  have hram := Except.ok.inj hcount
  refine ⟨hram, ?_⟩
  rw [hram]
  show built.managed.setPages ≤ _
  rw [hbuilt.coherent.managed_counted, ← Set.ncard_coe_finset]
  exact Set.ncard_le_ncard (managed_subset hexact hbuilt) (finite_wholePages _)

theorem accounted_of_fits (hsep : Separated map.ram.entries)
    (hexact : MemoryMap.UsableExact map i) (hwhole : NoneInsidePage map)
    (hfits : FitsBitmap n map) : Accounted n map where
  exact := newSubtractions_exact hwhole
  counted _ _ hnew := built_counted hsep hexact hwhole (new_ok hnew)
  later storage built hnew ops := by
    have hbuilt := new_ok hnew
    obtain ⟨hn, hbound⟩ := new_bound hnew
    obtain ⟨hram, hle⟩ := built_counted hsep hexact hwhole hbuilt
    have hpages : built.ramPages ≤ bitmapPages n := by
      rcases hfits with ⟨r, hr, hnot⟩ | ⟨u, hu, hover⟩ | hfits
      · exact absurd (counted_of_countPages hbuilt.ram_pages r hr) hnot
      · exact absurd (hbound u hu) (not_le.mpr hover)
      · exact hram.trans_le hfits
    -- Neither the managed pages nor the count change afterwards.
    obtain ⟨hcoherent, hmanaged, hsame⟩ := session_managed hbuilt.coherent ops
    have hle' : (session built ops).allocator.managed.pages ≤
        (session built ops).allocator.ramPages := by
      rw [hmanaged, hsame]
      exact hle
    exact ⟨hle', fromExisting_ok_iff.mpr ⟨hn, hsame.trans_le hpages, hle', hcoherent.inUse_le⟩⟩

theorem Accounted.noneInsidePage (h : Accounted n map) (hn : n ≠ 0)
    (hsep : Separated map.ram.entries) : NoneInsidePage map := by
  intro region hregion hinside hcounted
  obtain ⟨s, hs, hunder⟩ := @countSubtractions_underflow region _ 0 hsep
    (fun _ _ => Nat.zero_le _) hregion hinside hcounted
  refine hunder (h.exact ⟨.zeroed, .zeroed, 0⟩ s ?_)
  unfold newSubtractions
  rw [show validateBitmaps n = .ok () from if_neg hn]
  exact List.mem_append_left _ hs

theorem Accounted.fitsBitmap (h : Accounted n map) (hn : n ≠ 0) (hsep : Separated map.ram.entries)
    (hexact : MemoryMap.UsableExact map i) :
    FitsBitmap n map := by
  have hwhole := h.noneInsidePage hn hsep
  by_contra hnot
  unfold FitsBitmap at hnot
  push Not at hnot
  obtain ⟨hcounted, hbound, hbig⟩ := hnot
  have hcount := @countPages_eq_sum _ 0 hsep (fun _ _ => Nat.zero_le _)
    fun r hr => ⟨hcounted r hr, fun hinside => hwhole r hr hinside (hcounted r hr)⟩
  have hstart : ∀ u ∈ map.usableRam.entries, u.start + 4095 < wordBound := by
    intro u hu
    obtain ⟨r, hr, hcontains⟩ := hexact.within_ram u hu
    simp only [PhysRegion.containsRegion, Bool.and_eq_true, decide_eq_true_eq] at hcontains
    have hr' := hcounted r hr
    have hlt := u.start_lt_endAddr
    have hmax : maxPhysicalAddress = 4294967296 := rfl
    have hword : wordBound = 18446744073709551616 := rfl
    unfold Counted at hr'
    omega
  -- `new` succeeds, and then `from_existing` refuses the count.
  obtain ⟨built, hnew⟩ := new_succeeds hn hcount (fun u hu => ⟨hstart u hu, hbound u hu⟩) hstart
    ⟨.zeroed, .zeroed, 0⟩
  obtain ⟨_, hpages, _, _⟩ := fromExisting_ok_iff.mp (h.later _ built hnew []).2
  have hram := (h.counted _ built hnew).1
  have hle : built.ramPages ≤ bitmapPages n := hpages
  rw [hram] at hle
  exact absurd hle (not_le.mpr hbig)

/-- The bitmap of the static allocator has a bit for every page that can be counted. -/
theorem fitsBitmap_static : FitsBitmap pageBitmapBytes map := by
  by_cases hcounted : ∃ region ∈ map.ram.entries, ¬ Counted region
  · exact Or.inl hcounted
  · push Not at hcounted
    refine Or.inr (Or.inr ?_)
    have hsub : wholePages map.ram.entries ⊆ (Finset.range 1048576 : Set Nat) := by
      rintro index ⟨r, hr, hcovers⟩
      have hr' := hcounted r hr
      have hmax : maxPhysicalAddress = 4294967296 := rfl
      unfold Counted at hr'
      unfold Covers at hcovers
      rw [Finset.mem_coe, Finset.mem_range]
      omega
    have hcard := Set.ncard_le_ncard hsub (Finset.finite_toSet _)
    rw [Set.ncard_coe_finset, Finset.card_range] at hcard
    exact hcard.trans (by decide)

end Accounting

/-- The accounting of RAM pages is right for exactly these finalized maps, whatever the size of the
bitmaps: no counted RAM region begins and ends strictly inside one page, and the pages fit the
bitmap (with no bitmap at all `new` refuses at once). For the static allocator, whose bitmap covers
the counted space, the first condition alone decides. -/
theorem ram_page_accounting (map : MemoryMap) (calls : List MemoryMap.Call) {finalized : MemoryMap}
    (hfinal : MemoryMap.finalize.run (MemoryMap.session map calls).map = .ok () finalized) :
    (∀ n, Accounted n finalized ↔ n = 0 ∨ NoneInsidePage finalized ∧ FitsBitmap n finalized) ∧
    (Accounted pageBitmapBytes finalized ↔ NoneInsidePage finalized) := by
  have htracks := MemoryMap.session_tracks map calls
  obtain ⟨_, hexact⟩ := htracks.finalize_ok hfinal
  have hsep : Separated finalized.ram.entries := by
    obtain ⟨usable, hstate⟩ := MemoryMap.finalize_inputs _ htracks.ram
    rw [hfinal] at hstate
    cases hstate
    exact htracks.ram
  have hiff : ∀ n, Accounted n finalized ↔
      n = 0 ∨ NoneInsidePage finalized ∧ FitsBitmap n finalized := by
    intro n
    constructor
    · intro h
      by_cases hn : n = 0
      · exact Or.inl hn
      · exact Or.inr ⟨h.noneInsidePage hn hsep, h.fitsBitmap hn hsep hexact⟩
    · rintro (rfl | ⟨hwhole, hfits⟩)
      · refine ⟨fun _ => nofun, fun _ _ hnew => ?_, fun _ _ hnew => ?_⟩
        · exact absurd rfl (new_bound hnew).1
        · exact absurd rfl (new_bound hnew).1
      · exact accounted_of_fits hsep hexact hwhole hfits
  refine ⟨hiff, (hiff _).trans ⟨?_, fun hwhole => Or.inr ⟨hwhole, fitsBitmap_static⟩⟩⟩
  rintro (hzero | ⟨hwhole, _⟩)
  · exact absurd hzero (by decide)
  · exact hwhole

theorem ram_page_accounting_holedMap :
    holedFinal = .ok () (Fallible.state holedFinal) ∧
      Accounted pageBitmapBytes (Fallible.state holedFinal) := by
  have hfinal : holedFinal = .ok () (Fallible.state holedFinal) :=
    eq_ok_of_isOk (by decide +kernel)
  have hram : (Fallible.state holedFinal).ram.entries =
      [.ofBounds 0 0x8000 (by decide) (by decide)] := by
    decide +kernel
  have hwhole : NoneInsidePage (Fallible.state holedFinal) := by
    intro region hregion hinside
    rw [hram] at hregion
    obtain rfl := List.mem_singleton.mp hregion
    unfold InsidePage at hinside
    exact absurd hinside (by decide)
  exact ⟨hfinal, (ram_page_accounting MemoryMap.empty holedMap hfinal).2.mpr hwhole⟩

/-- RAM of 256 bytes in the middle of page 1. -/
def tinyFinal : EStateM.Result MemoryMapError MemoryMap Unit :=
  MemoryMap.finalize.run (MemoryMap.session MemoryMap.empty
    [.insertRam (.ofBounds 0x1100 0x1200 (by decide) (by decide))]).map

def tinyAllocator : EStateM.Result AllocatorError (PageAllocator 1) Unit :=
  (new (Fallible.state tinyFinal).ram (Fallible.state tinyFinal).usableRam
    (Fallible.state tinyFinal).usableRam).run ⟨.zeroed, .zeroed, 0⟩

/-- The rounded start 0x2000 is taken from the rounded end 0x1000, with the static bitmaps as with
any. Where the subtraction wraps, 2^52 - 1 pages are counted, `new` succeeds, and `from_existing`
refuses every later call. -/
theorem tinyRam_underflows :
    tinyFinal = .ok () (Fallible.state tinyFinal) ∧
    (∀ storage : PageAllocator pageBitmapBytes, ⟨0x1000, 0x2000⟩ ∈
      newSubtractions (Fallible.state tinyFinal).ram (Fallible.state tinyFinal).usableRam
        (Fallible.state tinyFinal).usableRam storage) ∧
    ¬ Subtraction.Exact ⟨0x1000, 0x2000⟩ ∧
    tinyAllocator = .ok () (Fallible.state tinyAllocator) ∧
    (Fallible.state tinyAllocator).ramPages = 2 ^ 52 - 1 ∧
    fromExisting (Fallible.state tinyAllocator) = .error .addressOverflow := by
  refine ⟨eq_ok_of_isOk (by decide +kernel), fun storage => ?_, by decide,
    eq_ok_of_isOk (by decide +kernel), by decide +kernel, ?_⟩
  · have hram : (Fallible.state tinyFinal).ram.entries =
        [.ofBounds 0x1100 0x1200 (by decide) (by decide)] := by
      decide +kernel
    unfold newSubtractions
    rw [show validateBitmaps pageBitmapBytes = .ok () from if_neg (by decide), hram]
    exact List.mem_append_left _ (by decide +kernel)
  · unfold fromExisting
    decide +kernel

end Tvisor.PageAllocator
