/-
# Tvisor.PageAllocator -- the three-state physical page allocator

`tvisor_util/page_allocator.rs`. Two packed bitmaps cover the physical aperture, one bit for each
4 KiB page: `managed` says which pages the allocator controls, `in_use` which of them are handed
out. Each bitmap caches its number of set bits.

Operations are `EStateM` computations on the allocator. `new` borrows the two bitmaps from its
caller, so its state is the allocator under construction: a failed `new` leaves cleared or
half-filled bitmaps behind, and a successful one leaves the allocator it returns.

The bitmap size is arbitrary. The products with it are the wrapping ones of a release build, so no
bound on the size is assumed anywhere; a page index is tested against the wrapped bound before every
access, which keeps it inside the array in any case.

The three `while` loops over pages carry fuel `end - start`. At fuel zero the loop condition is
false, so the loop is exactly the source's; `eachPage_run` and `allocateInLoop_run` show it.
-/
import Tvisor.Lib.Fallible
import Tvisor.Lib.Packed
import Tvisor.Page
import Tvisor.SystemInfo

namespace Tvisor

open SystemInfo Fallible Page Words

/-- RAM above it is refused. -/
def maxPhysicalAddress : Nat := 1 <<< 32

def pageBitmapBytes : Nat := maxPhysicalAddress / pageSize / 8

/-- Pages outside the managed set are reserved. -/
inductive PageState where
  | reserved
  | inUse
  | unused
  deriving DecidableEq, Repr

/-- Errors of the allocator and of the VM memory above it. -/
inductive AllocatorError where
  | addressOverflow
  | notInitialized
  | invalidRegion (error : RegionError)
  | physicalAddressOutOfRange
  | exhausted
  | unalignedPage
  | reservedPage
  | doubleFree
  | alreadyAllocated
  | invalidateParameter
  | invalidIpa
  | overlappingIpa
  | unexpected
  deriving DecidableEq, Repr

/-- Counts for the console. -/
structure AllocatorStats where
  ramPages : Nat
  reservedPages : Nat
  inUsePages : Nat
  unusedPages : Nat
  deriving DecidableEq, Repr

/-- A bitmap and its cached set-bit count. -/
@[ext] structure PageBitmap (bytes : Nat) where
  bits : Vector (BitVec 8) bytes
  setPages : Nat
  deriving DecidableEq

/-- One bit per page in each bitmap. -/
@[ext] structure PageAllocator (bytes : Nat) where
  managed : PageBitmap bytes
  inUse : PageBitmap bytes
  ramPages : Nat
  deriving DecidableEq

variable {n : Nat}

/-! ## Bitmaps -/

/-- The callers keep the index inside the array. -/
def bitIsSet (bitmap : Vector (BitVec 8) n) (index : Nat) : Bool :=
  (bitmap[index / 8]?.getD 0#8 &&& (1#8 <<< (index % 8))) != 0#8

/-- The other bits of the byte stay. -/
def writeBit (bitmap : Vector (BitVec 8) n) (index : Nat) (value : Bool) : Vector (BitVec 8) n :=
  let mask := 1#8 <<< (index % 8)
  let byte := bitmap[index / 8]?.getD 0#8
  bitmap.setIfInBounds (index / 8) (if value then byte ||| mask else byte &&& ~~~mask)

namespace PageBitmap

variable {b : PageBitmap n} {index : Nat}

def zeroed : PageBitmap n := ⟨Vector.replicate n 0#8, 0⟩

/-- The page is in the bitmap. -/
def isSet (b : PageBitmap n) (index : Nat) : Bool := bitIsSet b.bits index

def pages (b : PageBitmap n) : Nat := b.setPages

def clear (_ : PageBitmap n) : PageBitmap n := zeroed

/-- Keeps the count in step with the bits. -/
def setBit (b : PageBitmap n) (index : Nat) (value : Bool) : PageBitmap n :=
  if b.isSet index = value then b
  else
    { bits := writeBit b.bits index value
      setPages := if value then b.setPages + 1 else b.setPages - 1 }

/-- `for page in pages { bitmap.set_bit(page, value) }` -/
def setEach (b : PageBitmap n) (pages : List Nat) (value : Bool) : PageBitmap n :=
  pages.foldl (fun b page => b.setBit page value) b

/-- The bitmap as the set of its pages. -/
def pageSet (b : PageBitmap n) : Finset Nat := Packed.ones b.bits

/-- The cached count is the number of set bits. -/
def WellCounted (b : PageBitmap n) : Prop := b.setPages = b.pageSet.card

theorem isSet_eq_bit (b : PageBitmap n) (index : Nat) : b.isSet index = Packed.bit b.bits index :=
  Packed.and_mask_ne_zero _ (Nat.mod_lt _ (by decide))

@[simp] theorem mem_pageSet :
    index ∈ b.pageSet ↔ b.isSet index = true := by
  rw [pageSet, Packed.mem_ones, isSet_eq_bit]

theorem lt_of_isSet (h : b.isSet index = true) :
    index < 8 * n := by
  by_contra hle
  rw [isSet_eq_bit, Packed.bit_of_le (by omega)] at h
  cases h

theorem bit_writeBit {bitmap : Vector (BitVec 8) n} (h : index < 8 * n) (value : Bool) (j : Nat) :
    Packed.bit (writeBit bitmap index value) j =
      if index = j then value else Packed.bit bitmap j := by
  apply Packed.bit_setIfInBounds h
  intro k hk
  have hmod : index % 8 < 8 := Nat.mod_lt _ (by decide)
  cases value with
  | true =>
    show (_ ||| _ : BitVec 8).getLsbD k = _
    rw [BitVec.getLsbD_or, Packed.getLsbD_mask hmod]
    split <;> simp_all
  | false =>
    show (_ &&& ~~~_ : BitVec 8).getLsbD k = _
    rw [BitVec.getLsbD_and, BitVec.getLsbD_not, Packed.getLsbD_mask hmod]
    split <;> simp_all

theorem pageSet_setBit (h : index < 8 * n) (value : Bool) :
    (b.setBit index value).pageSet =
      if value then insert index b.pageSet else b.pageSet.erase index := by
  unfold setBit
  split
  · rename_i hsame
    cases value with
    | true => exact (Finset.insert_eq_of_mem (mem_pageSet.mpr hsame)).symm
    | false =>
      refine (Finset.erase_eq_of_notMem ?_).symm
      rw [mem_pageSet, hsame]
      exact Bool.false_ne_true
  · ext j
    rw [pageSet, Packed.mem_ones, bit_writeBit h]
    cases value with
    | true =>
      simp only [if_true, Finset.mem_insert, mem_pageSet, isSet_eq_bit]
      by_cases hj : index = j
      · simp [hj]
      · simp [hj, Ne.symm hj]
    | false =>
      simp only [Bool.false_eq_true, if_false, Finset.mem_erase, mem_pageSet, isSet_eq_bit]
      by_cases hj : index = j
      · simp [hj]
      · simp [hj, Ne.symm hj]

/-- The count follows every bit that changes. -/
theorem WellCounted.setBit (hb : b.WellCounted) (h : index < 8 * n) (value : Bool) :
    (b.setBit index value).WellCounted := by
  unfold WellCounted
  rw [pageSet_setBit h]
  unfold PageBitmap.setBit
  split
  · rename_i hsame
    cases value with
    | true =>
      rw [if_pos rfl, Finset.insert_eq_of_mem (mem_pageSet.mpr hsame)]
      exact hb
    | false =>
      have hnot : index ∉ b.pageSet := by
        rw [mem_pageSet, hsame]
        exact Bool.false_ne_true
      rw [if_neg Bool.false_ne_true, Finset.erase_eq_of_notMem hnot]
      exact hb
  · rename_i hdiff
    cases value with
    | true =>
      have hnot : index ∉ b.pageSet := by rwa [mem_pageSet]
      show b.setPages + 1 = _
      rw [if_pos rfl, Finset.card_insert_of_notMem hnot, hb]
    | false =>
      have hmem : index ∈ b.pageSet := by
        rw [mem_pageSet]
        exact Bool.eq_true_of_not_eq_false hdiff
      show b.setPages - 1 = _
      rw [if_neg Bool.false_ne_true, Finset.card_erase_of_mem hmem, hb]

theorem wellCounted_zeroed : (zeroed : PageBitmap n).WellCounted := by
  show 0 = _
  rw [pageSet, zeroed, Packed.ones_replicate]
  rfl

theorem pageSet_zeroed : (zeroed : PageBitmap n).pageSet = ∅ := Packed.ones_replicate

theorem WellCounted.setEach (hb : b.WellCounted) {pages : List Nat}
    (h : ∀ page ∈ pages, page < 8 * n) (value : Bool) : (b.setEach pages value).WellCounted := by
  induction pages generalizing b with
  | nil => exact hb
  | cons page rest ih =>
    obtain ⟨hpage, hrest⟩ := List.forall_mem_cons.mp h
    exact ih (hb.setBit hpage value) hrest

theorem pageSet_setEach_true {pages : List Nat} (h : ∀ page ∈ pages, page < 8 * n) :
    (b.setEach pages true).pageSet = b.pageSet ∪ pages.toFinset := by
  induction pages generalizing b with
  | nil => simp [setEach]
  | cons page rest ih =>
    obtain ⟨hpage, hrest⟩ := List.forall_mem_cons.mp h
    show ((b.setBit page true).setEach rest true).pageSet = _
    rw [ih hrest, pageSet_setBit hpage, if_pos rfl, List.toFinset_cons, Finset.insert_union,
      Finset.union_insert]

theorem pageSet_setEach_false {pages : List Nat} (h : ∀ page ∈ pages, page < 8 * n) :
    (b.setEach pages false).pageSet = b.pageSet \ pages.toFinset := by
  induction pages generalizing b with
  | nil => simp [setEach]
  | cons page rest ih =>
    obtain ⟨hpage, hrest⟩ := List.forall_mem_cons.mp h
    show ((b.setBit page false).setEach rest false).pageSet = _
    rw [ih hrest, pageSet_setBit hpage, if_neg Bool.false_ne_true, List.toFinset_cons,
      Finset.sdiff_insert, Finset.erase_sdiff_comm]

/-- A bitmap with the right count is determined by its pages. -/
theorem eq_of_pageSet_eq {a b : PageBitmap n} (ha : a.WellCounted) (hb : b.WellCounted)
    (h : a.pageSet = b.pageSet) : a = b := by
  apply PageBitmap.ext
  · exact Packed.eq_of_ones_eq h
  · rw [ha, hb, h]

end PageBitmap

/-! ## The allocator -/

namespace PageAllocator

/-- `BITMAP_BYTES * 8` -/
def bitmapPages (n : Nat) : Nat := wrappingMul n 8

/-- The first address without a bit. -/
def apertureEnd (n : Nat) : Nat := wrappingMul (bitmapPages n) pageSize

/-- The bit of the page that holds an address. -/
def bitmapIndex (n address : Nat) : Except AllocatorError Nat :=
  let page := address / pageSize
  if page ≥ bitmapPages n then .error .physicalAddressOutOfRange else .ok page

/-- The state of a page, by its address. -/
def state (a : PageAllocator n) (page : Nat) : Except AllocatorError PageState :=
  if !isPageAligned page then .error .unalignedPage
  else match bitmapIndex n page with
    | .error e => .error e
    | .ok index =>
        if !a.managed.isSet index then .ok .reserved
        else if a.inUse.isSet index then .ok .inUse
        else .ok .unused

/-- `self.managed.is_set(index) && !self.in_use.is_set(index)` -/
def isUnused (a : PageAllocator n) (index : Nat) : Bool :=
  a.managed.isSet index && !a.inUse.isSet index

/-- The differences are the source's unchecked ones. -/
def stats (a : PageAllocator n) : AllocatorStats where
  ramPages := a.ramPages
  reservedPages := wrappingSub a.ramPages a.managed.pages
  inUsePages := a.inUse.pages
  unusedPages := wrappingSub a.managed.pages a.inUse.pages

/-- `self.in_use.set_bit(index, value)` -/
def setInUse (a : PageAllocator n) (index : Nat) (value : Bool) : PageAllocator n :=
  { a with inUse := a.inUse.setBit index value }

/-- Allocate the highest-addressed currently unused managed page. -/
def allocateHigh : EStateM AllocatorError (PageAllocator n) Nat := do
  let a ← get
  match (List.range (bitmapPages n)).reverse.find? a.isUnused with
  | some index => do
      set (a.setInUse index true)
      pure (wrappingMul index pageSize)
  | none => throw .exhausted

/-- The scan of `allocate_contiguous` over the remaining indices, with the start and the length of
the run that ends here. It returns the start of the first run of the requested length. -/
def findRun (unused : Nat → Bool) (pages : Nat) : List Nat → Nat → Nat → Option Nat
  | [], _, _ => none
  | index :: rest, runStart, runLen =>
      if unused index then
        let runStart := if runLen = 0 then index else runStart
        if runLen + 1 = pages then some runStart
        else findRun unused pages rest runStart (runLen + 1)
      else findRun unused pages rest runStart 0

/-- The first run of unused pages that is long enough. -/
def allocateContiguous (pages : Nat) : EStateM AllocatorError (PageAllocator n) Nat := do
  (if pages = 0 then throw .exhausted else pure ())
  let a ← get
  match findRun a.isUnused pages (List.range (bitmapPages n)) 0 0 with
  | some runStart => do
      set { a with inUse := a.inUse.setEach (List.range' runStart pages) true }
      pure (wrappingMul runStart pageSize)
  | none => throw .exhausted

/-- The lowest unused page. -/
def allocate : EStateM AllocatorError (PageAllocator n) Nat := allocateContiguous 1

/-- `while page < end` -/
def allocateInLoop (stop : Nat) : Nat → Nat → EStateM AllocatorError (PageAllocator n) Nat
  | 0, _ => throw .exhausted
  | fuel + 1, page =>
      if page < stop then do
        let a ← get
        let pageState ← lift (a.state page)
        if pageState = .unused then do
          let index ← lift (bitmapIndex n page)
          set (a.setInUse index true)
          pure page
        else do
          let next ← orThrow .addressOverflow (checkedAdd page pageSize)
          allocateInLoop stop fuel next
      else throw .exhausted

/-- The lowest unused page that the region covers. -/
def allocateIn (requested : PhysRegion) : EStateM AllocatorError (PageAllocator n) Nat := do
  let start ← orThrow .addressOverflow (alignUp requested.start pageSize)
  let stop ← orThrow .addressOverflow (alignDown requested.endAddr pageSize)
  let stop := min stop (apertureEnd n)
  allocateInLoop stop (stop - start) start

/-- Only a page in use can be freed. -/
def free (page : Nat) : EStateM AllocatorError (PageAllocator n) Unit := do
  let a ← get
  let pageState ← lift (a.state page)
  match pageState with
  | .reserved => throw .reservedPage
  | .unused => throw .doubleFree
  | .inUse => do
      let index ← lift (bitmapIndex n page)
      set (a.setInUse index false)

/-- `while page < end { body; page = page.checked_add(PAGE_SIZE)?; }` with an accumulator. -/
def eachPage {α : Type} (stop : Nat) (body : Nat → α → EStateM AllocatorError (PageAllocator n) α) :
    Nat → Nat → α → EStateM AllocatorError (PageAllocator n) α
  | 0, _, acc => pure acc
  | fuel + 1, page, acc =>
      if page < stop then do
        let acc ← body page acc
        let next ← orThrow .addressOverflow (checkedAdd page pageSize)
        eachPage stop body fuel next acc
      else pure acc

/-- The loop body of `release`, which counts the pages it has changed. -/
def releasePage (page released : Nat) : EStateM AllocatorError (PageAllocator n) Nat := do
  let index ← lift (bitmapIndex n page)
  let a ← get
  if a.managed.isSet index && a.inUse.isSet index then do
    set (a.setInUse index false)
    pure (released + 1)
  else pure released

/-- Change managed pages fully covered by `region` to Unused. -/
def release (region : PhysRegion) : EStateM AllocatorError (PageAllocator n) Nat := do
  let start ← orThrow .addressOverflow (alignUp region.start pageSize)
  let stop ← orThrow .addressOverflow (alignDown region.endAddr pageSize)
  let stop := min stop (apertureEnd n)
  eachPage stop releasePage (stop - start) start 0

/-- The loop body of `mark_managed`. -/
def markPage (page : Nat) (_ : Unit) : EStateM AllocatorError (PageAllocator n) Unit := do
  let index ← lift (bitmapIndex n page)
  modify fun a => { a with managed := a.managed.setBit index true }

/-- All pages that the region covers become managed. -/
def markManaged (region : PhysRegion) : EStateM AllocatorError (PageAllocator n) Unit := do
  let start ← orThrow .addressOverflow (alignUp region.start pageSize)
  let stop ← orThrow .addressOverflow (alignDown region.endAddr pageSize)
  (if stop > apertureEnd n then throw .physicalAddressOutOfRange else pure ())
  eachPage stop markPage (stop - start) start ()

/-- Nothing can be allocated until it is released. -/
def markAllManagedInUse (a : PageAllocator n) : PageAllocator n :=
  { a with
    inUse := (List.range (bitmapPages n)).foldl
      (fun inUse index => if a.managed.isSet index then inUse.setBit index true else inUse)
      a.inUse }

/-- `BITMAP_BYTES` is not zero. -/
def validateBitmaps (n : Nat) : Except AllocatorError Unit :=
  if n = 0 then .error .physicalAddressOutOfRange else .ok ()

/-- The subtraction is the unchecked one of the source. -/
def countPages : List PhysRegion → Nat → Except AllocatorError Nat
  | [], pages => .ok pages
  | region :: rest, pages =>
      match alignUp region.start pageSize, alignDown region.endAddr pageSize with
      | some start, some stop =>
          if stop > maxPhysicalAddress then .error .physicalAddressOutOfRange
          else match checkedAdd pages (wrappingSub stop start / pageSize) with
            | some pages => countPages rest pages
            | none => .error .addressOverflow
      | _, _ => .error .addressOverflow

/-- The allocator under construction: the caller's two bitmaps, and the count once it is known. -/
def new {r m u : Nat} (ram : FixedList PhysRegion r) (allocatable : FixedList PhysRegion m)
    (initiallyUnused : FixedList PhysRegion u) : EStateM AllocatorError (PageAllocator n) Unit := do
  lift (validateBitmaps n)
  modify fun a => { a with managed := a.managed.clear, inUse := a.inUse.clear }
  let ramPages ← lift (countPages ram.entries 0)
  modify fun a => { a with ramPages := ramPages }
  allocatable.entries.forM markManaged
  modify markAllManagedInUse
  initiallyUnused.entries.forM fun region => do
    let _ ← release region
    pure ()

/-- `PageAllocator::from_existing`, on the bitmaps and the count it is given. -/
def fromExisting (a : PageAllocator n) : Except AllocatorError (PageAllocator n) :=
  match validateBitmaps n with
  | .error e => .error e
  | .ok () =>
      if a.ramPages > bitmapPages n ∨ a.managed.pages > a.ramPages ∨
          a.inUse.pages > a.managed.pages then .error .addressOverflow
      else .ok a

end PageAllocator

end Tvisor
