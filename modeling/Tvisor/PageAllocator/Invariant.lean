/-
# Tvisor.PageAllocator.Invariant -- the allocator refines a ledger of pages

Above the bitmaps stands an abstract resource pool: a set of managed pages and the set of those in
use. `Coherent` says when an allocator represents a pool, and `Effect` says, once for all
operations, what a call can do to it: refuse and change nothing, take a run of unused pages, or give
pages back. Every sequence of calls is then a run of a `Resource.Ledger`, whose invariants hold by
construction.
-/
import Tvisor.PageAllocator.Operations
import Tvisor.Lib.Pool

namespace Tvisor.PageAllocator

open SystemInfo Fallible Page Words PageBitmap

variable {n : Nat} {a : PageAllocator n}

/-! ## Coherent allocators -/

/-- The allocator represents a pool of pages of the aperture, and both counts are right. -/
structure Coherent (a : PageAllocator n) : Prop where
  managed_counted : a.managed.WellCounted
  inUse_counted : a.inUse.WellCounted
  inUse_subset : a.inUse.pageSet ⊆ a.managed.pageSet
  managed_aperture : ∀ i ∈ a.managed.pageSet, i < apertureEnd n / 4096

/-- The pool behind the bitmaps. -/
def Coherent.pool {a : PageAllocator n} (h : a.Coherent) : Resource.Pool Nat :=
  ⟨a.managed.pageSet, a.inUse.pageSet, h.inUse_subset⟩

/-- `in_use` after a run of pages has been handed out. -/
def takeRun (a : PageAllocator n) (first count : Nat) : PageAllocator n :=
  { a with inUse := a.inUse.setEach (List.range' first count) true }

/-- `in_use` after pages have been given back. -/
def givePages (a : PageAllocator n) (pages : List Nat) : PageAllocator n :=
  { a with inUse := a.inUse.setEach pages false }

theorem pageSet_lt (h : a.Coherent) {i : Nat} (hi : i ∈ a.managed.pageSet) :
    i < bitmapPages n ∧ 4096 * i < wordBound := by
  have hap := h.managed_aperture i hi
  have := apertureEnd_lt n
  exact ⟨lt_bitmapPages hap, by omega⟩

theorem run_managed {first count : Nat} (hrun : IsRun a.isUnused count first) :
    ∀ i ∈ List.range' first count, i ∈ a.managed.pageSet ∧ i ∉ a.inUse.pageSet := by
  intro i hi
  obtain ⟨h1, h2⟩ := List.mem_range'_1.mp hi
  exact isUnused_iff.mp (hrun i h1 h2)

theorem inUse_takeRun {first count : Nat} (hrun : IsRun a.isUnused count first) :
    (a.takeRun first count).inUse.pageSet = a.inUse.pageSet ∪ Finset.Ico first (first + count) := by
  show (a.inUse.setEach _ true).pageSet = _
  rw [pageSet_setEach_true]
  · congr 1
    ext i
    simp [List.mem_range'_1]
  · intro i hi
    exact lt_of_isSet (mem_pageSet.mp (run_managed hrun i hi).1)

theorem Coherent.takeRun (h : a.Coherent) {first count : Nat}
    (hrun : IsRun a.isUnused count first) : (a.takeRun first count).Coherent where
  managed_counted := h.managed_counted
  inUse_counted := by
    apply h.inUse_counted.setEach
    intro i hi
    exact lt_of_isSet (mem_pageSet.mp (run_managed hrun i hi).1)
  inUse_subset := by
    rw [inUse_takeRun hrun]
    apply Finset.union_subset h.inUse_subset
    intro i hi
    obtain ⟨h1, h2⟩ := Finset.mem_Ico.mp hi
    exact (isUnused_iff.mp (hrun i h1 h2)).1
  managed_aperture := h.managed_aperture

theorem inUse_givePages {pages : List Nat} (hpages : ∀ i ∈ pages, i ∈ a.inUse.pageSet) :
    (a.givePages pages).inUse.pageSet = a.inUse.pageSet \ pages.toFinset := by
  apply pageSet_setEach_false
  intro i hi
  exact lt_of_isSet (mem_pageSet.mp (hpages i hi))

theorem Coherent.givePages (h : a.Coherent) {pages : List Nat}
    (hpages : ∀ i ∈ pages, i ∈ a.inUse.pageSet) : (a.givePages pages).Coherent where
  managed_counted := h.managed_counted
  inUse_counted := by
    apply h.inUse_counted.setEach
    intro i hi
    exact lt_of_isSet (mem_pageSet.mp (hpages i hi))
  inUse_subset := by
    rw [inUse_givePages hpages]
    exact Finset.sdiff_subset.trans h.inUse_subset
  managed_aperture := h.managed_aperture

/-! ## Construction -/

/-- The loop of `new` over the allocatable regions. -/
theorem markEach_ok {regions : List PhysRegion} {a a' : PageAllocator n}
    (hrun : (regions.forM markManaged).run a = .ok () a') (hcount : a.managed.WellCounted)
    (hap : ∀ i ∈ a.managed.pageSet, i < apertureEnd n / 4096) :
    a'.inUse = a.inUse ∧ a'.ramPages = a.ramPages ∧ a'.managed.WellCounted ∧
      (∀ i ∈ a'.managed.pageSet, i < apertureEnd n / 4096) ∧
      ∀ i, i ∈ a'.managed.pageSet ↔ i ∈ a.managed.pageSet ∨ ∃ r ∈ regions, Covers r i := by
  induction regions generalizing a with
  | nil =>
    rw [run_forM_nil] at hrun
    cases hrun
    exact ⟨rfl, rfl, hcount, hap, by simp⟩
  | cons r rest ih =>
    obtain ⟨t, hstep, hrest⟩ := run_forM_cons_eq_ok.mp hrun
    rcases markManaged_cases a r with ⟨pages, hpages, hin, hmark⟩ | ⟨e, -, hmark⟩
    · rw [hmark] at hstep
      cases hstep
      have hlt : ∀ i ∈ pages, i < 8 * n := by
        intro i hi
        exact lt_of_lt_of_le (lt_bitmapPages (hin i hi)) (bitmapPages_le n)
      have hset : (a.managed.setEach pages true).pageSet = a.managed.pageSet ∪ pages.toFinset :=
        pageSet_setEach_true hlt
      have hap' : ∀ i ∈ (a.managed.setEach pages true).pageSet, i < apertureEnd n / 4096 := by
        intro i hi
        rw [hset, Finset.mem_union, List.mem_toFinset] at hi
        rcases hi with hi | hi
        · exact hap i hi
        · exact hin i hi
      obtain ⟨h1, h2, h3, h4, h5⟩ := ih hrest (hcount.setEach hlt true) hap'
      refine ⟨h1, h2, h3, h4, ?_⟩
      intro i
      rw [h5 i]
      show i ∈ (a.managed.setEach pages true).pageSet ∨ _ ↔ _
      rw [hset, Finset.mem_union, List.mem_toFinset, hpages, List.exists_mem_cons_iff, or_assoc]
    · rw [hmark] at hstep
      cases hstep

/-- After the second step of `new` every managed page is in use. -/
theorem markAll_spec (hin : a.inUse = zeroed) (hcount : a.managed.WellCounted)
    (hap : ∀ i ∈ a.managed.pageSet, i < apertureEnd n / 4096) :
    a.markAllManagedInUse.Coherent ∧ a.markAllManagedInUse.managed = a.managed ∧
      a.markAllManagedInUse.inUse.pageSet = a.managed.pageSet := by
  rw [markAllManagedInUse_eq]
  have hlt : ∀ i ∈ (List.range (bitmapPages n)).filter a.managed.isSet, i < 8 * n := by
    intro i hi
    exact lt_of_lt_of_le (List.mem_range.mp (List.mem_filter.mp hi).1) (bitmapPages_le n)
  have hset : (a.inUse.setEach ((List.range (bitmapPages n)).filter a.managed.isSet) true).pageSet
      = a.managed.pageSet := by
    rw [pageSet_setEach_true hlt, hin, pageSet_zeroed, Finset.empty_union]
    ext i
    rw [List.mem_toFinset, List.mem_filter, List.mem_range, mem_pageSet]
    constructor
    · exact And.right
    · intro hi
      exact ⟨lt_bitmapPages (hap i (mem_pageSet.mpr hi)), hi⟩
  refine ⟨⟨hcount, ?_, hset.subset, hap⟩, rfl, hset⟩
  apply WellCounted.setEach _ hlt
  rw [hin]
  exact wellCounted_zeroed

/-- The loop of `new` over the initially unused regions. -/
theorem releaseEach_ok {regions : List PhysRegion} {a a' : PageAllocator n} (h : a.Coherent)
    (hrun : (regions.forM fun region => do
      let _ ← release region
      pure () : EStateM AllocatorError (PageAllocator n) Unit).run a = .ok () a') :
    a'.Coherent ∧ a'.managed = a.managed ∧ a'.ramPages = a.ramPages ∧
      ∀ i, i ∈ a'.inUse.pageSet ↔ i ∈ a.inUse.pageSet ∧ ∀ r ∈ regions, ¬ Covers r i := by
  induction regions generalizing a with
  | nil =>
    rw [run_forM_nil] at hrun
    cases hrun
    exact ⟨h, rfl, rfl, by simp⟩
  | cons r rest ih =>
    obtain ⟨t, hstep, hrest⟩ := run_forM_cons_eq_ok.mp hrun
    obtain ⟨count, t', hrelease, hpure⟩ := run_bind_eq_ok.mp hstep
    cases hpure
    rcases release_cases a r with ⟨pages, -, hpages, hrel⟩ | ⟨-, hrel⟩
    · rw [hrel] at hrelease
      cases hrelease
      have hin : ∀ i ∈ pages, i ∈ a.inUse.pageSet := by
        intro i hi
        exact mem_pageSet.mpr ((hpages i).mp hi).2.2.2
      obtain ⟨h1, h2, h3, h4⟩ := ih (h.givePages hin) hrest
      refine ⟨h1, h2, h3, ?_⟩
      intro i
      rw [h4 i, inUse_givePages hin, Finset.mem_sdiff, List.mem_toFinset, hpages,
        List.forall_mem_cons]
      -- A page that is still in use is managed, hence inside the aperture.
      constructor
      · rintro ⟨⟨hi, hnot⟩, hothers⟩
        refine ⟨hi, ?_, hothers⟩
        intro hcov
        have hm := h.inUse_subset hi
        exact hnot ⟨hcov, h.managed_aperture i hm, mem_pageSet.mp hm,
          mem_pageSet.mp hi⟩
      · rintro ⟨hi, hcov, hothers⟩
        exact ⟨⟨hi, fun hp => hcov hp.1⟩, hothers⟩
    · rw [hrel] at hrelease
      cases hrelease

/-- What a successful `new` builds. -/
structure Built (ram allocatable initiallyUnused : List PhysRegion) (a : PageAllocator n) :
    Prop where
  coherent : a.Coherent
  ram_pages : countPages ram 0 = .ok a.ramPages
  managed_iff : ∀ i, i ∈ a.managed.pageSet ↔ ∃ r ∈ allocatable, Covers r i
  inUse_iff : ∀ i, i ∈ a.inUse.pageSet ↔
    i ∈ a.managed.pageSet ∧ ∀ r ∈ initiallyUnused, ¬ Covers r i

theorem new_ok {r m u : Nat} {ram : FixedList PhysRegion r} {allocatable : FixedList PhysRegion m}
    {initiallyUnused : FixedList PhysRegion u} {storage a : PageAllocator n}
    (hnew : (new ram allocatable initiallyUnused).run storage = .ok () a) :
    Built ram.entries allocatable.entries initiallyUnused.entries a := by
  unfold new at hnew
  obtain ⟨_, s0, -, hnew⟩ := run_bind_eq_ok.mp hnew
  obtain ⟨_, s1, hclear, hnew⟩ := run_bind_eq_ok.mp hnew
  obtain ⟨ramPages, s2, hcount, hnew⟩ := run_bind_eq_ok.mp hnew
  obtain ⟨_, s3, hset, hnew⟩ := run_bind_eq_ok.mp hnew
  obtain ⟨_, s4, hmark, hnew⟩ := run_bind_eq_ok.mp hnew
  obtain ⟨_, s5, hall, hrelease⟩ := run_bind_eq_ok.mp hnew
  rw [EStateM.run_modify] at hclear hset hall
  cases hclear
  cases hset
  cases hall
  obtain ⟨hpages, rfl⟩ := run_lift_eq_ok.mp hcount
  have hempty : ∀ i ∈ (zeroed : PageBitmap n).pageSet, i < apertureEnd n / 4096 := by
    rw [pageSet_zeroed]
    simp
  obtain ⟨h1, h2, h3, h4, h5⟩ := markEach_ok hmark wellCounted_zeroed hempty
  obtain ⟨hcoh, hman, hused⟩ := markAll_spec h1 h3 h4
  obtain ⟨hcoh', hman', hram', hused'⟩ := releaseEach_ok hcoh hrelease
  refine ⟨hcoh', ?_, ?_, ?_⟩
  · rw [hram', hpages, markAllManagedInUse_eq]
    exact congrArg Except.ok h2.symm
  · intro i
    rw [hman', hman, h5 i]
    show i ∈ (zeroed : PageBitmap n).pageSet ∨ _ ↔ _
    rw [pageSet_zeroed]
    simp
  · intro i
    rw [hused', hused, hman', hman]

/-- `new` succeeds on regions inside the aperture. -/
theorem new_succeeds {r m u : Nat} {ram : FixedList PhysRegion r}
    {allocatable : FixedList PhysRegion m} {initiallyUnused : FixedList PhysRegion u}
    (hn : n ≠ 0) {ramPages : Nat} (hram : countPages ram.entries 0 = .ok ramPages)
    (hallocatable : ∀ region ∈ allocatable.entries, region.start + 4095 < wordBound ∧
      4096 * (region.endAddr / 4096) ≤ apertureEnd n)
    (hunused : ∀ region ∈ initiallyUnused.entries, region.start + 4095 < wordBound)
    (storage : PageAllocator n) :
    ∃ a, (new ram allocatable initiallyUnused).run storage = .ok () a := by
  have hmark : ∀ region ∈ allocatable.entries, ∀ s : PageAllocator n,
      ∃ t, (markManaged region).run s = .ok () t := by
    intro region hregion s
    obtain ⟨hstart, hend⟩ := hallocatable region hregion
    rcases markManaged_cases s region with ⟨pages, -, -, hok⟩ | ⟨e, hbad, -⟩
    · exact ⟨_, hok⟩
    · exfalso
      omega
  have hrelease : ∀ region ∈ initiallyUnused.entries, ∀ s : PageAllocator n,
      ∃ t, (do
        let _ ← release region
        pure () : EStateM AllocatorError (PageAllocator n) Unit).run s = .ok () t := by
    intro region hregion s
    have hstart := hunused region hregion
    rcases release_cases s region with ⟨pages, -, -, hok⟩ | ⟨hbad, -⟩
    · exact ⟨_, run_bind_eq_ok.mpr ⟨_, _, hok, rfl⟩⟩
    · exfalso
      omega
  obtain ⟨t, ht⟩ := run_forM_ok hmark
    { storage with managed := .zeroed, inUse := .zeroed, ramPages := ramPages }
  obtain ⟨a, ha⟩ := run_forM_ok hrelease t.markAllManagedInUse
  refine ⟨a, run_bind_eq_ok.mpr ⟨(), storage, ?_, run_bind_eq_ok.mpr ⟨(), _, rfl,
    run_bind_eq_ok.mpr ⟨ramPages, _, run_lift_eq_ok.mpr ⟨hram, rfl⟩, run_bind_eq_ok.mpr ⟨(), _, rfl,
      run_bind_eq_ok.mpr ⟨(), t, ht, run_bind_eq_ok.mpr ⟨(), _, rfl, ha⟩⟩⟩⟩⟩⟩⟩
  exact run_lift_eq_ok.mpr ⟨if_neg hn, rfl⟩

/-! ## Calls and their effects -/

/-- The operations of the allocator after construction. -/
inductive Op where
  | allocate
  | allocateHigh
  | allocateContiguous (pages : Nat)
  | allocateIn (requested : PhysRegion)
  | free (page : Nat)
  | release (region : PhysRegion)

inductive Reply where
  | page (address : Nat)
  | freed
  | released (count : Nat)
  deriving DecidableEq, Repr

namespace Op

def run : Op → EStateM AllocatorError (PageAllocator n) Reply
  | .allocate => do
      let address ← PageAllocator.allocate
      pure (.page address)
  | .allocateHigh => do
      let address ← PageAllocator.allocateHigh
      pure (.page address)
  | .allocateContiguous pages => do
      let address ← PageAllocator.allocateContiguous pages
      pure (.page address)
  | .allocateIn requested => do
      let address ← PageAllocator.allocateIn requested
      pure (.page address)
  | .free page => do
      PageAllocator.free page
      pure .freed
  | .release region => do
      let count ← PageAllocator.release region
      pure (.released count)

/-- How many pages a successful call hands out. -/
def pages : Op → Nat
  | .allocate => 1
  | .allocateHigh => 1
  | .allocateContiguous pages => pages
  | .allocateIn _ => 1
  | .free _ => 0
  | .release _ => 0

/-- The pages a call names as returned, whatever their state. -/
def returned : Op → Finset Nat
  | .free page => {page / 4096}
  | .release region => Finset.Ico (firstPage region) (region.endAddr / 4096)
  | _ => ∅

/-- The reply a call gives when it puts `count` pages back. -/
def givenReply (count : Nat) : Op → Option Reply
  | .free _ => if count = 1 then some .freed else none
  | .release _ => some (.released count)
  | _ => none

/-- It is never an address. -/
theorem givenReply_cases {op : Op} {count : Nat} {reply : Reply}
    (h : op.givenReply count = some reply) : reply = .freed ∨ reply = .released count := by
  cases op with
  | free page =>
    simp only [givenReply] at h
    split at h <;> cases h
    exact .inl rfl
  | release region =>
    cases h
    exact .inr rfl
  | _ => cases h

end Op

/-- Everything a call can do to a coherent allocator. -/
inductive Effect (a : PageAllocator n) (op : Op) :
    EStateM.Result AllocatorError (PageAllocator n) Reply → Prop
  | refuse (e : AllocatorError) : Effect a op (.error e a)
  | take (first : Nat) (hpos : 0 < op.pages) (hrun : IsRun a.isUnused op.pages first) :
      Effect a op (.ok (.page (4096 * first)) (a.takeRun first op.pages))
  | give (pages : List Nat) (reply : Reply) (hreply : op.givenReply pages.length = some reply)
      (hnodup : pages.Nodup) (hpages : ∀ i, i ∈ pages ↔ i ∈ op.returned ∧ i ∈ a.inUse.pageSet) :
      Effect a op (.ok reply (a.givePages pages))

theorem isRun_one {index : Nat} (h : a.isUnused index = true) :
    IsRun a.isUnused 1 index := by
  intro i h1 h2
  have : i = index := by omega
  rw [this, h]

/-- The address of a managed page does not wrap. -/
theorem address_eq (h : a.Coherent) {index : Nat} (hun : a.isUnused index = true) :
    wrappingMul index pageSize = 4096 * index := by
  have hlt := (pageSet_lt h (isUnused_iff.mp hun).1).2
  show index * 4096 % wordBound = _
  rw [Nat.mul_comm, Nat.mod_eq_of_lt hlt]

theorem effect_contiguous (h : a.Coherent) {op : Op} (pages : Nat) (hop : op.pages = pages) :
    Effect a op ((do
      let address ← allocateContiguous pages
      pure (.page address) : EStateM AllocatorError (PageAllocator n) Reply).run a) := by
  subst hop
  rw [EStateM.run_bind]
  rcases allocateContiguous_cases a op.pages with ⟨first, hpos, -, hrun, -, hok⟩ | ⟨-, herr⟩
  · have hfirst := address_eq h (hrun first le_rfl (by omega))
    rw [hok, hfirst]
    exact .take first hpos hrun
  · rw [herr]
    exact .refuse _

theorem Op.effect (h : a.Coherent) (op : Op) :
    Effect a op (op.run.run a) := by
  cases op with
  | allocate => exact effect_contiguous h 1 rfl
  | allocateContiguous pages => exact effect_contiguous h pages rfl
  | allocateHigh =>
    rw [Op.run, EStateM.run_bind]
    rcases allocateHigh_cases a with ⟨index, -, hun, -, hok⟩ | ⟨-, herr⟩
    · rw [hok, address_eq h hun]
      exact .take index Nat.one_pos (isRun_one hun)
    · rw [herr]
      exact .refuse _
  | allocateIn requested =>
    rw [Op.run, EStateM.run_bind]
    rcases allocateIn_cases a requested with
      ⟨index, -, -, hun, -, hok⟩ | ⟨-, herr⟩ | ⟨-, herr⟩
    · rw [hok]
      exact .take index Nat.one_pos (isRun_one hun)
    · rw [herr]
      exact .refuse _
    · rw [herr]
      exact .refuse _
  | free page =>
    rw [Op.run, EStateM.run_bind]
    rcases free_cases a page with ⟨-, hstate, hok⟩ | ⟨e, -, herr⟩
    · rw [hok]
      refine .give [page / 4096] .freed rfl (List.nodup_singleton _) ?_
      intro i
      rw [List.mem_singleton, Op.returned, Finset.mem_singleton]
      constructor
      · rintro rfl
        exact ⟨rfl, mem_pageSet.mpr (stateAt_eq_inUse.mp hstate).2⟩
      · exact And.left
    · rw [herr]
      exact .refuse _
  | release region =>
    rw [Op.run, EStateM.run_bind]
    rcases release_cases a region with ⟨pages, hnodup, hpages, hok⟩ | ⟨-, herr⟩
    · rw [hok]
      refine .give pages _ rfl hnodup ?_
      intro i
      rw [hpages, Op.returned, Finset.mem_Ico, ← covers_iff]
      constructor
      · rintro ⟨hcov, -, -, hi⟩
        exact ⟨hcov, mem_pageSet.mpr hi⟩
      · rintro ⟨hcov, hi⟩
        have hm := h.inUse_subset hi
        exact ⟨hcov, h.managed_aperture i hm, mem_pageSet.mp hm,
          mem_pageSet.mp hi⟩
    · rw [herr]
      exact .refuse _

variable {res : EStateM.Result AllocatorError (PageAllocator n) Reply}

theorem Effect.coherent (h : a.Coherent) {op : Op} (he : Effect a op res) :
    (Fallible.state res).Coherent := by
  cases he with
  | refuse e => exact h
  | take first hpos hrun => exact h.takeRun hrun
  | give pages reply hreply hnodup hpages => exact h.givePages (fun i hi => ((hpages i).mp hi).2)

theorem Effect.managed_eq {op : Op} (he : Effect a op res) :
    (Fallible.state res).managed = a.managed ∧ (Fallible.state res).ramPages = a.ramPages := by
  cases he <;> exact ⟨rfl, rfl⟩

/-! ## Sessions -/

/-- An allocator and the allocations that are neither freed nor released yet. -/
structure Session (n : Nat) where
  allocator : PageAllocator n
  live : List (Finset Nat)

/-- One call. The record uses only the arguments and the reply: a returned address stands for the
run of pages that was asked for, and a page named by `free` or covered by `release` leaves every
allocation it was part of. -/
def Session.call (s : Session n) (op : Op) : Session n :=
  match op.run.run s.allocator with
  | .ok (.page address) a =>
      ⟨a, Finset.Ico (address / 4096) (address / 4096 + op.pages) :: s.live⟩
  | .ok _ a => ⟨a, s.live.map (· \ op.returned)⟩
  | .error _ a => ⟨a, s.live⟩

/-- Any sequence of calls on a freshly built allocator. -/
def session (a : PageAllocator n) (ops : List Op) : Session n := ops.foldl Session.call ⟨a, []⟩

/-- The session is described by a ledger. -/
def Session.Refines (s : Session n) (ledger : Resource.Ledger Nat) : Prop :=
  ∃ h : s.allocator.Coherent, h.pool = ledger.pool ∧ s.live = ledger.live

/-- One call is one step of the ledger, or none. -/
theorem Session.Refines.call {s : Session n} {ledger : Resource.Ledger Nat} (h : s.Refines ledger)
    (op : Op) :
    (s.call op).Refines ledger ∨
    (∃ r hr, (s.call op).Refines (ledger.take r hr)) ∨
    (s.call op).Refines (ledger.give op.returned) := by
  obtain ⟨hcoh, hpool, hlive⟩ := h
  have heffect := op.effect hcoh
  unfold Session.call
  cases hres : op.run.run s.allocator with
  | error e a =>
    rw [hres] at heffect
    cases heffect
    exact .inl ⟨hcoh, hpool, hlive⟩
  | ok reply a =>
    rw [hres] at heffect
    cases heffect with
    | take first hpos hrun =>
      have hsub : Finset.Ico first (first + op.pages) ⊆ ledger.pool.unused := by
        rw [← hpool]
        intro i hi
        obtain ⟨h1, h2⟩ := Finset.mem_Ico.mp hi
        exact Finset.mem_sdiff.mpr (isUnused_iff.mp (hrun i h1 h2))
      have hdiv : 4096 * first / 4096 = first := Nat.mul_div_cancel_left first (by decide)
      refine .inr (.inl ⟨_, hsub, hcoh.takeRun hrun, ?_, ?_⟩)
      · apply Resource.Pool.ext
        · exact congrArg (fun p => p.managed) hpool
        · show (s.allocator.takeRun first op.pages).inUse.pageSet = _
          rw [inUse_takeRun hrun]
          exact congrArg (fun p => Resource.Pool.used p ∪ _) hpool
      · show _ :: s.live = _ :: ledger.live
        rw [hdiv, hlive]
    | give pages reply hreply hnodup hpages =>
      have hin : ∀ i ∈ pages, i ∈ s.allocator.inUse.pageSet :=
        fun i hi => ((hpages i).mp hi).2
      have hpool' : (hcoh.givePages hin).pool = (ledger.give op.returned).pool := by
        apply Resource.Pool.ext
        · exact congrArg (fun p => p.managed) hpool
        · show (s.allocator.givePages pages).inUse.pageSet = ledger.pool.used \ op.returned
          rw [inUse_givePages hin, ← hpool]
          ext i
          rw [Finset.mem_sdiff, List.mem_toFinset, hpages]
          show _ ↔ i ∈ s.allocator.inUse.pageSet \ op.returned
          rw [Finset.mem_sdiff]
          tauto
      rcases Op.givenReply_cases hreply with rfl | rfl
      all_goals exact .inr (.inr ⟨hcoh.givePages hin, hpool', congrArg (List.map _) hlive⟩)

theorem session_refines (h : a.Coherent) (ops : List Op) :
    ∃ ledger, (session a ops).Refines ledger := by
  unfold session
  refine foldl_invariant Session.call (fun s => ∃ ledger, s.Refines ledger) ?_ ops
    ⟨Resource.Ledger.start h.pool, h, rfl, rfl⟩
  rintro s op ⟨ledger, href⟩
  rcases href.call op with hsame | ⟨r, hr, htake⟩ | hgive
  · exact ⟨ledger, hsame⟩
  · exact ⟨_, htake⟩
  · exact ⟨_, hgive⟩

theorem Session.call_allocator (s : Session n) (op : Op) :
    (s.call op).allocator = Fallible.state (op.run.run s.allocator) := by
  unfold Session.call
  split <;> rename_i heq <;> rw [heq] <;> rfl

/-- What is managed is fixed at construction. -/
theorem session_managed (h : a.Coherent) (ops : List Op) :
    (session a ops).allocator.Coherent ∧ (session a ops).allocator.managed = a.managed ∧
      (session a ops).allocator.ramPages = a.ramPages := by
  unfold session
  refine foldl_invariant Session.call
    (fun s => s.allocator.Coherent ∧ s.allocator.managed = a.managed ∧
      s.allocator.ramPages = a.ramPages) ?_ ops ⟨h, rfl, rfl⟩
  rintro s op ⟨hcoh, hman, hram⟩
  have heffect := op.effect hcoh
  rw [Session.call_allocator]
  exact ⟨heffect.coherent hcoh, heffect.managed_eq.1.trans hman, heffect.managed_eq.2.trans hram⟩

/-! ## The invariant of every reachable allocator -/

/-- What holds between any two calls, over the allocator `new` built. -/
structure Sound (built : PageAllocator n) (s : Session n) : Prop where
  managed_count : s.allocator.managed.setPages = s.allocator.managed.pageSet.card
  inUse_count : s.allocator.inUse.setPages = s.allocator.inUse.pageSet.card
  managed_same : s.allocator.managed = built.managed
  inUse_subset : s.allocator.inUse.pageSet ⊆ s.allocator.managed.pageSet
  stats_exact : s.allocator.stats.unusedPages + s.allocator.inUse.pages =
    s.allocator.managed.pages
  live_disjoint : s.live.Pairwise Disjoint
  live_inUse : ∀ pages ∈ s.live, ∀ i ∈ pages, s.allocator.state (4096 * i) = .ok .inUse

/-- What one call does, read off page states alone. -/
structure CallSound (a : PageAllocator n) (op : Op) : Prop where
  allocated : ∀ address a', op.run.run a = .ok (.page address) a' →
    ∀ i < op.pages, a.state (address + 4096 * i) = .ok .unused ∧
      a'.state (address + 4096 * i) = .ok .inUse
  released : ∀ count a', op.run.run a = .ok (.released count) a' →
    count = ((Finset.range (bitmapPages n)).filter fun i =>
      a.state (4096 * i) = .ok .inUse ∧ a'.state (4096 * i) = .ok .unused).card
  failed : ∀ e a', op.run.run a = .error e a' → a' = a

theorem Coherent.state_inUse (h : a.Coherent) {i : Nat} (hi : i ∈ a.inUse.pageSet) :
    a.state (4096 * i) = .ok .inUse := by
  have hm := h.inUse_subset hi
  rw [state_page a (pageSet_lt h hm).1]
  exact congrArg Except.ok (stateAt_eq_inUse.mpr
    ⟨mem_pageSet.mp hm, mem_pageSet.mp hi⟩)

theorem Coherent.state_unused (h : a.Coherent) {i : Nat} (hi : a.isUnused i = true) :
    a.state (4096 * i) = .ok .unused := by
  rw [state_page a (pageSet_lt h (isUnused_iff.mp hi).1).1]
  exact congrArg Except.ok (stateAt_eq_unused.mpr hi)

theorem Coherent.inUse_le (h : a.Coherent) :
    a.inUse.pages ≤ a.managed.pages := by
  show a.inUse.setPages ≤ a.managed.setPages
  rw [h.managed_counted, h.inUse_counted]
  exact Finset.card_le_card h.inUse_subset

/-- The subtraction in `stats` never goes below zero. -/
theorem Coherent.stats_exact (h : a.Coherent) :
    a.stats.unusedPages + a.inUse.pages = a.managed.pages := by
  have hle : a.inUse.setPages ≤ a.managed.setPages := h.inUse_le
  show wrappingSub a.managed.setPages a.inUse.setPages + a.inUse.setPages = a.managed.setPages
  rw [wrappingSub_of_le hle, Nat.sub_add_cancel hle]

theorem Coherent.callSound (h : a.Coherent) (op : Op) : CallSound a op := by
  have heffect := op.effect h
  constructor
  · intro address a' hres i hi
    rw [hres] at heffect
    cases heffect with
    | take first hpos hrun =>
      have haddr : 4096 * first + 4096 * i = 4096 * (first + i) := by omega
      rw [haddr]
      refine ⟨h.state_unused (hrun _ (by omega) (by omega)), ?_⟩
      apply (h.takeRun hrun).state_inUse
      rw [inUse_takeRun hrun]
      exact Finset.mem_union_right _ (Finset.mem_Ico.mpr (by omega))
    | give pages reply hreply => rcases Op.givenReply_cases hreply with h | h <;> cases h
  · intro count a' hres
    rw [hres] at heffect
    cases heffect with
    | give pages reply hreply hnodup hpages =>
      cases (Op.givenReply_cases hreply).resolve_left nofun
      rw [← List.toFinset_card_of_nodup hnodup]
      congr 1
      have hin : ∀ i ∈ pages, i ∈ a.inUse.pageSet := fun i hi => ((hpages i).mp hi).2
      ext i
      rw [List.mem_toFinset, Finset.mem_filter, Finset.mem_range]
      constructor
      · intro hi
        have hm := h.inUse_subset (hin i hi)
        have hlt := (pageSet_lt h hm).1
        refine ⟨hlt, h.state_inUse (hin i hi), ?_⟩
        apply (h.givePages hin).state_unused
        apply isUnused_iff.mpr
        refine ⟨hm, ?_⟩
        rw [inUse_givePages hin, Finset.mem_sdiff, List.mem_toFinset]
        exact fun hnot => hnot.2 hi
      · rintro ⟨hlt, hbefore, hafter⟩
        rw [state_page _ hlt] at hbefore hafter
        have hused := (stateAt_eq_inUse.mp (Except.ok.inj hbefore)).2
        have hgone := (isUnused_iff.mp (stateAt_eq_unused.mp (Except.ok.inj hafter))).2
        rw [inUse_givePages hin, Finset.mem_sdiff, List.mem_toFinset] at hgone
        by_contra hi
        exact hgone ⟨mem_pageSet.mpr hused, hi⟩
  · intro e a' hres
    rw [hres] at heffect
    cases heffect
    rfl

/-- For every bitmap size and every successful construction, the allocator is sound after any
sequence of calls, and so is every further call. -/
theorem allocator_sound {r m u : Nat} {ram : FixedList PhysRegion r}
    {allocatable : FixedList PhysRegion m} {initiallyUnused : FixedList PhysRegion u}
    {storage built : PageAllocator n}
    (hnew : (new ram allocatable initiallyUnused).run storage = .ok () built) (ops : List Op) :
    Sound built (session built ops) ∧ ∀ op, CallSound (session built ops).allocator op := by
  have hbuilt := (new_ok hnew).coherent
  obtain ⟨hcoh, hman, -⟩ := session_managed hbuilt ops
  obtain ⟨ledger, hcoh', hpool, hlive⟩ := session_refines hbuilt ops
  refine ⟨⟨hcoh.managed_counted, hcoh.inUse_counted, hman, hcoh.inUse_subset, hcoh.stats_exact,
    ?_, ?_⟩, fun op => hcoh.callSound op⟩
  · rw [hlive]
    exact ledger.disjoint
  · intro pages hpages i hi
    rw [hlive] at hpages
    apply hcoh.state_inUse
    have hused := ledger.live_used pages hpages hi
    rw [← hpool] at hused
    exact hused

/-- One region, as a list of capacity one. -/
def oneRegion (start stop : Nat) (h : start < stop) (hstop : stop < wordBound) :
    FixedList PhysRegion 1 := ⟨[.ofBounds start stop h hstop], le_rfl⟩

def lowPages : PhysRegion := .ofBounds 0 0x8000 (by decide) (by decide)

/-- An aperture of eight pages. The allocatable region begins in the middle of page 0, so seven
pages are managed, and page 7 stays in use. -/
def eightPages : EStateM.Result AllocatorError (PageAllocator 1) Unit :=
  (new (oneRegion 0 0x8000 (by decide) (by decide))
    (oneRegion 0x800 0x8000 (by decide) (by decide))
    (oneRegion 0x1000 0x7000 (by decide) (by decide))).run ⟨.zeroed, .zeroed, 0⟩

theorem allocator_sound_eightPages :
    eightPages = .ok () (Fallible.state eightPages) ∧
      Sound (Fallible.state eightPages)
        (session (Fallible.state eightPages) [.allocateContiguous 3, .free 0x2000]) := by
  have hnew : eightPages = .ok () (Fallible.state eightPages) :=
    eq_ok_of_isOk (by decide +kernel)
  exact ⟨hnew, (allocator_sound hnew _).1⟩

end Tvisor.PageAllocator
