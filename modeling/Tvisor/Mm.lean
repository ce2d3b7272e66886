/-
# Tvisor.Mm -- the global page allocator

The part of `src/mm.rs` that hands the physical page allocator to the rest of tvisor. Every call
takes the lock, asks for initialisation, and rebuilds the allocator from the two static bitmaps with
`from_existing`, which refuses bitmaps whose counts do not fit together. The static bitmaps cover
the 4 GiB aperture, so page addresses stay far below any wrap.
-/
import Tvisor.PageAllocator.Invariant

namespace Tvisor.Mm

open Fallible Page Words PageAllocator

/-- `PAGE_ALLOCATOR`: the bitmaps with the RAM page count, and whether they are set up. -/
structure GlobalPageAllocator where
  allocator : PageAllocator pageBitmapBytes
  initialized : Bool

def withAllocator {α : Type}
    (operation : EStateM AllocatorError (PageAllocator pageBitmapBytes) α) :
    EStateM AllocatorError GlobalPageAllocator α := do
  let g ← get
  (if !g.initialized then throw .notInitialized else pure ())
  let _ ← lift (fromExisting g.allocator)
  zoom GlobalPageAllocator.allocator (fun g a => { g with allocator := a }) operation

def allocatePage : EStateM AllocatorError GlobalPageAllocator Nat := withAllocator allocate

def allocateContiguousPages (pages : Nat) : EStateM AllocatorError GlobalPageAllocator Nat :=
  withAllocator (allocateContiguous pages)

def freePage (page : Nat) : EStateM AllocatorError GlobalPageAllocator Unit :=
  withAllocator (free page)

/-! ## What the calls do -/

/-- The checks before an operation pass. -/
def Ready (g : GlobalPageAllocator) : Prop :=
  g.initialized = true ∧ fromExisting g.allocator = .ok g.allocator

theorem fromExisting_cases {n : Nat} (a : PageAllocator n) :
    fromExisting a = .ok a ∨ ∃ e, fromExisting a = .error e := by
  unfold fromExisting
  rcases validateBitmaps n with e | u
  · exact .inr ⟨e, rfl⟩
  · dsimp only
    split
    · exact .inr ⟨_, rfl⟩
    · exact .inl rfl

/-- On coherent bitmaps the check looks only at what never changes, so its answer never does. -/
theorem Ready.of_managed {g g' : GlobalPageAllocator} (h : Ready g)
    (hcoherent : g'.allocator.Coherent) (hinitialized : g'.initialized = g.initialized)
    (hmanaged : g'.allocator.managed = g.allocator.managed)
    (hram : g'.allocator.ramPages = g.allocator.ramPages) : Ready g' := by
  refine ⟨hinitialized.trans h.1, ?_⟩
  have hok := h.2
  have hle := hcoherent.inUse_le
  unfold fromExisting at hok ⊢
  rw [hram, hmanaged]
  rcases hbitmaps : validateBitmaps pageBitmapBytes with e | u
  · rw [hbitmaps] at hok
    cases hok
  · rw [hbitmaps] at hok
    dsimp only at hok ⊢
    rw [hmanaged] at hle
    split at hok
    · cases hok
    · rename_i hgood
      rw [if_neg]
      rintro (hbig | hbig | hbig)
      · exact hgood (.inl hbig)
      · exact hgood (.inr (.inl hbig))
      · exact absurd hle (not_le.mpr hbig)

theorem withAllocator_cases {α : Type} (g : GlobalPageAllocator)
    (operation : EStateM AllocatorError (PageAllocator pageBitmapBytes) α) :
    (Ready g ∧ (withAllocator operation).run g =
      match operation.run g.allocator with
      | .ok r a => .ok r { g with allocator := a }
      | .error e a => .error e { g with allocator := a }) ∨
    (¬ Ready g ∧ ∃ e, (withAllocator operation).run g = .error e g) := by
  unfold withAllocator
  rcases g with ⟨a, _ | _⟩
  · exact .inr ⟨fun h => Bool.false_ne_true h.1, .notInitialized, rfl⟩
  · simp only [EStateM.run_bind, EStateM.run_get]
    rcases fromExisting_cases a with hok | ⟨e, herr⟩
    · rw [hok]
      refine .inl ⟨⟨rfl, hok⟩, ?_⟩
      change (zoom _ _ operation).run _ = _
      rw [run_zoom]
      rcases operation.run a with ⟨r, a'⟩ | ⟨e, a'⟩
      · rfl
      · rfl
    · rw [herr]
      refine .inr ⟨fun h => ?_, e, rfl⟩
      have hok : fromExisting a = .ok a := h.2
      rw [herr] at hok
      cases hok

theorem bitmapPages_eq : bitmapPages pageBitmapBytes = 2 ^ 20 := by decide

/-- The allocator after a run of pages has been handed out. -/
def takePages (g : GlobalPageAllocator) (first count : Nat) : GlobalPageAllocator :=
  { g with allocator := g.allocator.takeRun first count }

theorem allocateContiguousPages_cases (g : GlobalPageAllocator) (pages : Nat) :
    (∃ first, Ready g ∧ 0 < pages ∧ first + pages ≤ 2 ^ 20 ∧
      IsRun g.allocator.isUnused pages first ∧
      (allocateContiguousPages pages).run g = .ok (4096 * first) (takePages g first pages)) ∨
    ∃ e, (allocateContiguousPages pages).run g = .error e g := by
  unfold allocateContiguousPages
  rcases withAllocator_cases g (allocateContiguous pages) with ⟨hready, hrun⟩ | ⟨-, herr⟩
  · rw [hrun]
    rcases allocateContiguous_cases g.allocator pages with
      ⟨first, hpos, hle, hunused, -, hok⟩ | ⟨-, herr⟩
    · rw [bitmapPages_eq] at hle
      have haddress : wrappingMul first pageSize = 4096 * first := by
        show first * 4096 % wordBound = _
        rw [Nat.mul_comm, Nat.mod_eq_of_lt (by unfold wordBound; omega)]
      rw [hok, haddress]
      exact .inl ⟨first, hready, hpos, hle, hunused, rfl⟩
    · rw [herr]
      exact .inr ⟨_, rfl⟩
  · exact .inr herr

theorem allocatePage_eq : allocatePage = allocateContiguousPages 1 := rfl

/-- A page that is in use can be freed whenever the allocator is ready. -/
theorem freePage_ok {g : GlobalPageAllocator} (hready : Ready g) {page : Nat}
    (hpage : page < 2 ^ 20) (hmanaged : page ∈ g.allocator.managed.pageSet)
    (hused : page ∈ g.allocator.inUse.pageSet) :
    (freePage (4096 * page)).run g =
      .ok () { g with allocator := g.allocator.setInUse page false } := by
  unfold freePage
  have hstate : g.allocator.state (4096 * page) = .ok .inUse := by
    rw [state_page _ (by rw [bitmapPages_eq]; exact hpage)]
    exact congrArg Except.ok (stateAt_eq_inUse.mpr
      ⟨PageBitmap.mem_pageSet.mp hmanaged, PageBitmap.mem_pageSet.mp hused⟩)
  rcases withAllocator_cases g (free (4096 * page)) with ⟨-, hrun⟩ | ⟨hnot, -⟩
  · rw [hrun]
    rcases free_cases g.allocator (4096 * page) with ⟨-, -, hok⟩ | ⟨e, hne, -⟩
    · rw [hok, Nat.mul_div_cancel_left page (by decide)]
    · exact absurd hstate hne
  · exact absurd hready hnot

end Tvisor.Mm
