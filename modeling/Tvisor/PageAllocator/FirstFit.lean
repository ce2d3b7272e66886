/-
# Tvisor.PageAllocator.FirstFit -- which pages an allocation takes

The three searches of the allocator are complete and make a definite choice: the lowest run of
unused pages, the highest unused page, or the lowest unused page inside a region. The scan lemmas
say so in terms of bits. Here it is said in terms of page states, for every allocator that can be
reached: a search fails only where nothing fits, and nothing but the chosen pages changes.
-/
import Tvisor.PageAllocator.Invariant

namespace Tvisor.PageAllocator

open SystemInfo Fallible Page Words

variable {n : Nat}

/-! ## Searches -/

/-- All of these consecutive pages are Unused. -/
def UnusedRun (a : PageAllocator n) (count first : Nat) : Prop :=
  ∀ i < count, a.state (4096 * (first + i)) = .ok .unused

/-- The pages of the run are InUse now, and every other address has the state it had. -/
structure Taken (a a' : PageAllocator n) (first count : Nat) : Prop where
  managed : a'.managed = a.managed
  ramPages : a'.ramPages = a.ramPages
  inside : ∀ i < count, a'.state (4096 * (first + i)) = .ok .inUse
  outside : ∀ address, (∀ i < count, address ≠ 4096 * (first + i)) →
    a'.state address = a.state address

/-- A search: it finds the best of what fits and takes it, or nothing fits and nothing changes. -/
inductive Finds (a : PageAllocator n) (count : Nat) (fits : Nat → Prop)
    (better : Nat → Nat → Prop) : EStateM.Result AllocatorError (PageAllocator n) Nat → Prop
  | found {first : Nat} {a' : PageAllocator n} (hfits : fits first)
      (hbest : ∀ other, fits other → better first other) (htaken : Taken a a' first count) :
      Finds a count fits better (.ok (4096 * first) a')
  | exhausted (hnone : ∀ other, ¬ fits other) : Finds a count fits better (.error .exhausted a)

/-! ## From bits to states -/

section States

variable {a : PageAllocator n} {index : Nat}

theorem isUnused_of_state (h : a.state (4096 * index) = .ok .unused) :
    a.isUnused index = true := by
  obtain ⟨_, _, hstate⟩ := state_eq_ok h
  rw [Nat.mul_div_cancel_left index (by decide)] at hstate
  exact stateAt_eq_unused.mp hstate.symm

theorem Coherent.unusedRun_iff (h : a.Coherent) {count first : Nat} :
    UnusedRun a count first ↔ IsRun a.isUnused count first := by
  constructor
  · intro hrun i hlo hhi
    have hi := hrun (i - first) (by omega)
    rw [Nat.add_sub_cancel' hlo] at hi
    exact isUnused_of_state hi
  · intro hrun i hi
    exact h.state_unused (hrun (first + i) (by omega) (by omega))

/-- The answer of `state` depends on the two bits of the page only. -/
theorem state_congr {b : PageAllocator n} (hmanaged : b.managed = a.managed) {address : Nat}
    (hinUse : b.inUse.isSet (address / 4096) = a.inUse.isSet (address / 4096) ∨
      address ≠ 4096 * (address / 4096)) : b.state address = a.state address := by
  unfold state
  cases haligned : isPageAligned address with
  | false => rfl
  | true =>
    have haddress : address = 4096 * (address / 4096) := by
      have := isPageAligned_iff.mp haligned
      omega
    have hbit := hinUse.resolve_right fun hne => hne haddress
    cases hindex : bitmapIndex n address with
    | error e => rfl
    | ok page =>
      obtain ⟨rfl, _⟩ := bitmapIndex_eq_ok hindex
      simp only [hmanaged, hbit]

/-- A run of unused pages that is handed out. -/
theorem Coherent.taken (h : a.Coherent) {first count : Nat}
    (hrun : IsRun a.isUnused count first) : Taken a (a.takeRun first count) first count where
  managed := rfl
  ramPages := rfl
  inside i hi := by
    apply (h.takeRun hrun).state_inUse
    rw [inUse_takeRun hrun]
    exact Finset.mem_union_right _ (Finset.mem_Ico.mpr (by omega))
  outside address hne := by
    apply state_congr
    · rfl
    · by_cases haddress : address = 4096 * (address / 4096)
      · left
        -- The bit of another page is in the new set exactly if it was in the old one.
        have hout : address / 4096 ∉ Finset.Ico first (first + count) := by
          intro hmem
          obtain ⟨hlo, hhi⟩ := Finset.mem_Ico.mp hmem
          refine hne (address / 4096 - first) (by omega) ?_
          rw [Nat.add_sub_cancel' hlo]
          exact haddress
        apply Bool.eq_iff_iff.mpr
        rw [← PageBitmap.mem_pageSet, ← PageBitmap.mem_pageSet, inUse_takeRun hrun,
          Finset.mem_union]
        exact or_iff_left hout
      · exact Or.inr haddress

theorem setInUse_eq_takeRun : a.setInUse index true = a.takeRun index 1 := rfl

end States

/-! ## The three searches -/

variable {a : PageAllocator n} {requested : PhysRegion}

theorem Coherent.allocateContiguous_finds (h : a.Coherent) (pages : Nat) :
    Finds a pages (fun first => 0 < pages ∧ UnusedRun a pages first) (· ≤ ·)
      ((allocateContiguous pages).run a) := by
  rcases allocateContiguous_cases a pages with ⟨first, hpos, _, hrun, hleast, hok⟩ | ⟨hnone, herror⟩
  · rw [hok, address_eq h (hrun first (Nat.le_refl _) (by omega))]
    refine .found ⟨hpos, h.unusedRun_iff.mpr hrun⟩ ?_ (h.taken hrun)
    intro other hother
    exact hleast other (h.unusedRun_iff.mp hother.2)
  · rw [herror]
    refine .exhausted ?_
    rintro other ⟨hpos, hother⟩
    have hrun := h.unusedRun_iff.mp hother
    -- The last page of a run is managed, so the run ends inside the bitmap.
    have hlast := hrun (other + (pages - 1)) (by omega) (by omega)
    have hlt := (pageSet_lt h (isUnused_iff.mp hlast).1).1
    rcases hnone with hzero | hnone
    · omega
    · exact hnone other (by omega) hrun

theorem Coherent.allocateHigh_finds (h : a.Coherent) :
    Finds a 1 (fun page => a.state (4096 * page) = .ok .unused) (fun page other => other ≤ page)
      (allocateHigh.run a) := by
  have hlt : ∀ page, a.isUnused page = true → page < bitmapPages n := fun page hunused =>
    (pageSet_lt h (isUnused_iff.mp hunused).1).1
  rcases allocateHigh_cases a with ⟨index, _, hunused, hgreatest, hok⟩ | ⟨hnone, herror⟩
  · rw [hok, address_eq h hunused, setInUse_eq_takeRun]
    refine .found (h.state_unused hunused) ?_ (h.taken (isRun_one hunused))
    intro other hother
    have hother := isUnused_of_state hother
    exact hgreatest other (hlt other hother) hother
  · rw [herror]
    refine .exhausted fun other hother => ?_
    have hother := isUnused_of_state hother
    exact absurd hother (by rw [hnone other (hlt other hother)]; exact Bool.false_ne_true)

/-- Where the start of the region can be rounded up. -/
theorem Coherent.allocateIn_finds (h : a.Coherent) (hfit : requested.start + 4095 < wordBound) :
    Finds a 1 (fun page => Covers requested page ∧ a.state (4096 * page) = .ok .unused) (· ≤ ·)
      ((allocateIn requested).run a) := by
  rcases allocateIn_cases a requested with ⟨index, hcovers, -, hunused, hfirst, hok⟩ |
    ⟨hnone, herror⟩ | ⟨hover, -⟩
  · rw [hok, setInUse_eq_takeRun]
    refine .found ⟨hcovers, h.state_unused hunused⟩ ?_ (h.taken (isRun_one hunused))
    rintro other ⟨hother, hstate⟩
    by_contra hlt
    have hused := hfirst other hother (not_le.mp hlt)
    rw [isUnused_of_state hstate] at hused
    cases hused
  · rw [herror]
    refine .exhausted ?_
    rintro other ⟨hother, hstate⟩
    have hunused := isUnused_of_state hstate
    have hused := hnone other hother (h.managed_aperture other (isUnused_iff.mp hunused).1)
    rw [hunused] at hused
    cases hused
  · exact absurd hfit (not_lt.mpr hover)

/-- Where it cannot, the region holds no page at all. -/
theorem allocateIn_overflow (a : PageAllocator n) (hover : wordBound ≤ requested.start + 4095) :
    (allocateIn requested).run a = .error .addressOverflow a ∧ ∀ page, ¬ Covers requested page := by
  constructor
  · unfold allocateIn
    rw [bounds_run, if_neg (not_lt.mpr hover)]
  · intro page hcovers
    have hend := requested.endAddr_lt
    have hbound : wordBound = 4096 * 2 ^ 52 := by decide
    unfold Covers at hcovers
    omega

/-- In every reachable state the searches are complete. `allocate_contiguous` takes the lowest run
of unused pages, `allocate_high` the highest unused page and `allocate_in` the lowest one inside the
region; each changes nothing else, and fails with `Exhausted` exactly where nothing fits. Only for a
region whose start cannot be rounded up to a page, which therefore holds no page, does `allocate_in`
answer `AddressOverflow`. -/
theorem allocation_complete {r m u : Nat} {ram : FixedList PhysRegion r}
    {allocatable : FixedList PhysRegion m} {initiallyUnused : FixedList PhysRegion u}
    {storage built : PageAllocator n}
    (hnew : (new ram allocatable initiallyUnused).run storage = .ok () built) (ops : List Op) :
    let a := (session built ops).allocator
    (∀ pages, Finds a pages (fun first => 0 < pages ∧ UnusedRun a pages first) (· ≤ ·)
      ((allocateContiguous pages).run a)) ∧
    Finds a 1 (fun page => a.state (4096 * page) = .ok .unused) (fun page other => other ≤ page)
      (allocateHigh.run a) ∧
    ∀ requested : PhysRegion,
      (requested.start + 4095 < wordBound →
        Finds a 1 (fun page => Covers requested page ∧ a.state (4096 * page) = .ok .unused) (· ≤ ·)
          ((allocateIn requested).run a)) ∧
      (wordBound ≤ requested.start + 4095 →
        (allocateIn requested).run a = .error .addressOverflow a ∧
          ∀ page, ¬ Covers requested page) := by
  intro a
  have hcoherent : a.Coherent := (session_managed (new_ok hnew).coherent ops).1
  refine ⟨hcoherent.allocateContiguous_finds, hcoherent.allocateHigh_finds, ?_⟩
  exact fun requested => ⟨hcoherent.allocateIn_finds, allocateIn_overflow a⟩

/-- Three pages of eight, after one of the first three has been given back. -/
theorem allocation_complete_eightPages :
    let a := (session (Fallible.state eightPages) [.allocateContiguous 3, .free 0x2000]).allocator
    eightPages = .ok () (Fallible.state eightPages) ∧
      Finds a 2 (fun first => 0 < 2 ∧ UnusedRun a 2 first) (· ≤ ·)
        ((allocateContiguous 2).run a) := by
  intro a
  have hnew : eightPages = .ok () (Fallible.state eightPages) :=
    eq_ok_of_isOk (by decide +kernel)
  exact ⟨hnew, (allocation_complete hnew [.allocateContiguous 3, .free 0x2000]).1 2⟩

/-- The last byte but one of the address space. -/
def lastBytes : PhysRegion := ⟨2 ^ 64 - 2, 1, by decide, by decide⟩

/-- In a reachable state with unused pages: no page is asked for, and the answer is not
`Exhausted`. -/
theorem allocateIn_lastBytes :
    eightPages = .ok () (Fallible.state eightPages) ∧
      (∀ page, ¬ Covers lastBytes page) ∧
      (allocateIn lastBytes).run (Fallible.state eightPages) =
        .error .addressOverflow (Fallible.state eightPages) := by
  have hover : wordBound ≤ lastBytes.start + 4095 := by decide
  obtain ⟨hrun, hnone⟩ := allocateIn_overflow (Fallible.state eightPages) hover
  exact ⟨eq_ok_of_isOk (by decide +kernel), hnone, hrun⟩

end Tvisor.PageAllocator
