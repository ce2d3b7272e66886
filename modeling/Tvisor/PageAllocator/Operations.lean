/-
# Tvisor.PageAllocator.Operations -- what each allocator operation does

One lemma for each operation says everything it can do: which answer it gives, on which condition,
and the allocator it leaves. Page indices are used instead of addresses from here on; the loops of
the source over page addresses are folds over page indices.
-/
import Tvisor.PageAllocator

namespace Tvisor.PageAllocator

open SystemInfo Fallible Page Words

variable {n : Nat} {index : Nat} {a : PageAllocator n}

/-! ## The aperture -/

theorem apertureEnd_lt (n : Nat) : apertureEnd n < wordBound := Nat.mod_lt _ (by decide)

theorem bitmapPages_le (n : Nat) : bitmapPages n ≤ 8 * n := by
  have : bitmapPages n ≤ n * 8 := Nat.mod_le _ _
  omega

/-- The aperture ends on a page boundary, wrapped or not. -/
theorem apertureEnd_eq (n : Nat) : apertureEnd n = 4096 * (apertureEnd n / 4096) := by
  have h : apertureEnd n = bitmapPages n * 4096 % 2 ^ 64 := rfl
  omega

theorem lt_bitmapPages {n index : Nat} (h : index < apertureEnd n / 4096) :
    index < bitmapPages n := by
  have h' : apertureEnd n ≤ bitmapPages n * 4096 := Nat.mod_le _ _
  omega

theorem bitmapIndex_page (h : index < bitmapPages n) :
    bitmapIndex n (4096 * index) = .ok index := by
  have hdiv : 4096 * index / pageSize = index := Nat.mul_div_cancel_left index (by decide)
  simp only [bitmapIndex, hdiv]
  exact if_neg (by omega)

theorem bitmapIndex_eq_ok {address index : Nat} (h : bitmapIndex n address = .ok index) :
    index = address / 4096 ∧ index < bitmapPages n := by
  simp only [bitmapIndex] at h
  split at h
  · cases h
  · cases h
    exact ⟨rfl, by omega⟩

/-! ## Page states -/

/-- The state of a page, read off its two bits. -/
def stateAt (a : PageAllocator n) (index : Nat) : PageState :=
  if !a.managed.isSet index then .reserved
  else if a.inUse.isSet index then .inUse
  else .unused

theorem state_page (a : PageAllocator n) (h : index < bitmapPages n) :
    a.state (4096 * index) = .ok (a.stateAt index) := by
  have hal : isPageAligned (4096 * index) = true := isPageAligned_iff.mpr (by omega)
  simp only [state, hal, bitmapIndex_page h, stateAt]
  cases a.managed.isSet index <;> cases a.inUse.isSet index <;> rfl

theorem state_eq_ok {page : Nat} {st : PageState} (h : a.state page = .ok st) :
    page = 4096 * (page / 4096) ∧ page / 4096 < bitmapPages n ∧ st = a.stateAt (page / 4096) := by
  have hstate := h
  unfold state at h
  split at h
  · cases h
  rename_i hal
  rw [Bool.not_eq_true', Bool.not_eq_false, isPageAligned_iff] at hal
  have hpage : page = 4096 * (page / 4096) := by omega
  split at h
  · cases h
  rename_i index hidx
  obtain ⟨rfl, hlt⟩ := bitmapIndex_eq_ok hidx
  rw [hpage, state_page a hlt] at hstate
  cases hstate
  exact ⟨hpage, hlt, rfl⟩

theorem stateAt_eq_unused :
    a.stateAt index = .unused ↔ a.isUnused index = true := by
  unfold stateAt isUnused
  cases a.managed.isSet index <;> cases a.inUse.isSet index <;> decide

theorem stateAt_eq_inUse :
    a.stateAt index = .inUse ↔ a.managed.isSet index = true ∧ a.inUse.isSet index = true := by
  unfold stateAt
  cases a.managed.isSet index <;> cases a.inUse.isSet index <;> decide

theorem isUnused_iff :
    a.isUnused index = true ↔ index ∈ a.managed.pageSet ∧ index ∉ a.inUse.pageSet := by
  unfold isUnused
  simp

/-! ## Contiguous runs -/

/-- `count` consecutive indices from `first` on are all unused. -/
def IsRun (unused : Nat → Bool) (count first : Nat) : Prop :=
  ∀ i, first ≤ i → i < first + count → unused i = true

/-- The scan is first-fit. The invariant of the loop at index `k`: the last `runLen` indices are
unused, there are fewer than requested, and no run starts before them. -/
theorem findRun_spec (unused : Nat → Bool) (pages m k runStart runLen : Nat)
    (hlen : runLen < pages) (hk : runLen ≤ k) (hstart : 0 < runLen → runStart + runLen = k)
    (hrun : ∀ i, k - runLen ≤ i → i < k → unused i = true)
    (hearly : ∀ s, s < k - runLen → ¬ IsRun unused pages s) :
    match findRun unused pages (List.range' k m) runStart runLen with
    | some s => s + pages ≤ k + m ∧ IsRun unused pages s ∧ ∀ t, IsRun unused pages t → s ≤ t
    | none => ∀ t, t + pages ≤ k + m → ¬ IsRun unused pages t := by
  induction m generalizing k runStart runLen with
  | zero =>
    intro t ht
    exact hearly t (by omega)
  | succ m ih =>
    rw [List.range'_succ, findRun]
    cases hu : unused k with
    | false =>
      have hnext := ih (k + 1) runStart 0 (by omega) (by omega) (by omega)
        (fun i h1 h2 => absurd h2 (by omega)) (by
          intro s hs hrunS
          by_cases hlt : s < k - runLen
          · exact hearly s hlt hrunS
          · -- A run that starts among the last indices would contain `k`.
            have := hrunS k (by omega) (by omega)
            rw [hu] at this
            cases this)
      rw [Nat.add_right_comm, Nat.add_assoc] at hnext
      exact hnext
    | true =>
      have hfirst : (if runLen = 0 then k else runStart) = k - runLen := by
        split <;> omega
      have hrun' : ∀ i, k - runLen ≤ i → i < k + 1 → unused i = true := by
        intro i h1 h2
        by_cases hik : i = k
        · rw [hik, hu]
        · exact hrun i h1 (by omega)
      simp only [if_true, hfirst]
      split
      · rename_i heq
        split at heq
        · cases heq
          refine ⟨by omega, ?_, ?_⟩
          · intro i h1 h2
            exact hrun' i h1 (by omega)
          · intro t ht
            by_contra hlt
            exact hearly t (by omega) ht
        · have hnext := ih (k + 1) (k - runLen) (runLen + 1) (by omega) (by omega) (by omega)
            (by simpa using hrun') (by simpa using hearly)
          rw [heq] at hnext
          obtain ⟨h1, h2, h3⟩ := hnext
          exact ⟨by omega, h2, h3⟩
      · rename_i heq
        split at heq
        · cases heq
        · have hnext := ih (k + 1) (k - runLen) (runLen + 1) (by omega) (by omega) (by omega)
            (by simpa using hrun') (by simpa using hearly)
          rw [heq] at hnext
          intro t ht
          exact hnext t (by omega)

theorem allocateContiguous_cases (a : PageAllocator n) (pages : Nat) :
    (∃ first, 0 < pages ∧ first + pages ≤ bitmapPages n ∧ IsRun a.isUnused pages first ∧
      (∀ t, IsRun a.isUnused pages t → first ≤ t) ∧
      (allocateContiguous pages).run a = .ok (wrappingMul first pageSize)
        { a with inUse := a.inUse.setEach (List.range' first pages) true }) ∨
    ((pages = 0 ∨ ∀ t, t + pages ≤ bitmapPages n → ¬ IsRun a.isUnused pages t) ∧
      (allocateContiguous pages).run a = .error .exhausted a) := by
  unfold allocateContiguous
  by_cases hp : pages = 0
  · exact .inr ⟨.inl hp, by simp [hp]⟩
  · have hscan := findRun_spec a.isUnused pages (bitmapPages n) 0 0 0 (by omega) le_rfl
      (by omega) (fun i _ h => absurd h (by omega)) (fun s h => absurd h (by omega))
    rw [← List.range_eq_range', Nat.zero_add] at hscan
    simp only [if_neg hp, EStateM.run_bind, EStateM.run_pure, EStateM.run_get]
    cases hfind : findRun a.isUnused pages (List.range (bitmapPages n)) 0 0 with
    | some first =>
      rw [hfind] at hscan
      exact .inl ⟨first, by omega, hscan.1, hscan.2.1, hscan.2.2, rfl⟩
    | none =>
      rw [hfind] at hscan
      exact .inr ⟨.inr hscan, rfl⟩

theorem allocateHigh_cases (a : PageAllocator n) :
    (∃ index, index < bitmapPages n ∧ a.isUnused index = true ∧
      (∀ t, t < bitmapPages n → a.isUnused t = true → t ≤ index) ∧
      allocateHigh.run a = .ok (wrappingMul index pageSize) (a.setInUse index true)) ∨
    ((∀ t, t < bitmapPages n → a.isUnused t = false) ∧
      allocateHigh.run a = .error .exhausted a) := by
  unfold allocateHigh
  simp only [EStateM.run_bind, EStateM.run_get]
  cases hfind : (List.range (bitmapPages n)).reverse.find? a.isUnused with
  | none =>
    refine .inr ⟨?_, by simp⟩
    intro t ht
    have := List.find?_eq_none.mp hfind t (by simpa using ht)
    simpa using this
  | some index =>
    obtain ⟨hun, before, after, hsplit, hbefore⟩ := List.find?_eq_some_iff_append.mp hfind
    have hmem : index ∈ List.range (bitmapPages n) := by
      rw [← List.mem_reverse, hsplit]
      simp
    have hsorted : (before ++ index :: after).Pairwise (· > ·) := by
      rw [← hsplit, List.pairwise_reverse]
      exact List.pairwise_lt_range
    refine .inl ⟨index, List.mem_range.mp hmem, hun, ?_, rfl⟩
    intro t ht htun
    have htmem : t ∈ before ++ index :: after := by
      rw [← hsplit]
      simpa using ht
    rcases List.mem_append.mp htmem with htb | hta
    · have := hbefore t htb
      rw [htun] at this
      cases this
    · rcases List.mem_cons.mp hta with rfl | hta
      · exact le_rfl
      · have := (List.pairwise_cons.mp (List.pairwise_append.mp hsorted).2.1).1 t hta
        omega

/-! ## Loops over page addresses -/

theorem checkedAdd_page {i j : Nat} (hij : i < j) (hj : 4096 * j < wordBound) :
    checkedAdd (4096 * i) pageSize = some (4096 * (i + 1)) := by
  have hnext : 4096 * i + pageSize = 4096 * (i + 1) := (Nat.mul_succ 4096 i).symm
  rw [checkedAdd_of_lt (by rw [hnext]; omega), hnext]

/-- The `while` loop visits every page from `i` up to `j`, and its increment never overflows. -/
theorem eachPage_run {α : Type} (body : Nat → α → EStateM AllocatorError (PageAllocator n) α)
    {j : Nat} (hj : 4096 * j < wordBound) {i fuel : Nat} (hfuel : 4096 * (j - i) ≤ fuel)
    (acc : α) (a : PageAllocator n) :
    (eachPage (4096 * j) body fuel (4096 * i) acc).run a =
      ((List.range' i (j - i)).foldlM (fun acc index => body (4096 * index) acc) acc).run a := by
  generalize hcount : j - i = count at hfuel
  induction count generalizing i fuel acc a with
  | zero =>
    cases fuel with
    | zero => rfl
    | succ fuel =>
      have hge : ¬ 4096 * i < 4096 * j := by omega
      rw [eachPage, if_neg hge]
      rfl
  | succ count ih =>
    cases fuel with
    | zero => omega
    | succ fuel =>
      have hlt : 4096 * i < 4096 * j := by omega
      rw [eachPage, if_pos hlt, List.range'_succ, List.foldlM_cons, EStateM.run_bind,
        EStateM.run_bind]
      cases (body (4096 * i) acc).run a with
      | error e a' => rfl
      | ok acc' a' =>
        simp only [EStateM.run_bind, checkedAdd_page (i := i) (by omega) hj,
          run_orThrow_some]
        exact ih acc' a' (by omega) (by omega)

/-- The region covers the whole page. -/
def Covers (region : PhysRegion) (index : Nat) : Prop :=
  region.start ≤ 4096 * index ∧ 4096 * (index + 1) ≤ region.endAddr

/-- The index of the first page that starts inside the region. -/
def firstPage (region : PhysRegion) : Nat := (region.start + 4095) / 4096

/-- The pages the region covers are those from its first page up to its end, rounded down. -/
theorem covers_iff (region : PhysRegion) (index : Nat) :
    Covers region index ↔ firstPage region ≤ index ∧ index < region.endAddr / 4096 := by
  unfold Covers firstPage
  omega

/-- The bounds that `allocate_in`, `release` and `mark_managed` compute before they loop. -/
theorem bounds_run {α : Type} (region : PhysRegion) (a : PageAllocator n)
    (k : Nat → Nat → EStateM AllocatorError (PageAllocator n) α) :
    (do
      let start ← orThrow .addressOverflow (alignUp region.start pageSize)
      let stop ← orThrow .addressOverflow (alignDown region.endAddr pageSize)
      k start stop : EStateM AllocatorError (PageAllocator n) α).run a =
    if region.start + 4095 < wordBound then
      (k (4096 * firstPage region) (4096 * (region.endAddr / 4096))).run a
    else .error .addressOverflow a := by
  simp only [EStateM.run_bind, alignUp_page, alignDown_page region.endAddr_lt]
  by_cases hfit : region.start + 4095 < wordBound
  · simp only [if_pos hfit, run_orThrow_some]
    rfl
  · simp only [if_neg hfit, run_orThrow_none]

/-- `stop.min(aperture_end)`, in pages. -/
theorem min_apertureEnd (n stop : Nat) :
    min (4096 * stop) (apertureEnd n) = 4096 * min stop (apertureEnd n / 4096) := by
  have := apertureEnd_eq n
  omega

/-! ## Allocation inside a region -/

theorem allocateInLoop_run {j : Nat} (hj : j ≤ apertureEnd n / 4096) {i fuel : Nat}
    (hfuel : 4096 * (j - i) ≤ fuel) (a : PageAllocator n) :
    (∃ index, i ≤ index ∧ index < j ∧ a.isUnused index = true ∧
      (∀ t, i ≤ t → t < index → a.isUnused t = false) ∧
      (allocateInLoop (4096 * j) fuel (4096 * i)).run a =
        .ok (4096 * index) (a.setInUse index true)) ∨
    ((∀ t, i ≤ t → t < j → a.isUnused t = false) ∧
      (allocateInLoop (4096 * j) fuel (4096 * i)).run a = .error .exhausted a) := by
  have hword : 4096 * j < wordBound := by
    have := apertureEnd_lt n
    omega
  generalize hcount : j - i = count at hfuel
  induction count generalizing i fuel with
  | zero =>
    refine .inr ⟨fun t h1 h2 => absurd h2 (by omega), ?_⟩
    cases fuel with
    | zero => rfl
    | succ fuel =>
      have hge : ¬ 4096 * i < 4096 * j := by omega
      rw [allocateInLoop, if_neg hge]
      rfl
  | succ count ih =>
    cases fuel with
    | zero => omega
    | succ fuel =>
      have hlt : 4096 * i < 4096 * j := by omega
      have hi : i < bitmapPages n := lt_bitmapPages (by omega)
      rw [allocateInLoop, if_pos hlt]
      simp only [EStateM.run_bind, EStateM.run_get, state_page a hi, run_lift_ok]
      by_cases hun : a.isUnused i = true
      · refine .inl ⟨i, le_rfl, by omega, hun, fun t h1 h2 => absurd h2 (by omega), ?_⟩
        rw [if_pos (stateAt_eq_unused.mpr hun)]
        simp only [EStateM.run_bind, bitmapIndex_page hi, run_lift_ok, EStateM.run_set,
          EStateM.run_pure]
      · have hun' : a.isUnused i = false := Bool.eq_false_iff.mpr hun
        rw [if_neg (fun h => hun (stateAt_eq_unused.mp h))]
        simp only [EStateM.run_bind, checkedAdd_page (i := i) (by omega) hword,
          run_orThrow_some]
        rcases @ih (i + 1) fuel (by omega) (by omega) with
          ⟨index, h1, h2, h3, h4, hrun⟩ | ⟨hnone, hrun⟩
        · refine .inl ⟨index, by omega, h2, h3, ?_, hrun⟩
          intro t ht1 ht2
          by_cases hti : t = i
          · rw [hti, hun']
          · exact h4 t (by omega) ht2
        · refine .inr ⟨?_, hrun⟩
          intro t ht1 ht2
          by_cases hti : t = i
          · rw [hti, hun']
          · exact hnone t (by omega) ht2

theorem allocateIn_cases (a : PageAllocator n) (requested : PhysRegion) :
    (∃ index, Covers requested index ∧ index < apertureEnd n / 4096 ∧ a.isUnused index = true ∧
      (∀ t, Covers requested t → t < index → a.isUnused t = false) ∧
      (allocateIn requested).run a = .ok (4096 * index) (a.setInUse index true)) ∨
    ((∀ t, Covers requested t → t < apertureEnd n / 4096 → a.isUnused t = false) ∧
      (allocateIn requested).run a = .error .exhausted a) ∨
    (wordBound ≤ requested.start + 4095 ∧
      (allocateIn requested).run a = .error .addressOverflow a) := by
  unfold allocateIn
  rw [bounds_run]
  by_cases hfit : requested.start + 4095 < wordBound
  · rw [if_pos hfit]
    simp only [min_apertureEnd]
    rcases allocateInLoop_run (n := n)
        (j := min (requested.endAddr / 4096) (apertureEnd n / 4096)) (i := firstPage requested)
        (min_le_right _ _) (by rw [Nat.mul_sub]) a with
      ⟨index, h1, h2, h3, h4, hrun⟩ | ⟨hnone, hrun⟩
    · refine .inl ⟨index, (covers_iff _ _).mpr ⟨h1, by omega⟩, by omega, h3, ?_, hrun⟩
      intro t ht htlt
      exact h4 t ((covers_iff _ _).mp ht).1 htlt
    · refine .inr (.inl ⟨?_, hrun⟩)
      intro t ht htlt
      obtain ⟨ht1, ht2⟩ := (covers_iff _ _).mp ht
      exact hnone t ht1 (by omega)
  · rw [if_neg hfit]
    exact .inr (.inr ⟨by omega, rfl⟩)

/-! ## Giving pages back -/

theorem free_cases (a : PageAllocator n) (page : Nat) :
    (page = 4096 * (page / 4096) ∧ a.stateAt (page / 4096) = .inUse ∧
      (free page).run a = .ok () (a.setInUse (page / 4096) false)) ∨
    (∃ e, a.state page ≠ .ok .inUse ∧ (free page).run a = .error e a) := by
  unfold free
  simp only [EStateM.run_bind, EStateM.run_get]
  cases hst : a.state page with
  | error e => exact .inr ⟨e, by simp, by simp⟩
  | ok st =>
    obtain ⟨hpage, hlt, rfl⟩ := state_eq_ok hst
    have hidx : bitmapIndex n page = .ok (page / 4096) := by
      rw [hpage, bitmapIndex_page (by omega)]
      congr 1
      omega
    cases hcase : a.stateAt (page / 4096) with
    | reserved => exact .inr ⟨.reservedPage, by simp, by simp⟩
    | unused => exact .inr ⟨.doubleFree, by simp, by simp⟩
    | inUse => exact .inl ⟨hpage, rfl, by simp [hidx]⟩

/-- The release loop clears exactly the visited pages that are managed and in use, and counts
them. No index is visited twice, so a bit cleared earlier does not change a later test. -/
theorem releasePages_run (indices : List Nat) (hnodup : indices.Nodup)
    (hin : ∀ i ∈ indices, i < bitmapPages n) (released : Nat) (a : PageAllocator n) :
    (indices.foldlM (fun acc index => releasePage (4096 * index) acc) released).run a =
      .ok (released + (indices.filter fun i => a.managed.isSet i && a.inUse.isSet i).length)
        { a with
          inUse := a.inUse.setEach
            (indices.filter fun i => a.managed.isSet i && a.inUse.isSet i) false } := by
  induction indices generalizing released a with
  | nil => rfl
  | cons i rest ih =>
    obtain ⟨hi, hrest⟩ := List.forall_mem_cons.mp hin
    obtain ⟨hnot, hnodup'⟩ := List.nodup_cons.mp hnodup
    have hi8 : i < 8 * n := lt_of_lt_of_le hi (bitmapPages_le n)
    rw [List.foldlM_cons, EStateM.run_bind, List.filter_cons]
    have hpage : (releasePage (n := n) (4096 * i) released).run a =
        if a.managed.isSet i && a.inUse.isSet i then .ok (released + 1) (a.setInUse i false)
        else .ok released a := by
      unfold releasePage
      simp only [EStateM.run_bind, bitmapIndex_page hi, run_lift_ok, EStateM.run_get, run_ite,
        EStateM.run_set, EStateM.run_pure]
    rw [hpage]
    by_cases hset : (a.managed.isSet i && a.inUse.isSet i) = true
    · rw [if_pos hset, if_pos hset]
      have hsame : (rest.filter fun j => (a.setInUse i false).managed.isSet j &&
          (a.setInUse i false).inUse.isSet j) =
          rest.filter fun j => a.managed.isSet j && a.inUse.isSet j := by
        apply List.filter_congr
        intro j hj
        have hne : i ≠ j := fun h => hnot (h ▸ hj)
        have hbit : (a.inUse.setBit i false).isSet j = a.inUse.isSet j := by
          have := PageBitmap.pageSet_setBit (b := a.inUse) hi8 false
          rw [if_neg Bool.false_ne_true] at this
          have hmem : j ∈ (a.inUse.setBit i false).pageSet ↔ j ∈ a.inUse.pageSet.erase i := by
            rw [this]
          rw [Finset.mem_erase, PageBitmap.mem_pageSet, PageBitmap.mem_pageSet] at hmem
          apply Bool.eq_iff_iff.mpr
          rw [hmem]
          simp [Ne.symm hne]
        show (a.managed.isSet j && (a.inUse.setBit i false).isSet j) = _
        rw [hbit]
      refine (ih hnodup' hrest (released + 1) (a.setInUse i false)).trans ?_
      rw [hsame, List.length_cons, Nat.add_right_comm, Nat.add_assoc]
      rfl
    · rw [if_neg hset, if_neg hset]
      exact ih hnodup' hrest released a

theorem release_cases (a : PageAllocator n) (region : PhysRegion) :
    (∃ pages : List Nat, pages.Nodup ∧
      (∀ i, i ∈ pages ↔ Covers region i ∧ i < apertureEnd n / 4096 ∧
        a.managed.isSet i = true ∧ a.inUse.isSet i = true) ∧
      (release region).run a =
        .ok pages.length { a with inUse := a.inUse.setEach pages false }) ∨
    (wordBound ≤ region.start + 4095 ∧ (release region).run a = .error .addressOverflow a) := by
  unfold release
  rw [bounds_run]
  by_cases hfit : region.start + 4095 < wordBound
  · rw [if_pos hfit]
    simp only [min_apertureEnd]
    have hj : 4096 * min (region.endAddr / 4096) (apertureEnd n / 4096) < wordBound := by
      have := apertureEnd_lt n
      omega
    rw [eachPage_run _ hj (by rw [Nat.mul_sub]),
      releasePages_run _ (List.nodup_range' 1) (by
        intro i hi
        have := List.mem_range'_1.mp hi
        exact lt_bitmapPages (by omega))]
    refine .inl ⟨_, (List.nodup_range' 1).filter _, ?_, by rw [Nat.zero_add]⟩
    intro i
    rw [List.mem_filter, List.mem_range'_1, Bool.and_eq_true, covers_iff]
    constructor
    · rintro ⟨⟨h1, h2⟩, h3, h4⟩
      exact ⟨⟨h1, by omega⟩, by omega, h3, h4⟩
    · rintro ⟨⟨h1, h2⟩, h3, h4, h5⟩
      exact ⟨⟨h1, by omega⟩, h4, h5⟩
  · rw [if_neg hfit]
    exact .inr ⟨by omega, rfl⟩

/-! ## Construction -/

theorem markPages_run (indices : List Nat) (hin : ∀ i ∈ indices, i < bitmapPages n)
    (a : PageAllocator n) :
    (indices.foldlM (fun acc index => markPage (4096 * index) acc) ()).run a =
      .ok () { a with managed := a.managed.setEach indices true } := by
  induction indices generalizing a with
  | nil => rfl
  | cons i rest ih =>
    obtain ⟨hi, hrest⟩ := List.forall_mem_cons.mp hin
    rw [List.foldlM_cons, EStateM.run_bind]
    unfold markPage at ih ⊢
    simp only [EStateM.run_bind, bitmapIndex_page hi, run_lift_ok, EStateM.run_modify] at ih ⊢
    rw [ih hrest]
    rfl

theorem markManaged_cases (a : PageAllocator n) (region : PhysRegion) :
    (∃ pages : List Nat, (∀ i, i ∈ pages ↔ Covers region i) ∧
      (∀ i ∈ pages, i < apertureEnd n / 4096) ∧
      (markManaged region).run a =
        .ok () { a with managed := a.managed.setEach pages true }) ∨
    ∃ e, (wordBound ≤ region.start + 4095 ∨ apertureEnd n < 4096 * (region.endAddr / 4096)) ∧
      (markManaged region).run a = .error e a := by
  unfold markManaged
  rw [bounds_run]
  by_cases hfit : region.start + 4095 < wordBound
  · rw [if_pos hfit]
    by_cases hover : 4096 * (region.endAddr / 4096) > apertureEnd n
    · exact .inr ⟨.physicalAddressOutOfRange, .inr hover, by simp [hover]⟩
    · have hj : 4096 * (region.endAddr / 4096) < wordBound := by
        have := apertureEnd_lt n
        omega
      have hin : ∀ i ∈ List.range' (firstPage region)
          (region.endAddr / 4096 - firstPage region), i < apertureEnd n / 4096 := by
        intro i hi
        have := List.mem_range'_1.mp hi
        omega
      refine .inl ⟨List.range' (firstPage region) (region.endAddr / 4096 - firstPage region),
        ?_, hin, ?_⟩
      · intro i
        rw [List.mem_range'_1, covers_iff]
        omega
      · simp only [if_neg hover, EStateM.run_bind, EStateM.run_pure]
        rw [eachPage_run _ hj (by rw [Nat.mul_sub]),
          markPages_run _ (fun i hi => lt_bitmapPages (hin i hi))]
  · rw [if_neg hfit]
    exact .inr ⟨_, .inl (not_lt.mp hfit), rfl⟩

theorem markAllManagedInUse_eq (a : PageAllocator n) :
    a.markAllManagedInUse = { a with
      inUse := a.inUse.setEach ((List.range (bitmapPages n)).filter a.managed.isSet) true } := by
  unfold markAllManagedInUse PageBitmap.setEach
  rw [List.foldl_filter]

end Tvisor.PageAllocator
