/-
# Tvisor.Mm.Identity -- mapping regions onto themselves, with exclusions

`map_identity_regions_excluding` maps the whole pages of each region onto themselves and leaves out
the pages of the exclusions. For one region its loop is a sweep (`Lib.Sweep`) over the exclusions
widened to whole pages: it calls `map` on one free stretch after another. What it adds to the tables
is the union of the stretches over all regions; a stretch that an earlier region mapped is mapped to
the same pages again and adds nothing.
-/
import Tvisor.El2Stage1.BreakBeforeMake
import Tvisor.Lib.Sweep
import Tvisor.PageAllocator
import Tvisor.Platform

namespace Tvisor.Mm

open El2Stage1 Fallible Page Platform SystemInfo Words

variable {n : Nat}

/-! ## The source -/

inductive PrepareError where
  | addressOverflow
  | translation (error : TranslationError)
  | allocator (error : AllocatorError)
  | validation
  deriving DecidableEq, Repr

/-- A mapping whose virtual and physical addresses are the same. -/
def mapIdentity (start stop : Nat) (writable executable : Bool) :
    EStateM PrepareError (TableSet n) Unit :=
  if isPageAligned start = false ∨ isPageAligned stop = false ∨ stop ≤ start then throw .validation
  else mapError .translation (TableSet.map
    { va := start, pa := start, size := stop - start, memoryType := .normal, writable, executable })

/-- The exclusion with the least start among those that still concern the region, in whole pages. -/
def nextExclusion (exclusions : List PhysRegion) (cursor stop : Nat) : Option (Nat × Nat) :=
  (exclusions.filterMap fun excluded =>
    let excludedStart := pageAddress excluded.start
    match alignUp excluded.endAddr pageSize with
    | none => none
    | some excludedEnd =>
        if excludedEnd > cursor ∧ excludedStart < stop then some (excludedStart, excludedEnd)
        else none).argmin Prod.fst

/-- An exclusion in whole pages, if its end can be rounded up. -/
def widened (excluded : PhysRegion) : Option (Nat × Nat) :=
  (alignUp excluded.endAddr pageSize).map fun stop => (pageAddress excluded.start, stop)

theorem nextExclusion_eq (exclusions : List PhysRegion) (cursor stop : Nat) :
    nextExclusion exclusions cursor stop =
      Sweep.next (exclusions.filterMap widened) cursor stop := by
  unfold nextExclusion Sweep.next
  rw [List.filter_filterMap]
  apply congrArg (List.argmin Prod.fst)
  apply List.filterMap_congr
  intro excluded _
  unfold widened
  generalize alignUp excluded.endAddr pageSize = rounded
  cases rounded with
  | none => rfl
  | some excludedEnd => simp [Option.filter]

theorem lt_nextExclusion {exclusions : List PhysRegion} {cursor stop : Nat} {excluded : Nat × Nat}
    (hlt : cursor < stop) (h : nextExclusion exclusions cursor stop = some excluded) :
    cursor < min (max cursor excluded.2) stop := by
  rw [nextExclusion_eq] at h
  exact Sweep.lt_advance hlt h

/-- `if excluded_start > cursor`: the stretch between the cursor and the exclusion. -/
def mapBefore (excludedStart : Nat) (writable executable : Bool) (stop cursor : Nat) :
    EStateM PrepareError (TableSet n) Unit :=
  if excludedStart > cursor then mapIdentity cursor (min excludedStart stop) writable executable
  else pure ()

/-- `while cursor < end`. The cursor moves up to `end` in every round that goes on. -/
def mapExcluding (exclusions : List PhysRegion) (writable executable : Bool) (stop cursor : Nat) :
    EStateM PrepareError (TableSet n) Unit :=
  if _ : cursor < stop then
    match _ : nextExclusion exclusions cursor stop with
    | none => mapIdentity cursor stop writable executable
    | some excluded => do
        mapBefore excluded.1 writable executable stop cursor
        mapExcluding exclusions writable executable stop (min (max cursor excluded.2) stop)
  else pure ()
termination_by stop - cursor
decreasing_by
  have hmove := lt_nextExclusion ‹_› ‹_›
  omega

/-- The body of `for region in regions`. -/
def mapRegionExcluding (exclusions : List PhysRegion) (writable executable : Bool)
    (region : PhysRegion) : EStateM PrepareError (TableSet n) Unit := do
  let start ← orThrow .addressOverflow (alignUp region.start pageSize)
  mapExcluding exclusions writable executable (pageAddress region.endAddr) start

def mapIdentityRegionsExcluding {r e : Nat} (regions : FixedList PhysRegion r)
    (exclusions : FixedList PhysRegion e) (writable executable : Bool) :
    EStateM PrepareError (TableSet n) Unit :=
  regions.entries.forM (mapRegionExcluding exclusions.entries writable executable)

/-! ## What a successful call adds -/

/-- The translation is the address itself, Normal memory, with these permissions. -/
def IdentityAt (writable executable : Bool) (va : Nat) (tr : Translation) : Prop :=
  tr.pa = va ∧ tr.memoryType = .normal ∧ tr.writable = writable ∧ tr.executable = executable

/-- Afterwards the addresses of the set map to themselves, and no other address is touched. -/
structure Added (writable executable : Bool) (addresses : Set Nat) (t t' : TableSet n) : Prop where
  wf : t'.Wf
  inside : ∀ va ∈ addresses, va < 2 ^ 39
  mapped : ∀ va ∈ addresses, ∃ tr, t'.view va = some tr ∧ IdentityAt writable executable va tr
  kept : ∀ va, va < 2 ^ 39 → va ∉ addresses → t'.view va = t.view va

section Added

variable {writable executable : Bool} {t t' t'' : TableSet n} {S S' : Set Nat}

theorem Added.empty (h : t.Wf) : Added writable executable ∅ t t :=
  ⟨h, fun _ hva => absurd hva (Set.notMem_empty _), fun _ hva => absurd hva (Set.notMem_empty _),
    fun _ _ _ => rfl⟩

theorem Added.union (h : Added writable executable S t t')
    (h' : Added writable executable S' t' t'') : Added writable executable (S ∪ S') t t'' where
  wf := h'.wf
  inside := by
    rintro va (hva | hva)
    · exact h.inside va hva
    · exact h'.inside va hva
  mapped := by
    intro va hva
    by_cases hlater : va ∈ S'
    · exact h'.mapped va hlater
    · have hearlier := hva.resolve_right hlater
      rw [h'.kept va (h.inside va hearlier) hlater]
      exact h.mapped va hearlier
  kept := by
    intro va h39 hva
    rw [h'.kept va h39 fun hin => hva (Or.inr hin), h.kept va h39 fun hin => hva (Or.inl hin)]

theorem mapIdentity_added (h : t.Wf) {start stop : Nat}
    (hrun : (mapIdentity start stop writable executable).run t = .ok () t') :
    Added writable executable (Set.Ico start stop) t t' := by
  unfold mapIdentity at hrun
  split at hrun
  · cases hrun
  rename_i hchecks
  have hlt : start < stop := by
    rw [not_or, not_or, not_le] at hchecks
    exact hchecks.2.2
  rw [run_mapError] at hrun
  have hrange : ∀ va, va ∈ Set.Ico start stop ↔
      InRange ⟨start, start, stop - start, .normal, writable, executable⟩ va := by
    intro va
    show (start ≤ va ∧ va < stop) ↔ (start ≤ va ∧ va < start + (stop - start))
    rw [Nat.add_sub_cancel' hlt.le]
  rcases TableSet.map_spec h ⟨start, start, stop - start, .normal, writable, executable⟩ with
    ⟨u, hmap, hprogress, h39, hmapped⟩ | ⟨e, u, hmap, -⟩
  · rw [hmap] at hrun
    cases hrun
    refine ⟨hprogress.wf, ?_, ?_, ?_⟩
    · intro va hva
      exact ((hrange va).mp hva).2.trans_le h39
    · intro va hva
      obtain ⟨tr, htr, hpa, hattributes⟩ := hmapped va ((hrange va).mp hva)
      refine ⟨tr, htr, ?_, hattributes⟩
      rw [hpa]
      exact Nat.add_sub_cancel' hva.1
    · intro va hva hout
      rcases hprogress.added va hva with heq | ⟨-, hin, -⟩
      · exact heq
      · exact absurd ((hrange va).mpr hin) hout
  · rw [hmap] at hrun
    cases hrun

theorem mapBefore_added (h : t.Wf) {excludedStart stop cursor : Nat}
    (hrun : (mapBefore excludedStart writable executable stop cursor).run t = .ok () t') :
    Added writable executable (Set.Ico cursor (min excludedStart stop)) t t' := by
  unfold mapBefore at hrun
  split at hrun
  · exact mapIdentity_added h hrun
  · rename_i hle
    cases hrun
    rw [Set.Ico_eq_empty]
    · exact Added.empty h
    · omega

/-- What the loop adds is what is free ahead of the cursor: by induction on the rounds. -/
theorem mapExcluding_added (exclusions : List PhysRegion) (stop cursor : Nat) (h : t.Wf)
    (hrun : (mapExcluding exclusions writable executable stop cursor).run t = .ok () t') :
    Added writable executable (Sweep.free (exclusions.filterMap widened) cursor stop) t t' := by
  fun_induction mapExcluding exclusions writable executable stop cursor generalizing t with
  | case1 cursor hlt hnext =>
    rw [nextExclusion_eq] at hnext
    rw [Sweep.free_of_next_eq_none hnext]
    exact mapIdentity_added h hrun
  | case2 cursor hlt excluded hnext ih =>
    rw [nextExclusion_eq] at hnext
    rw [Sweep.free_of_next_eq_some hnext]
    obtain ⟨⟨⟩, u, hbefore, hrest⟩ := run_bind_eq_ok.mp hrun
    have hadded := mapBefore_added h hbefore
    exact hadded.union (ih hadded.wf hrest)
  | case3 cursor hlt =>
    cases hrun
    rw [Sweep.free_eq_empty (not_lt.mp hlt)]
    exact Added.empty h

/-- The addresses that a region contributes. -/
def stretches (exclusions : List PhysRegion) (region : PhysRegion) : Set Nat :=
  {a | ∃ start, alignUp region.start pageSize = some start ∧
    a ∈ Sweep.free (exclusions.filterMap widened) start (pageAddress region.endAddr)}

theorem mapRegionExcluding_added {exclusions : List PhysRegion} {region : PhysRegion} (h : t.Wf)
    (hrun : (mapRegionExcluding exclusions writable executable region).run t = .ok () t') :
    Added writable executable (stretches exclusions region) t t' := by
  obtain ⟨start, u, hstart, hloop⟩ := run_bind_eq_ok.mp hrun
  unfold stretches
  generalize alignUp region.start pageSize = rounded at hstart ⊢
  cases rounded with
  | none => cases hstart
  | some start' =>
    cases hstart
    simpa using mapExcluding_added exclusions _ _ h hloop

theorem forM_added {exclusions regions : List PhysRegion} (h : t.Wf)
    (hrun : (regions.forM (mapRegionExcluding exclusions writable executable)).run t = .ok () t') :
    Added writable executable {a | ∃ region ∈ regions, a ∈ stretches exclusions region} t t' := by
  induction regions generalizing t with
  | nil =>
    cases hrun
    simpa using Added.empty h
  | cons region rest ih =>
    obtain ⟨u, hregion, hrest⟩ := run_forM_cons_eq_ok.mp hrun
    have hadded := mapRegionExcluding_added h hregion
    have hunion : {a | ∃ r ∈ region :: rest, a ∈ stretches exclusions r} =
        stretches exclusions region ∪ {a | ∃ r ∈ rest, a ∈ stretches exclusions r} := by
      ext a
      simp
    rw [hunion]
    exact hadded.union (ih hadded.wf hrest)

end Added

/-! ## Pages -/

/-- The bytes of a page. -/
def pageBytes (page : Nat) : Set Nat := {a | a / 4096 = page}

/-- The bytes of a region. -/
def regionBytes (region : PhysRegion) : Set Nat := Set.Ico region.start region.endAddr

/-- The bytes of every page that holds a byte of the region. -/
def wholePages (region : PhysRegion) : Set Nat :=
  {a | ∃ b ∈ regionBytes region, b / 4096 = a / 4096}

/-- The page lies in a region and away from the exclusions. -/
def Affected (regions exclusions : List PhysRegion) (page : Nat) : Prop :=
  (∃ region ∈ regions, pageBytes page ⊆ regionBytes region) ∧
    ∀ excluded ∈ exclusions, Disjoint (pageBytes page) (wholePages excluded)

theorem pageBytes_subset {region : PhysRegion} {a : Nat} :
    pageBytes (a / 4096) ⊆ regionBytes region ↔
      ∃ start, alignUp region.start pageSize = some start ∧
        start ≤ a ∧ a < pageAddress region.endAddr := by
  have hend := region.endAddr_lt
  rw [pageAddress_eq hend, alignUp_page]
  have hsize : pageSize = 4096 := rfl
  rw [hsize]
  constructor
  · intro hsub
    have hfirst : region.start ≤ 4096 * (a / 4096) :=
      (hsub (show 4096 * (a / 4096) / 4096 = a / 4096 by omega)).1
    have hlast : 4096 * (a / 4096) + 4095 < region.endAddr :=
      (hsub (show (4096 * (a / 4096) + 4095) / 4096 = a / 4096 by omega)).2
    refine ⟨4096 * ((region.start + 4095) / 4096), if_pos (by omega), by omega, by omega⟩
  · rintro ⟨start, hstart, hlo, hhi⟩ b hb
    split at hstart
    · cases hstart
      show region.start ≤ b ∧ b < region.endAddr
      have hpage : b / 4096 = a / 4096 := hb
      omega
    · cases hstart

theorem disjoint_wholePages {excluded : PhysRegion} {a : Nat} :
    Disjoint (pageBytes (a / 4096)) (wholePages excluded) ↔
      ¬ (4096 * (excluded.start / 4096) ≤ a ∧ a < 4096 * ((excluded.endAddr + 4095) / 4096)) := by
  have hlt := excluded.start_lt_endAddr
  rw [Set.disjoint_left]
  constructor
  · rintro hdisjoint ⟨hlo, hhi⟩
    refine hdisjoint (show a / 4096 = a / 4096 from rfl) ?_
    -- The byte of the exclusion in the page of `a`: its first byte, or the first of the page.
    by_cases hstart : excluded.start / 4096 = a / 4096
    · exact ⟨excluded.start, ⟨le_rfl, hlt⟩, hstart⟩
    · refine ⟨4096 * (a / 4096), ⟨?_, ?_⟩, ?_⟩
      · omega
      · omega
      · omega
  · rintro hout b hb ⟨c, ⟨hlo, hhi⟩, hpage⟩
    have hpage' : b / 4096 = a / 4096 := hb
    apply hout
    omega

theorem widened_eq {excluded : PhysRegion} (h : (alignUp excluded.endAddr pageSize).isSome) :
    widened excluded = some (4096 * (excluded.start / 4096),
      4096 * ((excluded.endAddr + 4095) / 4096)) := by
  have hstart : excluded.start < wordBound := excluded.start_lt_endAddr.trans excluded.endAddr_lt
  unfold widened
  rw [alignUp_page] at h ⊢
  split
  · rw [pageAddress_eq hstart, Nat.mul_comm]
    rfl
  · rename_i hover
    rw [if_neg hover] at h
    cases h

/-- In whole pages, what the sweeps add is the affected pages. -/
theorem mem_stretches {regions exclusions : List PhysRegion}
    (hround : ∀ excluded ∈ exclusions, (alignUp excluded.endAddr pageSize).isSome) {a : Nat} :
    (∃ region ∈ regions, a ∈ stretches exclusions region) ↔
      Affected regions exclusions (a / 4096) := by
  have hholes : (∀ hole ∈ exclusions.filterMap widened, ¬ (hole.1 ≤ a ∧ a < hole.2)) ↔
      ∀ excluded ∈ exclusions, Disjoint (pageBytes (a / 4096)) (wholePages excluded) := by
    constructor
    · intro hall excluded hmem
      exact disjoint_wholePages.mpr
        (hall _ (List.mem_filterMap.mpr ⟨excluded, hmem, widened_eq (hround excluded hmem)⟩))
    · intro hall hole hhole
      obtain ⟨excluded, hmem, hwide⟩ := List.mem_filterMap.mp hhole
      rw [widened_eq (hround excluded hmem)] at hwide
      cases hwide
      exact disjoint_wholePages.mp (hall excluded hmem)
  unfold Affected stretches
  simp only [Set.mem_ofPred_eq, Sweep.mem_free, hholes, pageBytes_subset]
  constructor
  · rintro ⟨region, hmem, start, hstart, hin, hout⟩
    exact ⟨⟨region, hmem, start, hstart, hin⟩, hout⟩
  · rintro ⟨⟨region, hmem, start, hstart, hin⟩, hout⟩
    exact ⟨region, hmem, start, hstart, hin, hout⟩

/-! ## Exactness -/

/-- The address translates. -/
def Mapped (t : TableSet n) (a : Nat) : Prop := ∃ tr, t.walk a = .ok (some tr)

theorem Added.mapped_iff {writable executable : Bool} {addresses : Set Nat} {t t' : TableSet n}
    (ht : t.Wf) (h : Added writable executable addresses t t') {a : Nat} :
    Mapped t' a ↔ a ∈ addresses ∨ Mapped t a := by
  constructor
  · rintro ⟨tr, htr⟩
    obtain ⟨h39, hview⟩ := h.wf.walk_eq_some.mp htr
    by_cases ha : a ∈ addresses
    · exact Or.inl ha
    · rw [h.kept a h39 ha] at hview
      exact Or.inr ⟨tr, ht.walk_eq_some.mpr ⟨h39, hview⟩⟩
  · rintro (ha | ⟨tr, htr⟩)
    · obtain ⟨tr, hview, -⟩ := h.mapped a ha
      exact ⟨tr, h.wf.walk_eq_some.mpr ⟨h.inside a ha, hview⟩⟩
    · obtain ⟨h39, hview⟩ := ht.walk_eq_some.mp htr
      by_cases ha : a ∈ addresses
      · obtain ⟨tr', hview', -⟩ := h.mapped a ha
        exact ⟨tr', h.wf.walk_eq_some.mpr ⟨h39, hview'⟩⟩
      · rw [← h.kept a h39 ha] at hview
        exact ⟨tr, h.wf.walk_eq_some.mpr ⟨h39, hview⟩⟩

theorem not_mapped_of_new {storage : Arena} {basePa paBits : Nat} {t : TableSet n}
    (hnew : TableSet.new storage basePa paBits = .ok t) (a : Nat) : ¬ Mapped t a := by
  have hclear : t.storage 0 (indexFor 1 a) = 0 := by
    rw [(TableSet.new_ok hnew).1]
    rfl
  rintro ⟨tr, htr⟩
  unfold TableSet.walk at htr
  split at htr
  · cases htr
  · rw [TableSet.walkFrom, hclear] at htr
    cases htr

/-- Identity mapping with exclusions, on the tables that any sequence of maps and replacements
leaves and for all lists of regions and exclusions: every round of the loop moves its cursor up to
the end of the region, and a call that returns `Ok` where no affected page was mapped has newly
mapped the bytes of the affected pages and no others, each onto itself. -/
theorem mapIdentityRegionsExcluding_exact {storage : Arena} {basePa paBits : Nat}
    {t₀ : TableSet n} (hnew : TableSet.new storage basePa paBits = .ok t₀)
    (changes : List TableSet.Change) {r e : Nat} (regions : FixedList PhysRegion r)
    (exclusions : FixedList PhysRegion e)
    (hround : ∀ excluded ∈ exclusions.entries, (alignUp excluded.endAddr pageSize).isSome)
    (writable executable : Bool) :
    (∀ cursor stop excluded, cursor < stop →
      nextExclusion exclusions.entries cursor stop = some excluded →
        cursor < min (max cursor excluded.2) stop) ∧
    ∀ t', (mapIdentityRegionsExcluding regions exclusions writable executable).run
        (t₀.runChanges changes) = .ok () t' →
      (∀ a, Affected regions.entries exclusions.entries (a / 4096) →
        ¬ Mapped (t₀.runChanges changes) a) →
      ∀ a, (¬ Mapped (t₀.runChanges changes) a ∧ Mapped t' a ↔
          Affected regions.entries exclusions.entries (a / 4096)) ∧
        (Affected regions.entries exclusions.entries (a / 4096) →
          ∃ tr, t'.walk a = .ok (some tr) ∧ IdentityAt writable executable a tr) := by
  refine ⟨fun cursor stop excluded => lt_nextExclusion, ?_⟩
  intro t' hrun hfree a
  have h := (TableSet.runChanges_keeps (TableSet.new_wf hnew) (TableSet.new_leafWords hnew)
    changes).1
  have hadded := forM_added h hrun
  have haffected := @mem_stretches regions.entries exclusions.entries hround a
  refine ⟨?_, ?_⟩
  · rw [hadded.mapped_iff h]
    constructor
    · rintro ⟨hnot, ha | hmapped⟩
      · exact haffected.mp ha
      · exact absurd hmapped hnot
    · intro ha
      exact ⟨hfree a ha, Or.inl (haffected.mpr ha)⟩
  · intro ha
    obtain ⟨tr, hview, hidentity⟩ := hadded.mapped a (haffected.mpr ha)
    exact ⟨tr, hadded.wf.walk_eq_some.mpr ⟨hadded.inside a (haffected.mpr ha), hview⟩, hidentity⟩

/-- RAM that starts inside a page. -/
def someRam : FixedList PhysRegion 4 := ⟨[⟨0x40000800, 0x3800, by decide, by decide⟩], by decide⟩

/-- Two exclusions in one page, the later one first. -/
def someExclusions : FixedList PhysRegion 4 :=
  ⟨[⟨0x40002100, 0x100, by decide, by decide⟩, ⟨0x40002000, 0x10, by decide, by decide⟩], by decide⟩

theorem mapIdentityRegionsExcluding_exact_someRam :
    ∃ t₀ t' : TableSet 3, TableSet.new (fun _ _ => 0x7ff) 0x30000000 44 = .ok t₀ ∧
      (mapIdentityRegionsExcluding someRam someExclusions true false).run (t₀.runChanges []) =
        .ok () t' ∧
      Affected someRam.entries someExclusions.entries (0x40001abc / 4096) ∧
      ¬ Affected someRam.entries someExclusions.entries (0x40002abc / 4096) ∧
      ∃ tr, t'.walk 0x40001abc = .ok (some tr) ∧ IdentityAt true false 0x40001abc tr := by
  have hnew : TableSet.new (fun _ _ => 0x7ff) 0x30000000 44 =
      .ok (TableSet.withPage (n := 3) ⟨fun _ _ => 0x7ff, 0, 0x30000000, 44⟩) := rfl
  have hround : ∀ excluded ∈ someExclusions.entries,
      (alignUp excluded.endAddr pageSize).isSome := by
    decide
  have hrun := eq_ok_of_isOk (show isOk ((mapIdentityRegionsExcluding someRam someExclusions true
    false).run (TableSet.withPage (n := 3) ⟨fun _ _ => 0x7ff, 0, 0x30000000, 44⟩)) = true by
      decide +kernel)
  have hexact := (mapIdentityRegionsExcluding_exact hnew [] someRam someExclusions hround true
    false).2 _ hrun (fun a _ => not_mapped_of_new hnew a)
  have hin : Affected someRam.entries someExclusions.entries (0x40001abc / 4096) := by
    refine ⟨⟨_, List.mem_singleton_self _, pageBytes_subset.mpr ?_⟩, ?_⟩
    · exact ⟨0x40001000, by decide, by decide, by decide⟩
    · intro excluded hmem
      apply disjoint_wholePages.mpr
      revert excluded
      decide
  have hout : ¬ Affected someRam.entries someExclusions.entries (0x40002abc / 4096) := by
    intro haffected
    refine disjoint_wholePages.mp (haffected.2 _ List.mem_cons_self) ?_
    decide
  exact ⟨_, _, hnew, hrun, hin, hout, (hexact 0x40001abc).2 hin⟩

end Tvisor.Mm
