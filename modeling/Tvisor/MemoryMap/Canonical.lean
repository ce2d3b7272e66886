/-
# Tvisor.MemoryMap.Canonical -- region lists are canonical

A region list is filled by one insertion after the other, some of which may be refused. Whatever
the capacity and the order, the list stays the canonical form of the union of the accepted regions,
and the canonical form of a union is unique. So it does not matter in which order regions arrive,
as long as all of them find a place.
-/
import Tvisor.MemoryMap.Exact

namespace Tvisor

open SystemInfo Fallible Intervals

variable {regions : List PhysRegion}

namespace MemoryMap

variable {n : Nat}

/-! ## Filling a list -/

/-- A list and the regions that have been accepted, newest first. -/
structure Filling (n : Nat) where
  list : FixedList PhysRegion n
  accepted : List PhysRegion

def Filling.insert (filling : Filling n) (region : PhysRegion) : Filling n :=
  match (insertSortedMerged region).run filling.list with
  | .ok _ list => ⟨list, region :: filling.accepted⟩
  | .error _ list => ⟨list, filling.accepted⟩

/-- Every region is offered in turn to the list, which is empty at first. -/
def fill (n : Nat) (regions : List PhysRegion) : Filling n :=
  regions.foldl Filling.insert ⟨.empty, []⟩

/-- The list is the canonical form of the regions. -/
structure Canonical (list : FixedList PhysRegion n) (regions : List PhysRegion) : Prop where
  sorted : list.entries.Pairwise fun a b => a.start < b.start
  apart : list.entries.Pairwise fun a b => a.overlaps b = false ∧ a.isAdjacent b = false
  union : ∀ address, (∃ entry ∈ list.entries, entry.containsAddress address) ↔
    ∃ region ∈ regions, region.containsAddress address
  single : ∀ region ∈ regions, ∃ entry ∈ list.entries, entry.containsRegion region

/-! ## In terms of intervals -/

/-- The two tests fail exactly where the intervals do not touch. -/
theorem not_touches_iff {a b : PhysRegion} :
    ¬ Touches a b ↔ a.overlaps b = false ∧ a.isAdjacent b = false := by
  rw [← PhysRegion.overlaps_or_isAdjacent, Bool.not_eq_true, Bool.or_eq_false_iff]

theorem containsAddress_iff {region : PhysRegion} {address : Nat} :
    region.containsAddress address = true ↔ Within address region := by
  simp [PhysRegion.containsAddress, Within]

/-- Separated entries that cover what the regions cover. -/
structure Covers (list : FixedList PhysRegion n) (regions : List PhysRegion) : Prop where
  separated : Separated list.entries
  cover : ∀ x, x ∈ Intervals.cover list.entries ↔ x ∈ Intervals.cover regions

theorem Covers.canonical {list : FixedList PhysRegion n} (h : Covers list regions) :
    Canonical list regions where
  sorted := h.separated.imp fun {a b} hab => a.start_lt_endAddr.trans hab
  apart := h.separated.imp fun {a b} hab => not_touches_iff.mp
    fun ht => absurd hab (not_lt.mpr ht.2)
  union address := by
    simp only [containsAddress_iff]
    exact h.cover address
  single region hregion := by
    obtain ⟨entry, hentry, hlo, hhi⟩ := exists_span_of_subset_cover h.separated
      region.start_lt_endAddr fun z hlo hhi => (h.cover z).mpr ⟨region, hregion, hlo, hhi⟩
    refine ⟨entry, hentry, ?_⟩
    simp only [PhysRegion.containsRegion, Bool.and_eq_true, decide_eq_true_eq]
    exact ⟨hlo, hhi⟩

theorem covers_empty : Covers (.empty : FixedList PhysRegion n) [] := ⟨.nil, fun _ => .rfl⟩

/-- One region more. -/
theorem Covers.insert {list list' : FixedList PhysRegion n} {region : PhysRegion}
    (h : Covers list regions) (hrun : (insertSortedMerged region).run list = .ok () list') :
    Covers list' (region :: regions) := by
  have hspec := insertSortedMerged_spec h.separated region
  rw [hrun] at hspec
  obtain ⟨hsep, hcover⟩ := hspec
  refine ⟨hsep, fun x => ?_⟩
  rw [hcover, h.cover, mem_cover_cons]

theorem Covers.fillInsert {filling : Filling n} (h : Covers filling.list filling.accepted)
    (region : PhysRegion) :
    Covers (filling.insert region).list (filling.insert region).accepted := by
  have hspec := insertSortedMerged_spec h.separated region
  unfold Filling.insert
  cases hrun : (insertSortedMerged region).run filling.list with
  | ok _ list' => exact h.insert hrun
  | error e list' =>
    rw [hrun] at hspec
    obtain ⟨rfl, _⟩ := hspec
    exact h

theorem covers_fill (n : Nat) (regions : List PhysRegion) :
    Covers (fill n regions).list (fill n regions).accepted :=
  foldl_invariant Filling.insert (fun filling => Covers filling.list filling.accepted)
    (fun _ region h => h.fillInsert region) regions covers_empty

/-- Regions that have all been accepted. -/
theorem Covers.forM {list list' : FixedList PhysRegion n} {before : List PhysRegion}
    (h : Covers list before) (hrun : (regions.forM insertSortedMerged).run list = .ok () list') :
    Covers list' (regions.reverse ++ before) := by
  induction regions generalizing list before with
  | nil =>
    cases hrun
    exact h
  | cons region rest ih =>
    obtain ⟨mid, hfirst, hrest⟩ := run_forM_cons_eq_ok.mp hrun
    rw [List.reverse_cons, List.append_assoc]
    exact ih (h.insert hfirst) hrest

/-! ## Order independence -/

theorem region_ext {a b : PhysRegion} (hstart : a.start = b.start) (hend : a.endAddr = b.endAddr) :
    a = b := by
  obtain ⟨start, size, hpos, hlt⟩ := a
  obtain ⟨start', size', hpos', hlt'⟩ := b
  obtain rfl : start = start' := hstart
  obtain rfl : size = size' := Nat.add_left_cancel hend
  rfl

theorem Covers.unique {list list' : FixedList PhysRegion n} {regions' : List PhysRegion}
    (h : Covers list regions) (h' : Covers list' regions')
    (hsame : ∀ r, r ∈ regions ↔ r ∈ regions') :
    list = list' := by
  refine FixedList.ext (h.separated.ext (fun _ _ => region_ext) h'.separated fun x => ?_)
  rw [h.cover, h'.cover]
  constructor
  · rintro ⟨r, hr, hx⟩
    exact ⟨r, (hsame r).mp hr, hx⟩
  · rintro ⟨r, hr, hx⟩
    exact ⟨r, (hsame r).mpr hr, hx⟩

/-! ## Region lists -/

/-- The error is `Capacity` where the list is full and the region meets no entry; otherwise the
region is accepted. -/
theorem insert_capacity_iff {list : FixedList PhysRegion n} (hsep : Separated list.entries)
    (region : PhysRegion) :
    if list.isFull ∧ ∀ entry ∈ list.entries, entry.overlaps region = false ∧
        entry.isAdjacent region = false
    then (insertSortedMerged region).run list = .error (.capacity n) list
    else ∃ list', (insertSortedMerged region).run list = .ok () list' := by
  obtain ⟨before, after, _, _, _, hrun⟩ := insertSortedMerged_run list region hsep
  have hiff : (list.isFull ∧ ∀ entry ∈ list.entries, entry.overlaps region = false ∧
      entry.isAdjacent region = false) ↔ list.len = n ∧ Isolated region list.entries := by
    simp only [FixedList.isFull, beq_iff_eq, Isolated, not_touches_iff]
  by_cases hfull : list.len = n ∧ Isolated region list.entries
  · rw [if_pos hfull] at hrun
    rw [if_pos (hiff.mpr hfull)]
    exact hrun
  · rw [if_neg hfull] at hrun
    rw [if_neg (mt hiff.mp hfull)]
    obtain ⟨list', hok, _⟩ := hrun
    exact ⟨list', hok⟩

/-- Region lists are canonical. Whatever has been offered to a list of any capacity, it is the
canonical form of what it has accepted; the next region is refused exactly where the list is full
and no entry overlaps or adjoins it, and then nothing changes; and two orders of the same regions
in which every insertion succeeds give the same list. -/
theorem fill_canonical (n : Nat) (regions : List PhysRegion) :
    Canonical (fill n regions).list (fill n regions).accepted ∧
    (∀ region, if (fill n regions).list.isFull ∧ ∀ entry ∈ (fill n regions).list.entries,
        entry.overlaps region = false ∧ entry.isAdjacent region = false
      then (insertSortedMerged region).run (fill n regions).list =
        .error (.capacity n) (fill n regions).list
      else ∃ list', (insertSortedMerged region).run (fill n regions).list = .ok () list') ∧
    ∀ (regions' : List PhysRegion) (list list' : FixedList PhysRegion n), regions.Perm regions' →
      (regions.forM insertSortedMerged).run .empty = .ok () list →
      (regions'.forM insertSortedMerged).run .empty = .ok () list' → list = list' := by
  have hcovers := covers_fill n regions
  refine ⟨hcovers.canonical, insert_capacity_iff hcovers.separated, ?_⟩
  intro regions' list list' hperm hrun hrun'
  refine (covers_empty.forM hrun).unique (covers_empty.forM hrun') fun r => ?_
  simp [hperm.mem_iff]

/-- Two regions and the one between them, in two orders. -/
theorem fill_canonical_threeRegions :
    let low : PhysRegion := ⟨1, 1, by decide, by decide⟩
    let middle : PhysRegion := ⟨2, 1, by decide, by decide⟩
    let high : PhysRegion := ⟨3, 1, by decide, by decide⟩
    let whole : FixedList PhysRegion 2 := ⟨[⟨1, 3, by decide, by decide⟩], by decide⟩
    ([low, high, middle].forM insertSortedMerged).run .empty = .ok () whole ∧
      ∀ list', ([middle, high, low].forM insertSortedMerged).run .empty = .ok () list' →
        whole = list' := by
  intro low middle high whole
  have hrun : ([low, high, middle].forM insertSortedMerged).run .empty = .ok () whole := rfl
  have hperm : [low, high, middle].Perm [middle, high, low] := by decide
  refine ⟨hrun, fun list' hrun' => ?_⟩
  exact (fill_canonical 2 [low, high, middle]).2.2 _ whole list' hperm hrun hrun'

end MemoryMap

end Tvisor
