/-
# Tvisor.VmCtl.Regions -- the IPA regions of a VM in ascending order

`ipa_regions` goes through the entries of a VM without a temporary collection: for each result it
scans all of them for the least start above the previous one. Entries are kept in the order in which
they were allocated, so the order comes from the scans alone. That no region is passed over or comes
twice rests on an invariant kept elsewhere: `vm_mem_alloc` lets no two ranges overlap, so no two
starts are equal.
-/
import Tvisor.Lib.Selection
import Tvisor.VmCtl.Mapping

namespace Tvisor.VmCtl

open Words GuestStage2 Mm Selection

/-! ## Regions -/

/-- The region type of `vmctl.rs`, which cannot be empty or end past the last word. -/
structure IpaRegion where
  start : Nat
  size : Nat
  deriving DecidableEq, Repr

def IpaRegion.new (start size : Nat) : Option IpaRegion :=
  if size = 0 ∨ checkedAdd start size = none then none else some { start, size }

/-- The region that the iterator makes of an entry. -/
def VmMem.ipaRegion : VmMem → Option IpaRegion
  | .ipaPa r => IpaRegion.new r.ipa r.size
  | .ipaOnly r => IpaRegion.new r.base r.size
  | .paOnly _ => none

/-! ## The iterator -/

structure IpaRegionsIter where
  entries : List VmMem
  previousStart : Option Nat

namespace IpaRegionsIter

/-- The scan of one `next`. -/
def scan (previousStart : Option Nat) (entries : List VmMem) : Option IpaRegion :=
  entries.foldl (fun next entry =>
    match entry.ipaRegion with
    | none => next
    | some region =>
        if (∀ previous ∈ previousStart, previous < region.start) ∧
            ∀ candidate ∈ next, region.start < candidate.start then some region
        else next) none

def next (iter : IpaRegionsIter) : Option IpaRegion × IpaRegionsIter :=
  match scan iter.previousStart iter.entries with
  | some region => (some region, { iter with previousStart := some region.start })
  | none => (none, iter)

end IpaRegionsIter

def ipaRegions (vmMem : List VmMem) : IpaRegionsIter := { entries := vmMem, previousStart := none }

/-! ## Order -/

/-- A scan over the entries is one over their regions. -/
theorem scan_eq_leastAbove (previousStart : Option Nat) (entries : List VmMem) :
    IpaRegionsIter.scan previousStart entries =
      leastAbove IpaRegion.start previousStart (entries.filterMap VmMem.ipaRegion) := by
  rw [← foldl_eq_leastAbove, List.foldl_filterMap]
  refine congrArg (fun f => entries.foldl f none) (funext fun best => funext fun entry => ?_)
  cases entry.ipaRegion <;> rfl

/-- The iterator follows the enumeration of the regions. -/
theorem next_eq (entries : List VmMem) (previous : Option Nat) :
    IpaRegionsIter.next ⟨entries, previous⟩ =
      ((Selection.next IpaRegion.start (entries.filterMap VmMem.ipaRegion) previous).1,
        ⟨entries, (Selection.next IpaRegion.start (entries.filterMap VmMem.ipaRegion)
          previous).2⟩) := by
  rw [IpaRegionsIter.next, Selection.next, scan_eq_leastAbove]
  cases leastAbove IpaRegion.start previous (entries.filterMap VmMem.ipaRegion) <;> rfl

/-- The IPA region of an entry, as the entry has it. -/
def VmMem.extent : VmMem → Option IpaRegion
  | .ipaPa r => some ⟨r.ipa, r.size⟩
  | .ipaOnly r => some ⟨r.base, r.size⟩
  | .paOnly _ => none

/-- A well-formed entry is not left out. -/
theorem VmMem.Wf.ipaRegion_eq {m : VmMem} (h : m.Wf) : m.ipaRegion = m.extent := by
  have hnew : ∀ start size, 0 < size → start + size ≤ 2 ^ 39 →
      IpaRegion.new start size = some ⟨start, size⟩ := by
    intro start size hpos hle
    have hadd : checkedAdd start size = some (start + size) :=
      checkedAdd_of_lt (by unfold wordBound; omega)
    rw [IpaRegion.new, hadd, if_neg (by simp; omega)]
  rcases m with r | r | r
  · obtain ⟨-, -, -, hpos, hle⟩ := h
    exact hnew r.base r.size hpos hle
  · obtain ⟨-, -, -, hpos, hle, -⟩ := h
    exact hnew r.ipa r.size hpos hle
  · rfl

theorem State.Wf.filterMap_ipaRegion {s : State} (h : s.Wf) :
    s.vmMem.filterMap VmMem.ipaRegion = s.vmMem.filterMap VmMem.extent :=
  List.filterMap_congr fun m hm => (h.entries m hm).ipaRegion_eq

theorem VmMem.Wf.start_inIpa {m : VmMem} (h : m.Wf) {region : IpaRegion}
    (hregion : m.extent = some region) : m.InIpa region.start := by
  cases m with
  | ipaOnly r | ipaPa r =>
    obtain ⟨-, -, -, hpos, -⟩ := h
    cases hregion
    exact ⟨le_rfl, Nat.lt_add_of_pos_right hpos⟩
  | paOnly r => cases hregion

/-- Ranges that do not overlap have distinct starts. -/
theorem State.Wf.starts_nodup {s : State} (h : s.Wf) :
    ((s.vmMem.filterMap VmMem.extent).map IpaRegion.start).Nodup := by
  rw [List.Nodup, List.pairwise_map, List.pairwise_filterMap]
  refine h.apart.imp_of_mem ?_
  intro m m' hm hm' hapart region hregion region' hregion' heq
  have hin := (h.entries m hm).start_inIpa hregion
  have hin' := (h.entries m' hm').start_inIpa hregion'
  rw [← heq] at hin'
  exact hapart region.start ⟨hin, hin'⟩

/-- In every state that calls can lead to, the iteration of `ipa_regions` ends; it gives out the
range of every entry that has one, once, and nothing else, in strictly ascending order. -/
theorem ipaRegions_in_order (memory : Memory) (pages : GlobalPageAllocator) (ops : List Op) :
    let vmMem := (session memory pages ops).state.vmMem
    ∃ items, Yields IpaRegionsIter.next (ipaRegions vmMem) items ∧
      (∀ items', Yields IpaRegionsIter.next (ipaRegions vmMem) items' → items' = items) ∧
      items.Perm (vmMem.filterMap VmMem.extent) ∧
      items.Pairwise fun a b => a.start < b.start := by
  intro vmMem
  have hwf := (session_inv memory pages ops).wf
  obtain ⟨items, hyields, hperm, hsorted⟩ :=
    yields_leastAbove hwf.starts_nodup none
  have hall : (vmMem.filterMap VmMem.extent).filter (IsAbove IpaRegion.start none) =
      vmMem.filterMap VmMem.extent := List.filter_eq_self.mpr fun _ _ => by simp [IsAbove]
  have hruns : Yields IpaRegionsIter.next (ipaRegions vmMem) items := by
    have hstep : ∀ previous, IpaRegionsIter.next ⟨vmMem, previous⟩ = _ := next_eq vmMem
    rw [hwf.filterMap_ipaRegion] at hstep
    exact hyields.follow (IpaRegionsIter.mk vmMem) hstep
  exact ⟨items, hruns, fun _ h => h.unique hruns, hall ▸ hperm, hsorted⟩

end Tvisor.VmCtl
