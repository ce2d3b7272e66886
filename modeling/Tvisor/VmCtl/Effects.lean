/-
# Tvisor.VmCtl.Effects -- the four things a call can do to a VM

Whatever a call of `VmCtl` does before it returns or fails is a sequence of four kinds of change: an
entry without backing is added, an entry is added with freshly taken and cleared pages, a fresh page
is cleared and linked as a table, a leaf is stored in an entry that was not valid. `Effect` is that
list, with the facts the code has established when it makes the change.

`Wf` is the invariant of a VM. It holds of the entries (usages differ, IPA ranges are apart), of the
pages behind them (no page twice, all of them in use, within the budget) and of the tables (a tree,
inside the tracked table pages). Each effect keeps it, from any contents of memory and of the
allocator: recycled pages are cleared before they are linked, and a page that is in use is never
handed out again.
-/
import Tvisor.VmCtl

namespace Tvisor.VmCtl

open Fallible Page Words GuestStage2 Mm PageAllocator
open El2Stage1 (route)

/-! ## Entries -/

namespace VmMem

/-- The pages behind an entry. -/
def pageList : VmMem → List Nat
  | .ipaOnly _ => []
  | .ipaPa r => List.range' (r.pa / 4096) (r.size / 4096)
  | .paOnly r => r.pa.map (· / 4096)

/-- The IPA range of an entry. -/
def InIpa : VmMem → Nat → Prop
  | .ipaOnly r, ipa => r.base ≤ ipa ∧ ipa < r.base + r.size
  | .ipaPa r, ipa => r.ipa ≤ ipa ∧ ipa < r.ipa + r.size
  | .paOnly _, _ => False

/-- Bounds are whole pages inside the IPA space, and tables are kept by their pages. -/
def Wf : VmMem → Prop
  | .ipaOnly r => r.usage ≠ .guestStage2PageTable ∧ r.base % 4096 = 0 ∧ r.size % 4096 = 0 ∧
      0 < r.size ∧ r.base + r.size ≤ 2 ^ 39
  | .ipaPa r => r.usage ≠ .guestStage2PageTable ∧ r.ipa % 4096 = 0 ∧ r.size % 4096 = 0 ∧
      0 < r.size ∧ r.ipa + r.size ≤ 2 ^ 39 ∧ r.pa % 4096 = 0
  | .paOnly r => r.usage = .guestStage2PageTable ∧ r.pa ≠ [] ∧ ∀ a ∈ r.pa, a % 4096 = 0

theorem length_pageList (m : VmMem) : m.pageList.length = m.physicalPages := by
  rcases m with r | r | r
  · rfl
  · exact List.length_range'
  · exact List.length_map _

end VmMem

def trackedPages (vmMem : List VmMem) : List Nat := vmMem.flatMap VmMem.pageList

theorem length_trackedPages (vmMem : List VmMem) :
    (trackedPages vmMem).length = allocatedPhysicalPages vmMem := by
  unfold trackedPages allocatedPhysicalPages
  rw [List.length_flatMap]
  congr 1
  exact List.map_congr_left fun m _ => m.length_pageList

/-- The addresses in the page-table entry. -/
def tableAddresses (vmMem : List VmMem) : List Nat :=
  match findUsage vmMem .guestStage2PageTable with
  | some (.paOnly r) => r.pa
  | _ => []

def tablePages (vmMem : List VmMem) : List Nat := (tableAddresses vmMem).map (· / 4096)

theorem root_eq_head (vmMem : List VmMem) :
    guestStage2PageTableRoot vmMem = (tableAddresses vmMem).head? := by
  unfold guestStage2PageTableRoot tableAddresses
  rcases findUsage vmMem .guestStage2PageTable with _ | (r | r | r) <;> rfl

variable {vmMem : List VmMem} {m : VmMem}

theorem findUsage_some {usage : VmMemUsage} (h : findUsage vmMem usage = some m) :
    m ∈ vmMem ∧ m.usage = usage :=
  ⟨List.mem_of_find?_eq_some h,
    of_decide_eq_true (List.find?_some (p := fun m : VmMem => m.usage = usage) h)⟩

theorem find_of_mem_tableAddresses {a : Nat} (h : a ∈ tableAddresses vmMem) :
    ∃ r, findUsage vmMem .guestStage2PageTable = some (.paOnly r) ∧ a ∈ r.pa := by
  unfold tableAddresses at h
  split at h
  · rename_i r hfind
    exact ⟨r, hfind, h⟩
  · cases h

theorem mem_tableAddresses {a : Nat} (h : a ∈ tableAddresses vmMem) :
    ∃ r, VmMem.paOnly r ∈ vmMem ∧ r.usage = .guestStage2PageTable ∧ a ∈ r.pa := by
  obtain ⟨r, hfind, ha⟩ := find_of_mem_tableAddresses h
  exact ⟨r, (findUsage_some hfind).1, (findUsage_some hfind).2, ha⟩

theorem tablePages_subset {p : Nat} (h : p ∈ tablePages vmMem) :
    p ∈ trackedPages vmMem := by
  obtain ⟨a, ha, rfl⟩ := List.mem_map.mp h
  obtain ⟨r, hr, -, har⟩ := mem_tableAddresses ha
  exact List.mem_flatMap.mpr ⟨_, hr, List.mem_map_of_mem har⟩

/-! ## Adding to the entries -/

/-- What the checks of a request establish. -/
structure NewEntry (vmMem : List VmMem) (m : VmMem) : Prop where
  wf : m.Wf
  usage_new : ∀ m' ∈ vmMem, m'.usage ≠ m.usage
  apart : ∀ m' ∈ vmMem, ∀ ipa, ¬ (m'.InIpa ipa ∧ m.InIpa ipa)

theorem trackedPages_append (vmMem : List VmMem) (m : VmMem) :
    trackedPages (vmMem ++ [m]) = trackedPages vmMem ++ m.pageList := by
  unfold trackedPages
  rw [List.flatMap_append, List.flatMap_singleton]

/-- A new entry is the page-table entry or leaves that one alone. -/
theorem tableAddresses_append (h : NewEntry vmMem m) :
    tableAddresses (vmMem ++ [m]) = tableAddresses vmMem ∨
      tableAddresses vmMem = [] ∧ ∃ r, m = .paOnly r ∧ tableAddresses (vmMem ++ [m]) = r.pa := by
  unfold tableAddresses findUsage
  rw [List.find?_append]
  rcases hfind : vmMem.find? fun m => m.usage = .guestStage2PageTable with _ | m'
  · by_cases husage : m.usage = .guestStage2PageTable
    · right
      rcases m with r | r | r
      · exact absurd husage h.wf.1
      · exact absurd husage h.wf.1
      · refine ⟨by rw [hfind], r, rfl, ?_⟩
        rw [hfind, Option.none_or, List.find?_cons]
        simp only [husage, decide_true]
    · left
      rw [hfind, Option.none_or, List.find?_cons]
      simp only [husage, decide_false, List.find?_nil]
  · left
    rw [hfind]
    rfl

/-- Growing the tables rewrites one entry in place. -/
theorem pushTablePage_split {r : PaRegion} (a : Nat)
    (h : findUsage vmMem .guestStage2PageTable = some (.paOnly r)) :
    ∃ pre post, vmMem = pre ++ .paOnly r :: post ∧
      pushTablePage a vmMem = pre ++ .paOnly { r with pa := r.pa ++ [a] } :: post ∧
      ∀ m ∈ pre, m.usage ≠ .guestStage2PageTable := by
  induction vmMem with
  | nil => cases h
  | cons m rest ih =>
    unfold findUsage at h
    rw [List.find?_cons] at h
    by_cases husage : m.usage = .guestStage2PageTable
    · simp only [husage, decide_true, Option.some.injEq] at h
      subst h
      refine ⟨[], rest, rfl, ?_, List.forall_mem_nil _⟩
      unfold pushTablePage
      rw [if_pos husage]
      rfl
    · simp only [husage, decide_false] at h
      obtain ⟨pre, post, hrest, hpush, hpre⟩ := ih h
      refine ⟨m :: pre, post, by rw [hrest]; rfl, ?_, List.forall_mem_cons.mpr ⟨husage, hpre⟩⟩
      unfold pushTablePage
      rw [if_neg husage, hpush]
      rfl

section Push

variable {r : PaRegion}
  (h : findUsage vmMem .guestStage2PageTable = some (.paOnly r)) (a : Nat)
include h

theorem tableAddresses_push : tableAddresses (pushTablePage a vmMem) = r.pa ++ [a] := by
  obtain ⟨pre, post, -, hpush, hpre⟩ := pushTablePage_split a h
  have husage : r.usage = .guestStage2PageTable := (findUsage_some h).2
  unfold tableAddresses findUsage
  have hnone : pre.find? (fun m => m.usage = .guestStage2PageTable) = none := by
    rw [List.find?_eq_none]
    intro m hm
    simp only [hpre m hm, decide_false, Bool.false_eq_true, not_false_eq_true]
  rw [hpush, List.find?_append, hnone, Option.none_or, List.find?_cons]
  simp only [VmMem.usage, husage, decide_true]

theorem trackedPages_push :
    (trackedPages (pushTablePage a vmMem)).Perm (trackedPages vmMem ++ [a / 4096]) := by
  obtain ⟨pre, post, hsplit, hpush, -⟩ := pushTablePage_split a h
  rw [hpush, hsplit]
  unfold trackedPages
  simp only [List.flatMap_append, List.flatMap_cons, VmMem.pageList, List.map_append, List.map_cons,
    List.map_nil, List.append_assoc]
  refine List.Perm.append_left _ (List.Perm.append_left _ ?_)
  exact List.perm_append_comm

theorem usages_push : (pushTablePage a vmMem).map VmMem.usage = vmMem.map VmMem.usage := by
  obtain ⟨pre, post, hsplit, hpush, -⟩ := pushTablePage_split a h
  rw [hpush, hsplit]
  simp only [List.map_append, List.map_cons, VmMem.usage]

theorem mem_push (hm : m ∈ pushTablePage a vmMem) :
    m ∈ vmMem ∨ m = .paOnly { r with pa := r.pa ++ [a] } := by
  obtain ⟨pre, post, hsplit, hpush, -⟩ := pushTablePage_split a h
  rw [hpush] at hm
  rw [hsplit]
  simp only [List.mem_append, List.mem_cons] at hm ⊢
  tauto

theorem ipaPa_mem_push {region : IpaPaRegion} (hm : VmMem.ipaPa region ∈ vmMem) :
    VmMem.ipaPa region ∈ pushTablePage a vmMem := by
  obtain ⟨pre, post, hsplit, hpush, -⟩ := pushTablePage_split a h
  rw [hsplit] at hm
  rw [hpush]
  simp only [List.mem_append, List.mem_cons, reduceCtorEq, false_or] at hm ⊢
  exact hm

/-- Tables take no IPA. -/
theorem apart_push
    (hapart : vmMem.Pairwise fun m m' => ∀ ipa, ¬ (m.InIpa ipa ∧ m'.InIpa ipa)) :
    (pushTablePage a vmMem).Pairwise fun m m' => ∀ ipa, ¬ (m.InIpa ipa ∧ m'.InIpa ipa) := by
  obtain ⟨pre, post, hsplit, hpush, -⟩ := pushTablePage_split a h
  rw [hsplit] at hapart
  rw [hpush]
  simp only [List.pairwise_append, List.pairwise_cons, List.forall_mem_cons] at hapart ⊢
  obtain ⟨hpre, ⟨-, hpost⟩, hcross⟩ := hapart
  refine ⟨hpre, ⟨fun _ _ _ hin => hin.1, hpost⟩, fun m hm => ⟨fun _ hin => hin.2, ?_⟩⟩
  exact (hcross m hm).2

end Push

/-! ## Tables of a state -/

variable {s : State} {root : Nat} {path : List (Fin 512)}

namespace State

def rootPage (s : State) : Option Nat := (tablePages s.vmMem).head?

/-- The table page reached from the root along a path of indices. -/
def reach (s : State) (path : List (Fin 512)) : Option Nat :=
  s.rootPage.bind fun root => Radix.follow decode s.memory.tables 0 root path

/-- The valid level-3 word a walk of the IPA ends at. -/
def leafWord (s : State) (ipa : Nat) : Option Nat :=
  s.rootPage.bind fun root =>
    (Radix.lookup decode s.memory.tables 0 root (route 3 ipa)).map Prod.snd

/-- The invariant of a VM. -/
structure Wf (s : State) : Prop where
  usages : (s.vmMem.map VmMem.usage).Nodup
  entries : ∀ m ∈ s.vmMem, m.Wf
  apart : s.vmMem.Pairwise fun m m' => ∀ ipa, ¬ (m.InIpa ipa ∧ m'.InIpa ipa)
  nodup : (trackedPages s.vmMem).Nodup
  owned : ∀ p ∈ trackedPages s.vmMem,
    p ∈ s.pages.allocator.managed.pageSet ∧ p ∈ s.pages.allocator.inUse.pageSet
  budget : (trackedPages s.vmMem).length ≤ maxGuestMemPages
  tree : ∀ root, s.rootPage = some root → Radix.Tree decode s.memory.tables root
  reach_tracked : ∀ path h, s.reach path = some h → h ∈ tablePages s.vmMem

theorem fresh_wf (memory : Memory) (pages : GlobalPageAllocator) : (fresh memory pages).Wf where
  usages := List.nodup_nil
  entries := List.forall_mem_nil _
  apart := List.Pairwise.nil
  nodup := List.nodup_nil
  owned := List.forall_mem_nil _
  budget := Nat.zero_le _
  tree := fun _ hroot => nomatch hroot
  reach_tracked := fun _ _ hreach => nomatch hreach

theorem reach_eq (hroot : s.rootPage = some root) (path : List (Fin 512)) :
    s.reach path = Radix.follow decode s.memory.tables 0 root path := by
  unfold reach
  rw [hroot, Option.bind_some]

theorem reach_some {h : Nat} (hp : s.reach path = some h) :
    ∃ root, s.rootPage = some root ∧
      Radix.follow decode s.memory.tables 0 root path = some h :=
  Option.bind_eq_some_iff.mp hp

theorem leafWord_eq (hroot : s.rootPage = some root) (ipa : Nat) :
    s.leafWord ipa =
      (Radix.lookup decode s.memory.tables 0 root (route 3 ipa)).map Prod.snd := by
  unfold leafWord
  rw [hroot, Option.bind_some]

theorem findTables (hroot : s.rootPage = some root) :
    ∃ r, findUsage s.vmMem .guestStage2PageTable = some (.paOnly r) := by
  obtain ⟨a, ha, -⟩ := List.mem_map.mp (List.mem_of_head? hroot)
  obtain ⟨r, hfind, -⟩ := find_of_mem_tableAddresses ha
  exact ⟨r, hfind⟩

/-- A page that the allocator still has is behind no entry. -/
theorem Wf.unused_not_tracked (h : s.Wf) {p : Nat} (hun : s.pages.allocator.isUnused p = true) :
    p ∉ trackedPages s.vmMem :=
  fun hp => (isUnused_iff.mp hun).2 (h.owned p hp).2

end State

/-! ## Effects -/

open State

/-- The changes a call makes. A leaf is stored for an IPA page and a physical page that the call is
allowed to bring together. -/
inductive Effect (allowed : Nat → Nat → Prop) (s : State) : State → Prop
  | bare (m : VmMem) (hnew : NewEntry s.vmMem m) (hbare : ∃ r, m = .ipaOnly r) :
      Effect allowed s { s with vmMem := s.vmMem ++ [m] }
  | backed (m : VmMem) (first count : Nat) (hnew : NewEntry s.vmMem m)
      (hpages : m.pageList = List.range' first count) (hready : Ready s.pages)
      (hrun : IsRun s.pages.allocator.isUnused count first)
      (hbudget : (trackedPages s.vmMem).length + count ≤ maxGuestMemPages) :
      Effect allowed s
        { vmMem := s.vmMem ++ [m]
          memory := s.memory.writeZeros (4096 * first) (4096 * count)
          pages := takePages s.pages first count }
  | table (path : List (Fin 512)) (i : Fin 512) (h page : Nat) (hdepth : path.length < 2)
      (hreach : s.reach path = some h) (hold : s.memory.tables h i &&& valid = 0)
      (hready : Ready s.pages) (hun : s.pages.allocator.isUnused page = true)
      (hpage : page < 2 ^ 20)
      (hbudget : (trackedPages s.vmMem).length < maxGuestMemPages) :
      Effect allowed s
        { vmMem := pushTablePage (4096 * page) s.vmMem
          memory := (s.memory.writeZeros (4096 * page) 4096).setEntry (4096 * h) i
            (tableDescriptor (4096 * page))
          pages := takePages s.pages page 1 }
  | leaf (ipa pa h w : Nat) (hipa : ipa < 2 ^ 39) (halign : ipa % 4096 = 0)
      (hreach : s.reach (route 2 ipa) = some h)
      (hold : s.memory.tables h (tableIndex l3Shift ipa) &&& valid = 0)
      (hvalid : w &&& valid ≠ 0) (haddress : w &&& addressMask = pa) (hallowed : allowed ipa pa) :
      Effect allowed s
        { s with memory := s.memory.setEntry (4096 * h) (tableIndex l3Shift ipa) w }

variable {allowed : Nat → Nat → Prop} {s' : State}

/-- Every effect takes a run of unused pages, possibly empty, and tracks exactly those. -/
theorem Effect.takes (h : s.Wf) (he : Effect allowed s s') :
    ∃ first count, (count = 0 ∨ Ready s.pages) ∧ IsRun s.pages.allocator.isUnused count first ∧
      s'.pages = takePages s.pages first count ∧
      (trackedPages s'.vmMem).Perm (trackedPages s.vmMem ++ List.range' first count) ∧
      (trackedPages s.vmMem).length + count ≤ maxGuestMemPages := by
  rcases he with ⟨m, hnew, r, rfl⟩ | ⟨m, first, count, hnew, hpages, hready, hrun, hbudget⟩ |
    ⟨path, i, t, page, hdepth, hreach, hold, hready, hun, hpage, hbudget⟩ | ⟨ipa, pa, t, w⟩
  · refine ⟨0, 0, .inl rfl, fun i _ hi => absurd hi (Nat.not_lt_zero i), rfl, ?_, h.budget⟩
    show (trackedPages (s.vmMem ++ [_])).Perm _
    rw [trackedPages_append]
    rfl
  · refine ⟨first, count, .inr hready, hrun, rfl, ?_, hbudget⟩
    show (trackedPages (s.vmMem ++ [m])).Perm _
    rw [trackedPages_append, hpages]
  · obtain ⟨root, hroot, -⟩ := reach_some hreach
    obtain ⟨r, hfind⟩ := findTables hroot
    refine ⟨page, 1, .inr hready, isRun_one hun, rfl, ?_, hbudget⟩
    have hpush := trackedPages_push hfind (4096 * page)
    rw [Nat.mul_div_cancel_left page (by decide)] at hpush
    exact hpush
  · exact ⟨0, 0, .inl rfl, fun i _ hi => absurd hi (Nat.not_lt_zero i), rfl, by simp, h.budget⟩

theorem inUse_takePages {g : GlobalPageAllocator} {first count : Nat}
    (hrun : IsRun g.allocator.isUnused count first) :
    (takePages g first count).allocator.inUse.pageSet =
      g.allocator.inUse.pageSet ∪ Finset.Ico first (first + count) := inUse_takeRun hrun

/-- The page side of the invariant. -/
theorem Effect.pages_wf (h : s.Wf) (he : Effect allowed s s') :
    (trackedPages s'.vmMem).Nodup ∧
      (∀ p ∈ trackedPages s'.vmMem,
        p ∈ s'.pages.allocator.managed.pageSet ∧ p ∈ s'.pages.allocator.inUse.pageSet) ∧
      (trackedPages s'.vmMem).length ≤ maxGuestMemPages := by
  obtain ⟨first, count, -, hrun, hpages, hperm, hbudget⟩ := he.takes h
  refine ⟨?_, ?_, ?_⟩
  · rw [hperm.nodup_iff, List.nodup_append']
    refine ⟨h.nodup, List.nodup_range' 1, ?_⟩
    intro p hp hrange
    obtain ⟨h1, h2⟩ := List.mem_range'_1.mp hrange
    exact h.unused_not_tracked (hrun p h1 h2) hp
  · intro p hp
    rw [hpages, inUse_takePages hrun, Finset.mem_union, Finset.mem_Ico]
    rcases List.mem_append.mp (hperm.mem_iff.mp hp) with hold | hrange
    · exact ⟨(h.owned p hold).1, .inl (h.owned p hold).2⟩
    · exact ⟨(run_managed hrun p hrange).1, .inr (List.mem_range'_1.mp hrange)⟩
  · rw [hperm.length_eq, List.length_append, List.length_range']
    exact hbudget

/-- The entry side of the invariant. -/
theorem Effect.entries_wf (h : s.Wf) (he : Effect allowed s s') :
    (s'.vmMem.map VmMem.usage).Nodup ∧ (∀ m ∈ s'.vmMem, m.Wf) ∧
      s'.vmMem.Pairwise fun m m' => ∀ ipa, ¬ (m.InIpa ipa ∧ m'.InIpa ipa) := by
  have happend : ∀ m, NewEntry s.vmMem m → ((s.vmMem ++ [m]).map VmMem.usage).Nodup ∧
      (∀ m' ∈ s.vmMem ++ [m], m'.Wf) ∧
      (s.vmMem ++ [m]).Pairwise fun m m' => ∀ ipa, ¬ (m.InIpa ipa ∧ m'.InIpa ipa) := by
    intro m hnew
    refine ⟨?_, ?_, ?_⟩
    · rw [List.map_append, List.nodup_append']
      refine ⟨h.usages, List.nodup_singleton _, ?_⟩
      intro u hu hmem
      obtain ⟨m', hm', rfl⟩ := List.mem_map.mp hu
      exact hnew.usage_new m' hm' (List.mem_singleton.mp hmem)
    · intro m' hm'
      rcases List.mem_append.mp hm' with hold | hone
      · exact h.entries m' hold
      · rw [List.mem_singleton.mp hone]
        exact hnew.wf
    · rw [List.pairwise_append]
      refine ⟨h.apart, List.pairwise_singleton _ _, ?_⟩
      intro m' hm' m'' hm''
      rw [List.mem_singleton.mp hm'']
      exact hnew.apart m' hm'
  rcases he with ⟨m, hnew, -⟩ | ⟨m, first, count, hnew, -⟩ | ⟨path, i, t, page, -, hreach⟩ |
    ⟨ipa, pa, t, w⟩
  · exact happend m hnew
  · exact happend m hnew
  · obtain ⟨root, hroot, -⟩ := reach_some hreach
    obtain ⟨r, hfind⟩ := findTables hroot
    refine ⟨?_, ?_, apart_push hfind _ h.apart⟩
    · show ((pushTablePage _ s.vmMem).map VmMem.usage).Nodup
      rw [usages_push hfind]
      exact h.usages
    · intro m hm
      rcases mem_push hfind _ hm with hold | rfl
      · exact h.entries m hold
      · obtain ⟨husage, -, halign⟩ := h.entries _ (findUsage_some hfind).1
        refine ⟨husage, by simp, ?_⟩
        intro a ha
        rcases List.mem_append.mp ha with hold | hone
        · exact halign a hold
        · rw [List.mem_singleton.mp hone]
          exact Nat.mul_mod_right 4096 page
  · exact ⟨h.usages, h.entries, h.apart⟩

/-! ## The tables after an effect -/

variable {t : Nat}

/-- Clearing fresh pages is invisible from the root. -/
theorem State.Wf.writeZeros_same (h : s.Wf) {first count : Nat}
    (hrun : IsRun s.pages.allocator.isUnused count first) (hreach : s.reach path = some t)
    (i : Fin 512) :
    (s.memory.writeZeros (4096 * first) (4096 * count)).tables t i = s.memory.tables t i := by
  rw [Memory.tables_writeZeros, if_neg]
  rintro ⟨h1, h2⟩
  exact h.unused_not_tracked (hrun t h1 h2) (tablePages_subset (h.reach_tracked path t hreach))

/-- What an effect does to the tables: it makes them, or it keeps the root and the tables stay a
tree of tracked pages, in which at most one leaf has appeared. -/
structure TablesGrow (allowed : Nat → Nat → Prop) (s s' : State) : Prop where
  tree : ∀ root, s'.rootPage = some root → Radix.Tree decode s'.memory.tables root
  reach_tracked : ∀ path t, s'.reach path = some t → t ∈ tablePages s'.vmMem
  leaves : ∀ ipa, ipa < 2 ^ 39 → s'.leafWord ipa = s.leafWord ipa ∨
    s.leafWord ipa = none ∧ ∃ w, s'.leafWord ipa = some w ∧
      allowed (4096 * (ipa / 4096)) (w &&& addressMask)

/-- Adding an entry with cleared pages. -/
theorem State.Wf.tablesGrow_entry (h : s.Wf) (hnew : NewEntry s.vmMem m) {memory : Memory}
    {pages : GlobalPageAllocator}
    (hsame : ∀ path t, s.reach path = some t → ∀ i, memory.tables t i = s.memory.tables t i)
    (hclear : ∀ r, m = .paOnly r → ∀ p ∈ m.pageList, ∀ i, memory.tables p i = 0) :
    TablesGrow allowed s ⟨s.vmMem ++ [m], memory, pages⟩ := by
  rcases tableAddresses_append hnew with hkeep | ⟨hnone, r, rfl, hroot⟩
  · -- the page-table entry is what it was
    have hpages : tablePages (s.vmMem ++ [m]) = tablePages s.vmMem :=
      congrArg (List.map (· / 4096)) hkeep
    have hrootPage : (⟨s.vmMem ++ [m], memory, pages⟩ : State).rootPage = s.rootPage :=
      congrArg List.head? hpages
    have hfollow : ∀ {root}, s.rootPage = some root → ∀ p t,
        Radix.follow decode s.memory.tables 0 root p = some t →
          ∀ i, memory.tables t i = s.memory.tables t i :=
      fun hr p t hp => hsame p t ((reach_eq hr p).trans hp)
    refine ⟨?_, ?_, ?_⟩
    · intro root hr
      rw [hrootPage] at hr
      exact (h.tree root hr).frame (hfollow hr)
    · intro path t hp
      obtain ⟨root, hr, hp⟩ := reach_some hp
      rw [hrootPage] at hr
      show t ∈ tablePages (s.vmMem ++ [m])
      rw [hpages]
      refine h.reach_tracked path t ?_
      rw [reach_eq hr]
      exact (Radix.follow_congr (hfollow hr) path).symm.trans hp
    · intro ipa _
      left
      rcases hr : s.rootPage with _ | root
      · unfold leafWord
        rw [hrootPage, hr]
        rfl
      · rw [leafWord_eq (hrootPage.trans hr), leafWord_eq hr]
        exact congrArg _ (Radix.lookup_frame (hfollow hr) _)
  · -- the tables begin: every page of the entry is clear, the root among them
    have hnoroot : s.rootPage = none := by
      unfold rootPage tablePages
      rw [hnone]
      rfl
    have hempty : ∀ root, (⟨s.vmMem ++ [.paOnly r], memory, pages⟩ : State).rootPage = some root →
        ∀ i, memory.tables root i = 0 := by
      intro root hr i
      refine hclear r rfl root ?_ i
      have : root ∈ tablePages (s.vmMem ++ [.paOnly r]) := List.mem_of_head? hr
      unfold tablePages at this
      rwa [hroot] at this
    refine ⟨?_, ?_, ?_⟩
    · intro root hr
      refine Radix.Tree.single fun i => ?_
      rw [hempty root hr i]
      exact decode_zero 0
    · intro path t hp
      obtain ⟨root, hr, hp⟩ := reach_some hp
      rcases path with _ | ⟨i, rest⟩
      · cases hp
        exact List.mem_of_head? hr
      · exfalso
        simp only [Radix.follow] at hp
        rw [hempty root hr i, decode_zero] at hp
        cases hp
    · intro ipa _
      left
      have hleft : s.leafWord ipa = none := by
        unfold leafWord
        rw [hnoroot]
        rfl
      rw [hleft]
      unfold leafWord
      rcases hr : (⟨s.vmMem ++ [.paOnly r], memory, pages⟩ : State).rootPage with _ | root
      · rw [hr]
        rfl
      · rw [hr, Option.bind_some, route_eq]
        simp only [Radix.lookup]
        rw [hempty root hr, decode_zero]
        rfl

variable (allowed) in
/-- Linking a fresh page. -/
theorem State.Wf.tablesGrow_table (h : s.Wf) {i : Fin 512} {page : Nat} (hdepth : path.length < 2)
    (hreach : s.reach path = some t) (hold : s.memory.tables t i &&& valid = 0)
    (hun : s.pages.allocator.isUnused page = true) (hpage : page < 2 ^ 20)
    {pages : GlobalPageAllocator} :
    TablesGrow allowed s
        ⟨pushTablePage (4096 * page) s.vmMem,
          (s.memory.writeZeros (4096 * page) 4096).setEntry (4096 * t) i
            (tableDescriptor (4096 * page)), pages⟩ ∧
      (⟨pushTablePage (4096 * page) s.vmMem,
          (s.memory.writeZeros (4096 * page) 4096).setEntry (4096 * t) i
            (tableDescriptor (4096 * page)), pages⟩ : State).reach (path ++ [i]) = some page := by
  obtain ⟨root, hroot, hfollow⟩ := reach_some hreach
  obtain ⟨r, hfind⟩ := findTables hroot
  have hun1 : IsRun s.pages.allocator.isUnused 1 page := isRun_one hun
  -- the page list grows at its end, so the root stays
  have hpages :
      tablePages (pushTablePage (4096 * page) s.vmMem) = tablePages s.vmMem ++ [page] := by
    have hr : tableAddresses s.vmMem = r.pa := by
      unfold tableAddresses
      rw [hfind]
    unfold tablePages
    rw [tableAddresses_push hfind, hr, List.map_append, List.map_singleton,
      Nat.mul_div_cancel_left page (by decide)]
  have hroot' : (tablePages s.vmMem ++ [page]).head? = some root := by
    rw [List.head?_append]
    unfold rootPage at hroot
    rw [hroot]
    rfl
  -- clearing the page is not seen from the root, and then it is a fresh empty table
  set cleared := s.memory.writeZeros (4096 * page) (4096 * 1)
  have hsame : ∀ q c, Radix.follow decode s.memory.tables 0 root q = some c → ∀ j,
      cleared.tables c j = s.memory.tables c j :=
    fun q c hq => h.writeZeros_same hun1 ((reach_eq hroot q).trans hq)
  have htree := (h.tree root hroot).frame hsame
  have hfollow' : Radix.follow decode cleared.tables 0 root path = some t :=
    (Radix.follow_congr hsame path).trans hfollow
  have hempty : decode path.length (cleared.tables t i) = .empty := by
    rw [hsame path t hfollow]
    exact if_pos hold
  have hlink : decode path.length (tableDescriptor (4096 * page)) = .table page :=
    decode_tableDescriptor hdepth (by omega)
  have hfresh : ∀ q, Radix.follow decode cleared.tables 0 root q ≠ some page := by
    intro q hq
    rw [Radix.follow_congr hsame] at hq
    exact h.unused_not_tracked hun
      (tablePages_subset (h.reach_tracked q page ((reach_eq hroot q).trans hq)))
  have hclear : ∀ j, decode (path.length + 1) (cleared.tables page j) = .empty := by
    intro j
    rw [Memory.tables_writeZeros, if_pos ⟨le_rfl, Nat.lt_succ_self page⟩]
    exact decode_zero _
  set s' : State := ⟨pushTablePage (4096 * page) s.vmMem,
    (s.memory.writeZeros (4096 * page) 4096).setEntry (4096 * t) i
      (tableDescriptor (4096 * page)), pages⟩ with hs'
  have hrootPage : s'.rootPage = some root := by
    rw [← hroot', ← hpages]
    rfl
  have htables : s'.memory.tables = Radix.set cleared.tables t i (tableDescriptor (4096 * page)) :=
    Memory.tables_setEntry _ t i _
  have hreach' : ∀ q, s'.reach q = if q = path ++ [i] then some page else s.reach q := by
    intro q
    rw [reach_eq hrootPage, htables, Radix.follow_link htree hfollow' hempty hlink hfresh hclear,
      Radix.follow_congr hsame, reach_eq hroot]
  refine ⟨⟨?_, ?_, ?_⟩, ?_⟩
  · intro root' hr
    rw [hrootPage] at hr
    cases hr
    rw [htables]
    exact htree.link hfollow' hempty hlink hfresh hclear
  · intro q c hq
    show c ∈ tablePages (pushTablePage (4096 * page) s.vmMem)
    rw [hpages]
    rw [hreach'] at hq
    by_cases hpath : q = path ++ [i]
    · rw [if_pos hpath] at hq
      cases hq
      exact List.mem_append_right _ (List.mem_singleton_self _)
    · rw [if_neg hpath] at hq
      exact List.mem_append_left _ (h.reach_tracked q c hq)
  · intro ipa _
    left
    rw [leafWord_eq hrootPage, leafWord_eq hroot, htables,
      Radix.lookup_link htree hfollow' hempty hlink hfresh hclear, Radix.lookup_frame hsame]
  · rw [hreach', if_pos rfl]

/-- The slot of a page at level 3 holds its leaf. -/
theorem State.leafWord_of_reach {ipa : Nat} (hreach : s.reach (route 2 ipa) = some t) :
    s.leafWord ipa =
      if s.memory.tables t (tableIndex l3Shift ipa) &&& valid = 0 then none
      else some (s.memory.tables t (tableIndex l3Shift ipa)) := by
  obtain ⟨root, hroot, hfollow⟩ := reach_some hreach
  have hroute : route 3 ipa = route 2 ipa ++ [tableIndex l3Shift ipa] := rfl
  rw [leafWord_eq hroot, hroute, Radix.lookup_append hfollow]
  by_cases hvalid : s.memory.tables t (tableIndex l3Shift ipa) &&& valid = 0
  · have hempty : decode 2 (s.memory.tables t (tableIndex l3Shift ipa)) = .empty := if_pos hvalid
    rw [if_pos hvalid]
    simp only [Radix.lookup, El2Stage1.length_route, Nat.zero_add, hempty]
    rfl
  · rw [if_neg hvalid]
    simp only [Radix.lookup, El2Stage1.length_route, Nat.zero_add, decode_leaf hvalid]
    rfl

/-- A walk does not see the offset in a page. -/
theorem State.leafWord_page {ipa ipa' : Nat} (hipa : ipa < 2 ^ 39) (hipa' : ipa' < 2 ^ 39)
    (hpage : ipa' / 4096 = ipa / 4096) : s.leafWord ipa' = s.leafWord ipa := by
  unfold leafWord
  rw [(El2Stage1.route_eq_iff (.inr (.inr rfl)) hipa hipa').mpr hpage]

/-- A word stored in the slot of an IPA in a table of level 3. -/
abbrev State.withWord (s : State) (t ipa w : Nat) : State :=
  { s with memory := s.memory.setEntry (4096 * t) (tableIndex l3Shift ipa) w }

section Leaf

variable {ipa w : Nat} (hreach : s.reach (route 2 ipa) = some t)
include hreach

/-- Storing a word at level 3 moves no table. -/
theorem State.Wf.reach_setEntry (h : s.Wf) (q : List (Fin 512)) :
    (s.withWord t ipa w).reach q = s.reach q := by
  obtain ⟨root, hroot, hfollow⟩ := reach_some hreach
  have hroot' : (s.withWord t ipa w).rootPage = some root := hroot
  rw [reach_eq hroot', reach_eq hroot, Memory.tables_setEntry]
  exact Radix.follow_set (h.tree root hroot) hfollow (decode_two_ne_table _)
    (decode_two_ne_table _) q

/-- A valid word stored at level 3 is the leaf of its page, and of no other. -/
theorem State.Wf.leafWord_setEntry (h : s.Wf) (hipa : ipa < 2 ^ 39) (hvalid : w &&& valid ≠ 0)
    {ipa' : Nat} (hipa' : ipa' < 2 ^ 39) :
    (s.withWord t ipa w).leafWord ipa' =
      if ipa' / 4096 = ipa / 4096 then some w else s.leafWord ipa' := by
  by_cases hpage : ipa' / 4096 = ipa / 4096
  · have hreach' := (h.reach_setEntry (w := w) hreach (route 2 ipa)).trans hreach
    have hword : (s.memory.setEntry (4096 * t) (tableIndex l3Shift ipa) w).tables t
        (tableIndex l3Shift ipa) = w := by
      rw [Memory.tables_setEntry, Radix.set_same]
    rw [if_pos hpage, leafWord_page hipa hipa' hpage, leafWord_of_reach hreach']
    show (if (s.memory.setEntry _ _ _).tables t _ &&& valid = 0 then none else _) = _
    rw [hword, if_neg hvalid]
  · obtain ⟨root, hroot, hfollow⟩ := reach_some hreach
    have hroot' : (s.withWord t ipa w).rootPage = some root := hroot
    rw [if_neg hpage, leafWord_eq hroot', leafWord_eq hroot, Memory.tables_setEntry]
    refine congrArg _ (Radix.lookup_set_of_not_through (h.tree root hroot) hfollow
      (decode_two_ne_table _) (decode_two_ne_table _) ?_)
    intro hprefix
    exact hpage ((El2Stage1.route_through_iff (.inr (.inr rfl)) hipa hipa').mp hprefix)

/-- Storing a leaf where no valid word was. -/
theorem State.Wf.tablesGrow_leaf (h : s.Wf) {pa : Nat} (hipa : ipa < 2 ^ 39)
    (halign : ipa % 4096 = 0)
    (hold : s.memory.tables t (tableIndex l3Shift ipa) &&& valid = 0) (hvalid : w &&& valid ≠ 0)
    (haddress : w &&& addressMask = pa) (hallowed : allowed ipa pa) :
    TablesGrow allowed s (s.withWord t ipa w) := by
  obtain ⟨root, hroot, hfollow⟩ := reach_some hreach
  refine ⟨?_, ?_, ?_⟩
  · intro root' hr
    rw [show root' = root from Option.some.inj (hr.symm.trans hroot), Memory.tables_setEntry]
    refine (h.tree root hroot).set_leaf hfollow (decode_two_ne_table _)
      (decode_two_ne_table _) ?_
    rw [El2Stage1.length_route, decode_leaf hvalid]
    exact nofun
  · intro q c hq
    exact h.reach_tracked q c ((h.reach_setEntry hreach q).symm.trans hq)
  · intro ipa' hipa'
    rw [h.leafWord_setEntry hreach hipa hvalid hipa']
    by_cases hpage : ipa' / 4096 = ipa / 4096
    · -- the page of the new leaf
      have hbase : 4096 * (ipa' / 4096) = ipa := by omega
      right
      rw [if_pos hpage, hbase, leafWord_page hipa hipa' hpage, leafWord_of_reach hreach,
        if_pos hold]
      exact ⟨rfl, w, rfl, haddress ▸ hallowed⟩
    · rw [if_neg hpage]
      exact .inl rfl

end Leaf

theorem Effect.tablesGrow (h : s.Wf) (he : Effect allowed s s') : TablesGrow allowed s s' := by
  rcases he with ⟨m, hnew, r, rfl⟩ | ⟨m, first, count, hnew, hpages, -, hrun, -⟩ |
    ⟨path, i, t, page, hdepth, hreach, hold, -, hun, hpage, -⟩ |
    ⟨ipa, pa, t, w, hipa, halign, hreach, hold, hvalid, haddress, hallowed⟩
  · exact h.tablesGrow_entry hnew (fun _ _ _ _ => rfl) (fun _ hm => nomatch hm)
  · refine h.tablesGrow_entry hnew (fun path t hp i => h.writeZeros_same hrun hp i) ?_
    intro _ _ p hp i
    rw [hpages] at hp
    rw [Memory.tables_writeZeros, if_pos (List.mem_range'_1.mp hp)]
  · exact (h.tablesGrow_table allowed hdepth hreach hold hun hpage).1
  · exact h.tablesGrow_leaf hreach hipa halign hold hvalid haddress hallowed

/-- Each effect keeps the invariant. -/
theorem Effect.wf (h : s.Wf) (he : Effect allowed s s') : s'.Wf := by
  obtain ⟨husages, hentries, hapart⟩ := he.entries_wf h
  obtain ⟨hnodup, howned, hbudget⟩ := he.pages_wf h
  have htables := he.tablesGrow h
  exact ⟨husages, hentries, hapart, hnodup, howned, hbudget, htables.tree, htables.reach_tracked⟩

theorem Effect.keeps_ipaPa (he : Effect allowed s s') {r : IpaPaRegion}
    (hr : VmMem.ipaPa r ∈ s.vmMem) : VmMem.ipaPa r ∈ s'.vmMem := by
  rcases he with ⟨m, hnew, -⟩ | ⟨m, first, count, hnew, -⟩ | ⟨path, i, t, page, -, hreach⟩ |
    ⟨ipa, pa, t, w⟩
  · exact List.mem_append_left _ hr
  · exact List.mem_append_left _ hr
  · obtain ⟨root, hroot, -⟩ := reach_some hreach
    obtain ⟨region, hfind⟩ := findTables hroot
    exact ipaPa_mem_push hfind _ hr
  · exact hr

end Tvisor.VmCtl
