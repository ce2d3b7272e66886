/-
# Tvisor.VmCtl.Calls -- every call is a sequence of effects

For each call of `VmCtl`, wherever it stops, the state it leaves is reached by effects. What a call
may store as a leaf is what it was asked for: `map` brings an IPA page of an entry together with the
physical page at the same offset, `map_external_device` brings together the pages it was given.
-/
import Tvisor.VmCtl.Effects
import Mathlib.Logic.Relation

namespace Tvisor.VmCtl

open Fallible Page Words GuestStage2 Mm PageAllocator State
open El2Stage1 (route TranslationError)

/-- Any number of effects. -/
def Effects (allowed : Nat → Nat → Prop) : State → State → Prop :=
  Relation.ReflTransGen (Effect allowed)

variable {r : IpaPaRegion} {ipa : Nat}

namespace Effects

variable {allowed : Nat → Nat → Prop} {s t u : State}

theorem refl (s : State) : Effects allowed s s := Relation.ReflTransGen.refl

theorem trans (h : Effects allowed s t) (h' : Effects allowed t u) : Effects allowed s u :=
  Relation.ReflTransGen.trans h h'

theorem one (h : Effect allowed s t) : Effects allowed s t := Relation.ReflTransGen.single h

theorem wf (h : s.Wf) (he : Effects allowed s t) : t.Wf := by
  induction he with
  | refl => exact h
  | tail _ hstep ih => exact hstep.wf ih

theorem keeps_ipaPa (he : Effects allowed s t) (hr : VmMem.ipaPa r ∈ s.vmMem) :
    VmMem.ipaPa r ∈ t.vmMem := by
  induction he with
  | refl => exact hr
  | tail _ hstep ih => exact hstep.keeps_ipaPa ih

/-- A valid leaf stays as it is, and a new one was allowed. -/
theorem leaves (h : s.Wf) (he : Effects allowed s t) (hipa : ipa < 2 ^ 39) :
    t.leafWord ipa = s.leafWord ipa ∨
      s.leafWord ipa = none ∧ ∃ w, t.leafWord ipa = some w ∧
        allowed (4096 * (ipa / 4096)) (w &&& addressMask) := by
  induction he with
  | refl => exact .inl rfl
  | tail hbefore hstep ih =>
    rcases (hstep.tablesGrow (wf h hbefore)).leaves ipa hipa with hsame | ⟨hnone, hsome⟩
    · rw [hsame]
      exact ih
    · rcases ih with hsame | ⟨-, w, hw, -⟩
      · exact .inr ⟨hsame ▸ hnone, hsome⟩
      · rw [hnone] at hw
        cases hw

end Effects

/-! ## Requests -/

variable {vmMem : List VmMem} {usage : VmMemUsage} {allowed : Nat → Nat → Prop} {s : State}

theorem VmMem.ipaRange_of_inIpa {m : VmMem} (h : m.Wf) {x : Nat} (hx : m.InIpa x) :
    ∃ start stop, m.ipaRange = some (start, stop) ∧ start ≤ x ∧ x < stop := by
  rcases m with r | r | r
  · have hend : r.endAddr = some (r.base + r.size) :=
      checkedAdd_of_lt (by have := h.2.2.2.2; unfold wordBound; omega)
    exact ⟨r.base, r.base + r.size, by rw [ipaRange, hend]; rfl, hx.1, hx.2⟩
  · have hend : r.ipaEnd = some (r.ipa + r.size) :=
      checkedAdd_of_lt (by have := h.2.2.2.2.1; unfold wordBound; omega)
    exact ⟨r.ipa, r.ipa + r.size, by rw [ipaRange, hend]; rfl, hx.1, hx.2⟩
  · cases hx

/-- An accepted range is whole pages of the IPA space that no entry has. -/
theorem validateIpaRange_ok (hwf : ∀ m ∈ vmMem, m.Wf) {size : Nat}
    (h : validateIpaRange vmMem ipa size = .ok ()) :
    0 < size ∧ ipa % 4096 = 0 ∧ ipa + size ≤ 2 ^ 39 ∧
      ∀ m ∈ vmMem, ∀ x, m.InIpa x → ¬ (ipa ≤ x ∧ x < ipa + size) := by
  unfold validateIpaRange at h
  split at h
  · cases h
  rename_i hbad
  rw [not_or, Bool.not_eq_true', Bool.not_eq_false, isPageAligned_iff] at hbad
  rcases hadd : checkedAdd ipa size with _ | stop
  · rw [hadd] at h
    cases h
  rw [hadd] at h
  obtain ⟨-, rfl⟩ := checkedAdd_eq_some.mp hadd
  have hsub : wrappingSub (ipa + size) 1 = ipa + size - 1 := wrappingSub_of_le (by omega)
  dsimp only at h
  rw [hsub] at h
  split at h
  · cases h
  rename_i hrange
  have hlimit : (1 <<< ipaBits) - 1 = 2 ^ 39 - 1 := by decide
  refine ⟨by omega, hbad.2, by omega, ?_⟩
  intro m hm x hx hin
  obtain ⟨start, stop, hipa, h1, h2⟩ := VmMem.ipaRange_of_inIpa (hwf m hm) hx
  have hany : ((vmMem.filterMap VmMem.ipaRange).any fun r => ipa < r.2 && r.1 < ipa + size) =
      true := by
    rw [List.any_eq_true]
    refine ⟨(start, stop), List.mem_filterMap.mpr ⟨m, hm, hipa⟩, ?_⟩
    rw [Bool.and_eq_true]
    exact ⟨decide_eq_true (by omega), decide_eq_true (by omega)⟩
  rw [if_pos hany] at h
  cases h

theorem validateRequest_ok {ipa : Option Nat} {size : Nat}
    (h : validateRequest vmMem usage ipa size = .ok ()) :
    (∀ m ∈ vmMem, m.usage ≠ usage) ∧
      (usage.needsIpa = true → ∃ a, ipa = some a ∧ validateIpaRange vmMem a size = .ok ()) := by
  unfold validateRequest at h
  split at h
  · cases h
  rename_i hused
  refine ⟨?_, ?_⟩
  · intro m hm husage
    exact hused (List.any_eq_true.mpr ⟨m, hm, decide_eq_true husage⟩)
  · intro hneeds
    rcases ipa with _ | a
    · rw [hneeds] at h
      cases h
    · rw [hneeds] at h
      exact ⟨a, rfl, h⟩

/-- The three kinds of entry. -/
theorem memOf_cases (usage : VmMemUsage) (ipa : Option Nat) (phy size : Nat) :
    (usage = .guestStage2PageTable ∧ memOf usage ipa phy size =
      .paOnly ⟨usage, (List.range (size / pageSize)).map fun p => phy + p * pageSize⟩) ∨
    (usage = .guard ∧ memOf usage ipa phy size = .ipaOnly ⟨usage, ipa.getD 0, size⟩) ∨
    (usage ≠ .guestStage2PageTable ∧ usage.needsIpa = true ∧
      memOf usage ipa phy size = .ipaPa ⟨usage, ipa.getD 0, phy, size⟩) := by
  cases usage with
  | guestStage2PageTable => exact .inl ⟨rfl, rfl⟩
  | guard => exact .inr (.inl ⟨rfl, rfl⟩)
  | _ => exact .inr (.inr ⟨by decide, rfl, rfl⟩)

/-- The entry of an accepted request. -/
theorem memOf_newEntry (h : s.Wf) {ipa : Option Nat} {phy count : Nat}
    (hreq : validateRequest s.vmMem usage ipa (4096 * count) = .ok ()) (hphy : phy % 4096 = 0)
    (hcount : usage = .guestStage2PageTable → 0 < count) :
    NewEntry s.vmMem (memOf usage ipa phy (4096 * count)) := by
  obtain ⟨hused, hneeds⟩ := validateRequest_ok hreq
  rcases memOf_cases usage ipa phy (4096 * count) with
    ⟨husage, hmem⟩ | ⟨husage, hmem⟩ | ⟨husage, hipa, hmem⟩
  · rw [hmem]
    refine ⟨⟨husage, ?_, ?_⟩, hused, fun _ _ _ hin => hin.2⟩
    · have hpos := hcount husage
      have hdiv : 4096 * count / pageSize = count := Nat.mul_div_cancel_left count (by decide)
      rw [hdiv, ne_eq, List.map_eq_nil_iff, List.range_eq_nil]
      exact Nat.ne_of_gt hpos
    · intro a ha
      obtain ⟨p, -, rfl⟩ := List.mem_map.mp ha
      show (phy + p * 4096) % 4096 = 0
      omega
  · obtain ⟨a, rfl, hval⟩ := hneeds (by rw [husage]; rfl)
    obtain ⟨hpos, halign, hle, hfree⟩ := validateIpaRange_ok h.entries hval
    rw [hmem]
    refine ⟨⟨?_, halign, Nat.mul_mod_right _ _, hpos, hle⟩, hused,
      fun m' hm' x hin => hfree m' hm' x hin.1 hin.2⟩
    show usage ≠ .guestStage2PageTable
    rw [husage]
    decide
  · obtain ⟨a, rfl, hval⟩ := hneeds hipa
    obtain ⟨hpos, halign, hle, hfree⟩ := validateIpaRange_ok h.entries hval
    rw [hmem]
    exact ⟨⟨husage, halign, Nat.mul_mod_right _ _, hpos, hle, hphy⟩, hused,
      fun m' hm' x hin => hfree m' hm' x hin.1 hin.2⟩

theorem memOf_pageList (hneed : usage.needPhysicalMemory = true) (ipa : Option Nat)
    (first count : Nat) :
    (memOf usage ipa (4096 * first) (4096 * count)).pageList = List.range' first count := by
  have hcount : 4096 * count / 4096 = count := Nat.mul_div_cancel_left count (by decide)
  have hfirst : 4096 * first / 4096 = first := Nat.mul_div_cancel_left first (by decide)
  rcases memOf_cases usage ipa (4096 * first) (4096 * count) with
    ⟨-, hmem⟩ | ⟨husage, -⟩ | ⟨-, -, hmem⟩
  · rw [hmem]
    show ((List.range (4096 * count / 4096)).map fun p => 4096 * first + p * 4096).map
      (· / 4096) = _
    rw [hcount, List.map_map, List.range'_eq_map_range]
    refine List.map_congr_left fun p _ => ?_
    show (4096 * first + p * 4096) / 4096 = first + p
    omega
  · rw [husage] at hneed
    cases hneed
  · rw [hmem]
    show List.range' (4096 * first / 4096) (4096 * count / 4096) = _
    rw [hcount, hfirst]

/-! ## Taking pages -/

theorem onPages_ok {α : Type} {x : EStateM AllocatorError GlobalPageAllocator α} {a : α}
    {g : GlobalPageAllocator} (h : x.run s.pages = .ok a g) :
    (onPages x).run s = .ok a { s with pages := g } := by
  unfold onPages
  rw [run_zoom, h]

theorem onPages_error {α : Type} {x : EStateM AllocatorError GlobalPageAllocator α}
    {e : AllocatorError} (h : x.run s.pages = .error e s.pages) :
    (onPages x).run s = .error e s := by
  unfold onPages
  rw [run_zoom, h]

theorem takeBacking_cases (s : State) (count : Nat) :
    (∃ first, Ready s.pages ∧ 0 < count ∧ IsRun s.pages.allocator.isUnused count first ∧
      (trackedPages s.vmMem).length + count ≤ maxGuestMemPages ∧
      (takeBacking (4096 * count)).run s = .ok (4096 * first)
        { s with
          memory := s.memory.writeZeros (4096 * first) (4096 * count)
          pages := takePages s.pages first count }) ∨
    ∃ e, (takeBacking (4096 * count)).run s = .error e s := by
  have hcount : 4096 * count / pageSize = count := Nat.mul_div_cancel_left count (by decide)
  unfold takeBacking
  simp only [EStateM.run_bind, EStateM.run_get, hcount]
  rcases hadd : checkedAdd (allocatedPhysicalPages s.vmMem) count with _ | total
  · exact .inr ⟨_, rfl⟩
  · obtain ⟨-, rfl⟩ := checkedAdd_eq_some.mp hadd
    simp only [run_orThrow_some, run_ite]
    by_cases hmax : allocatedPhysicalPages s.vmMem + count > maxGuestMemPages
    · rw [if_pos hmax]
      exact .inr ⟨_, rfl⟩
    · rw [if_neg hmax]
      simp only [EStateM.run_pure]
      rcases allocateContiguousPages_cases s.pages count with
        ⟨first, hready, hpos, -, hrun, hok⟩ | ⟨e, herr⟩
      · refine .inl ⟨first, hready, hpos, hrun, ?_, ?_⟩
        · rw [length_trackedPages]
          omega
        · rw [onPages_ok hok]
          rfl
      · rw [onPages_error herr]
        exact .inr ⟨_, rfl⟩

/-- A request fails without a trace, or adds a guard, or adds an entry with the first run of unused
pages that is long enough. -/
theorem vmMemAlloc_cases (h : s.Wf) (usage : VmMemUsage) (ipa : Option Nat) (size : Nat) :
    (∃ e, (vmMemAlloc usage ipa size).run s = .error e s) ∨
    (∃ m, usage = .guard ∧ NewEntry s.vmMem m ∧ (∃ r, m = .ipaOnly r) ∧
      (vmMemAlloc usage ipa size).run s = .ok none { s with vmMem := s.vmMem ++ [m] }) ∨
    ∃ m first count, m = memOf usage ipa (4096 * first) (4096 * count) ∧
      count = (size + 4095) / 4096 ∧ NewEntry s.vmMem m ∧ m.pageList = List.range' first count ∧
      Ready s.pages ∧ IsRun s.pages.allocator.isUnused count first ∧
      (trackedPages s.vmMem).length + count ≤ maxGuestMemPages ∧
      (vmMemAlloc usage ipa size).run s = .ok m.firstAddress
        { vmMem := s.vmMem ++ [m]
          memory := s.memory.writeZeros (4096 * first) (4096 * count)
          pages := takePages s.pages first count } := by
  unfold vmMemAlloc
  rw [EStateM.run_bind, alignUp_page]
  by_cases hsize : size + 4095 < wordBound
  · rw [if_pos hsize]
    generalize hcount : (size + 4095) / 4096 = count
    simp only [run_orThrow_some, EStateM.run_bind, EStateM.run_get]
    rcases hreq : validateRequest s.vmMem usage ipa (4096 * count) with e | u
    · exact .inl ⟨e, rfl⟩
    simp only [run_lift_ok, run_ite]
    by_cases hneed : usage.needPhysicalMemory = true
    · rw [if_pos hneed]
      rcases takeBacking_cases s count with ⟨first, hready, hpos, hrun, hbudget, hok⟩ | ⟨e, herr⟩
      · have hnew : NewEntry s.vmMem (memOf usage ipa (4096 * first) (4096 * count)) :=
          memOf_newEntry h hreq (Nat.mul_mod_right _ _) fun _ => hpos
        rw [hok]
        exact .inr (.inr ⟨_, first, count, rfl, rfl, hnew, memOf_pageList hneed ipa first count,
          hready, hrun, hbudget, rfl⟩)
      · rw [herr]
        exact .inl ⟨e, rfl⟩
    · rw [if_neg hneed]
      have hguard : usage = .guard := by
        rcases usage with _ | _ | _ | _ | _ | _ | _
        all_goals first | rfl | exact absurd rfl hneed
      subst hguard
      have hnew : NewEntry s.vmMem (memOf .guard ipa 0 (4096 * count)) :=
        memOf_newEntry h hreq rfl fun hu => nomatch hu
      exact .inr (.inl ⟨_, rfl, hnew, ⟨_, rfl⟩, rfl⟩)
  · rw [if_neg hsize]
    exact .inl ⟨_, rfl⟩

theorem vmMemAlloc_effects (h : s.Wf) (usage : VmMemUsage) (ipa : Option Nat) (size : Nat) :
    Effects allowed s (Fallible.state ((vmMemAlloc usage ipa size).run s)) := by
  rcases vmMemAlloc_cases h usage ipa size with
    ⟨e, hrun⟩ | ⟨m, -, hnew, hbare, hrun⟩ |
    ⟨m, first, count, -, -, hnew, hpages, hready, hunused, hbudget, hrun⟩
  · rw [hrun]
    exact Effects.refl s
  · rw [hrun]
    exact Effects.one (Effect.bare m hnew hbare)
  · rw [hrun]
    exact Effects.one (Effect.backed m first count hnew hpages hready hunused hbudget)

/-! ## Walking down and mapping one page -/

theorem vmMemAllocSub_cases {r : PaRegion}
    (hfind : findUsage s.vmMem .guestStage2PageTable = some (.paOnly r)) :
    (∃ page, Ready s.pages ∧ page < 2 ^ 20 ∧ s.pages.allocator.isUnused page = true ∧
      (trackedPages s.vmMem).length < maxGuestMemPages ∧
      vmMemAllocSubGuestStage2PageTable.run s = .ok (4096 * page)
        { vmMem := pushTablePage (4096 * page) s.vmMem
          memory := s.memory.writeZeros (4096 * page) 4096
          pages := takePages s.pages page 1 }) ∨
    ∃ e, vmMemAllocSubGuestStage2PageTable.run s = .error e s := by
  unfold vmMemAllocSubGuestStage2PageTable
  simp only [EStateM.run_bind, EStateM.run_get, run_ite]
  by_cases hmax : allocatedPhysicalPages s.vmMem ≥ maxGuestMemPages
  · rw [if_pos hmax]
    exact .inr ⟨_, rfl⟩
  · rw [if_neg hmax]
    simp only [EStateM.run_pure, hfind, EStateM.run_bind]
    rcases allocateContiguousPages_cases s.pages 1 with
      ⟨page, hready, -, hle, hrun, hok⟩ | ⟨e, herr⟩
    · refine .inl ⟨page, hready, by omega, hrun page le_rfl (Nat.lt_succ_self page), ?_, ?_⟩
      · rw [length_trackedPages]
        omega
      · rw [allocatePage_eq, onPages_ok hok]
        rfl
    · rw [allocatePage_eq, onPages_error herr]
      exact .inr ⟨_, rfl⟩

/-- A link that is there is followed. -/
theorem nextTable_linked {t c d : Nat} {i : Fin 512}
    (hlink : decode d (s.memory.tables t i) = .table c) :
    (nextTable (4096 * t) i).run s = .ok (4096 * c) s := by
  have hword : s.memory.entry (4096 * t) i = s.memory.tables t i := rfl
  unfold decode at hlink
  unfold nextTable
  simp only [EStateM.run_bind, EStateM.run_get, run_ite, hword]
  split_ifs at hlink with hvalid hd htype
  cases hlink
  have haddress : s.memory.tables t i &&& addressMask =
      4096 * ((s.memory.tables t i &&& addressMask) / 4096) := by
    have : s.memory.tables t i &&& addressMask =
      s.memory.tables t i / 2 ^ 12 % 2 ^ 36 * 2 ^ 12 := land_field _ 36 12
    omega
  rw [if_pos hvalid, if_neg htype, EStateM.run_pure]
  exact congrArg (fun a => EStateM.Result.ok a s) haddress

variable (allowed) in
/-- One level of the walk ends at the next table of the path, an old one or a new one. -/
theorem nextTable_cases (h : s.Wf) {path : List (Fin 512)} {t : Nat} (i : Fin 512)
    (hdepth : path.length < 2) (hreach : s.reach path = some t) :
    (∃ c s', (nextTable (4096 * t) i).run s = .ok (4096 * c) s' ∧ Effects allowed s s' ∧
      s'.reach (path ++ [i]) = some c) ∨
    ∃ e, (nextTable (4096 * t) i).run s = .error e s := by
  obtain ⟨root, hroot, hfollow⟩ := reach_some hreach
  obtain ⟨r, hfind⟩ := findTables hroot
  have hword : s.memory.entry (4096 * t) i = s.memory.tables t i := rfl
  by_cases hvalid : s.memory.tables t i &&& valid = 0
  · unfold nextTable
    simp only [EStateM.run_bind, EStateM.run_get, run_ite, hword]
    rw [if_neg (not_not.mpr hvalid), run_mapError]
    rcases vmMemAllocSub_cases hfind with ⟨page, hready, hpage, hun, hbudget, hok⟩ | ⟨e, herr⟩
    · rw [hok]
      exact .inl ⟨page, _, rfl,
        Effects.one (Effect.table path i t page hdepth hreach hvalid hready hun hpage hbudget),
        (h.tablesGrow_table allowed hdepth hreach hvalid hun hpage).2⟩
    · rw [herr]
      exact .inr ⟨_, rfl⟩
  · by_cases htype : s.memory.tables t i &&& tableOrPage = 0
    · unfold nextTable
      simp only [EStateM.run_bind, EStateM.run_get, run_ite, hword]
      rw [if_pos hvalid, if_pos htype]
      exact .inr ⟨_, rfl⟩
    · have hlink : decode path.length (s.memory.tables t i) =
          .table ((s.memory.tables t i &&& addressMask) / 4096) := by
        unfold decode
        rw [if_neg hvalid, if_pos hdepth, if_neg htype]
      refine .inl ⟨_, s, nextTable_linked hlink, Effects.refl s, ?_⟩
      rw [reach_eq hroot]
      exact Radix.follow_concat_eq_some.mpr ⟨t, hfollow, hlink⟩

/-- The three ways an insertion ends. -/
theorem insertLeaf_cases (s : State) (t : Nat) (i : Fin 512) (desc : Nat) :
    (s.memory.tables t i &&& valid = 0 ∧ (insertLeaf (4096 * t) i desc).run s =
      .ok () { s with memory := s.memory.setEntry (4096 * t) i desc }) ∨
    (s.memory.tables t i &&& valid ≠ 0 ∧ s.memory.tables t i = desc ∧
      (insertLeaf (4096 * t) i desc).run s = .ok () s) ∨
    (s.memory.tables t i ≠ desc ∧
      (insertLeaf (4096 * t) i desc).run s = .error .conflictingEntry s) := by
  have hword : s.memory.entry (4096 * t) i = s.memory.tables t i := rfl
  unfold insertLeaf
  simp only [EStateM.run_bind, EStateM.run_get, run_ite, hword]
  by_cases hold : s.memory.tables t i &&& valid = 0
  · rw [if_neg (not_not.mpr hold)]
    exact .inl ⟨hold, rfl⟩
  · rw [if_pos hold]
    by_cases hsame : s.memory.tables t i = desc
    · rw [if_neg (not_not.mpr hsame)]
      exact .inr (.inl ⟨hold, hsame, rfl⟩)
    · rw [if_pos hsame]
      exact .inr (.inr ⟨hsame, rfl⟩)

theorem insertLeaf_effects {pa t desc : Nat} (hipa : ipa < 2 ^ 39) (halign : ipa % 4096 = 0)
    (hreach : s.reach (route 2 ipa) = some t) (hvalid : desc &&& valid ≠ 0)
    (haddress : desc &&& addressMask = pa) (hallowed : allowed ipa pa) :
    Effects allowed s
      (Fallible.state ((insertLeaf (4096 * t) (tableIndex l3Shift ipa) desc).run s)) := by
  rcases insertLeaf_cases s t (tableIndex l3Shift ipa) desc with
    ⟨hold, hrun⟩ | ⟨-, -, hrun⟩ | ⟨-, hrun⟩
  · rw [hrun]
    exact Effects.one (Effect.leaf ipa pa t desc hipa halign hreach hold hvalid haddress hallowed)
  · rw [hrun]
    exact Effects.refl s
  · rw [hrun]
    exact Effects.refl s

/-- The root that the code reads is the root page of the tables. -/
theorem rootPage_of_root (h : s.Wf) {root : Nat}
    (hroot : guestStage2PageTableRoot s.vmMem = some root) :
    ∃ page, root = 4096 * page ∧ s.rootPage = some page := by
  rw [root_eq_head] at hroot
  obtain ⟨r, hr, -, hmem⟩ := mem_tableAddresses (List.mem_of_head? hroot)
  have halign : root % 4096 = 0 := (h.entries _ hr).2.2 root hmem
  refine ⟨root / 4096, by omega, ?_⟩
  unfold rootPage tablePages
  rw [List.head?_map, hroot]
  rfl

variable {memType : GuestStage2MemoryType} {access : GuestStage2Access} {exec : GuestStage2Exec}

variable (allowed memType access exec) in
/-- The walk of one page ends before its level-3 table, or gets there and the page is inserted. -/
theorem mapL3Page_cases (h : s.Wf) (ipa pa : Nat) :
    (∃ t s', Effects allowed s s' ∧ s'.reach (route 2 ipa) = some t ∧
      (mapL3Page ipa pa memType access exec).run s =
        (insertLeaf (4096 * t) (tableIndex l3Shift ipa)
          (encodeL3PageDescriptor pa memType access exec)).run s') ∨
    ∃ e s', Effects allowed s s' ∧ (mapL3Page ipa pa memType access exec).run s = .error e s' := by
  unfold mapL3Page
  simp only [EStateM.run_bind, EStateM.run_get]
  rcases hroot : guestStage2PageTableRoot s.vmMem with _ | root
  · exact .inr ⟨_, s, Effects.refl s, rfl⟩
  obtain ⟨page, rfl, hpage⟩ := rootPage_of_root h hroot
  have hreach0 : s.reach [] = some page := reach_eq hpage []
  simp only [run_orThrow_some]
  -- level 1
  rcases nextTable_cases allowed h (tableIndex l1Shift ipa) (by decide) hreach0 with
    ⟨t1, s1, hrun1, heff1, hreach1⟩ | ⟨e, herr⟩
  · rw [hrun1]
    dsimp only
    have h1 := heff1.wf h
    -- level 2
    rcases nextTable_cases allowed h1 (tableIndex l2Shift ipa)
      (by rw [List.nil_append, List.length_singleton]; decide) hreach1 with
      ⟨t2, s2, hrun2, heff2, hreach2⟩ | ⟨e, herr⟩
    · rw [hrun2]
      exact .inl ⟨t2, s2, heff1.trans heff2, hreach2, rfl⟩
    · rw [herr]
      exact .inr ⟨e, s1, heff1, rfl⟩
  · rw [herr]
    exact .inr ⟨e, s, Effects.refl s, rfl⟩

/-- Mapping one page. -/
theorem mapL3Page_effects (h : s.Wf) {pa : Nat} (hipa : ipa < 2 ^ 39) (halign : ipa % 4096 = 0)
    (hpa : pa < 2 ^ 48) (hpaAlign : pa % 4096 = 0) (hallowed : allowed ipa pa) :
    Effects allowed s (Fallible.state ((mapL3Page ipa pa memType access exec).run s)) := by
  rcases mapL3Page_cases allowed memType access exec h ipa pa with
    ⟨t, s', heff, hreach, hrun⟩ | ⟨e, s', heff, hrun⟩
  · obtain ⟨hvalid, haddress⟩ := encodeL3PageDescriptor_fields hpaAlign hpa memType access exec
    rw [hrun]
    exact heff.trans (insertLeaf_effects hipa halign hreach hvalid haddress hallowed)
  · rw [hrun]
    exact heff

/-! ## Mapping a range -/

/-- What both mapping calls do after their checks: each page of a range in turn. -/
def mapRange (ipa pa count : Nat) (memType : GuestStage2MemoryType) (access : GuestStage2Access)
    (exec : GuestStage2Exec) : EStateM TranslationError State Unit :=
  (List.range count).forM fun k =>
    mapL3Page (ipa + k * pageSize) (pa + k * pageSize) memType access exec

/-- Whole pages of both address spaces that a range can be mapped between. -/
structure InReach (ipa pa count : Nat) : Prop where
  ipaAlign : ipa % 4096 = 0
  paAlign : pa % 4096 = 0
  ipaEnd : ipa + count * 4096 ≤ 2 ^ 39
  paEnd : pa + count * 4096 ≤ 2 ^ 48

theorem InReach.page {pa count k : Nat} (h : InReach ipa pa count) (hk : k < count) :
    ipa + k * pageSize < 2 ^ 39 ∧ (ipa + k * pageSize) % 4096 = 0 ∧
      pa + k * pageSize < 2 ^ 48 ∧ (pa + k * pageSize) % 4096 = 0 := by
  obtain ⟨halign, hpaAlign, hipa, hpa⟩ := h
  unfold pageSize
  omega

theorem mapRange_effects (h : s.Wf) {pa count : Nat} (hin : InReach ipa pa count)
    (hallowed : ∀ k, k < count → allowed (ipa + k * 4096) (pa + k * 4096)) :
    Effects allowed s (Fallible.state ((mapRange ipa pa count memType access exec).run s)) := by
  refine state_forM (R := fun s t => s.Wf → Effects allowed s t) (fun s _ => Effects.refl s)
    (fun hst htu hs => (hst hs).trans (htu ((hst hs).wf hs))) ?_ s h
  intro k hk s hs
  have hk := List.mem_range.mp hk
  obtain ⟨hipa, halign, hpa, hpaAlign⟩ := hin.page hk
  exact mapL3Page_effects hs hipa halign hpa hpaAlign (hallowed k hk)

variable (memType access exec) in
/-- The `while` loop of `map_with_pa_bits` is a loop over the pages of the range. -/
theorem mapPages_eq (ipa pa : Nat) : ∀ count k fuel, 4096 * count ≤ fuel →
    mapPages (ipa + (k + count) * 4096) memType access exec fuel (ipa + k * 4096)
        (pa + k * 4096) =
      (List.range' k count).forM fun k =>
        mapL3Page (ipa + k * pageSize) (pa + k * pageSize) memType access exec := by
  intro count
  induction count with
  | zero =>
    intro k fuel _
    rcases fuel with _ | fuel
    · rfl
    · rw [mapPages, if_neg (by omega)]
      rfl
  | succ count ih =>
    intro k fuel hfuel
    obtain ⟨fuel, rfl⟩ : ∃ f, fuel = f + 1 := ⟨fuel - 1, by omega⟩
    have hnext : ∀ a : Nat, a + k * 4096 + pageSize = a + (k + 1) * 4096 := by
      intro a
      show a + k * 4096 + 4096 = _
      omega
    have hstop : k + (count + 1) = k + 1 + count := by omega
    rw [mapPages, if_pos (by omega), hnext, hnext, hstop, ih (k + 1) fuel (by omega),
      List.range'_succ]
    rfl

/-- An IPA page of an entry and the physical page at the same offset. -/
def FromEntry (vmMem : List VmMem) (ipa pa : Nat) : Prop :=
  ∃ r, VmMem.ipaPa r ∈ vmMem ∧ r.ipa ≤ ipa ∧ ipa < r.ipa + r.size ∧ pa = r.pa + (ipa - r.ipa)

theorem State.Wf.page_lt (h : s.Wf) {p : Nat} (hp : p ∈ trackedPages s.vmMem) : p < 2 ^ 20 :=
  PageBitmap.lt_of_isSet (PageBitmap.mem_pageSet.mp (h.owned p hp).1)

/-- The pages of an entry are tracked. -/
theorem ipaPa_page_mem (hr : VmMem.ipaPa r ∈ vmMem) {k : Nat} (hk : k < r.size / 4096) :
    r.pa / 4096 + k ∈ trackedPages vmMem :=
  List.mem_flatMap.mpr ⟨_, hr, List.mem_range'_1.mpr ⟨by omega, by omega⟩⟩

/-- An entry with an IPA can be mapped, whatever page the allocator chose for it. -/
theorem State.Wf.inReach (h : s.Wf) (hr : VmMem.ipaPa r ∈ s.vmMem) :
    InReach r.ipa r.pa (r.size / 4096) ∧ r.pa + r.size ≤ 2 ^ 32 := by
  obtain ⟨-, halign, hsize, hpos, hle, hpaAlign⟩ := h.entries _ hr
  have hlast := h.page_lt (ipaPa_page_mem hr (k := r.size / 4096 - 1) (by omega))
  exact ⟨⟨halign, hpaAlign, by omega, by omega⟩, by omega⟩

/-- On an entry with an IPA, `map` is its range check and then the loop over the pages. -/
theorem mapWithPaBits_eq (h : s.Wf) (hfind : findUsage s.vmMem usage = some (.ipaPa r))
    (paBits : Nat) : (mapWithPaBits usage memType access exec paBits).run s =
      match checkBounds (r.ipa + r.size) (r.pa + r.size) paBits with
      | .ok _ => (mapRange r.ipa r.pa (r.size / 4096) memType access exec).run s
      | .error e => .error e s := by
  have hr := (findUsage_some hfind).1
  obtain ⟨-, -, hsize, -, hle, -⟩ := h.entries _ hr
  have hpa := (h.inReach hr).2
  have hipaEnd : r.ipaEnd = some (r.ipa + r.size) := checkedAdd_of_lt (by unfold wordBound; omega)
  have hpaEnd : r.paEnd = some (r.pa + r.size) := checkedAdd_of_lt (by unfold wordBound; omega)
  have hloop : mapPages (r.ipa + r.size) memType access exec (r.ipa + r.size - r.ipa) r.ipa r.pa =
      mapRange r.ipa r.pa (r.size / 4096) memType access exec := by
    have hstop : r.ipa + r.size = r.ipa + (0 + r.size / 4096) * 4096 := by omega
    have hpages := mapPages_eq memType access exec r.ipa r.pa (r.size / 4096) 0
      (r.ipa + r.size - r.ipa) (by omega)
    rw [← hstop, Nat.zero_mul, Nat.add_zero, Nat.add_zero] at hpages
    rw [hpages, mapRange, List.range_eq_range']
  unfold mapWithPaBits
  simp only [EStateM.run_bind, EStateM.run_get, hfind, hipaEnd, hpaEnd, run_orThrow_some, hloop]
  rcases checkBounds (r.ipa + r.size) (r.pa + r.size) paBits with e | u
  · rfl
  · rfl

/-- Without such an entry it refuses. -/
theorem mapWithPaBits_refuses (hfind : ∀ r, findUsage s.vmMem usage ≠ some (.ipaPa r))
    (paBits : Nat) :
    (mapWithPaBits usage memType access exec paBits).run s = .error .invalidateParameter s := by
  unfold mapWithPaBits
  simp only [EStateM.run_bind, EStateM.run_get]
  rcases hm : findUsage s.vmMem usage with _ | (r | r | r)
  · rfl
  · rfl
  · exact absurd hm (hfind r)
  · rfl

variable (memType access exec) in
theorem mapWithPaBits_effects (h : s.Wf) (usage : VmMemUsage) (paBits : Nat) :
    Effects (FromEntry s.vmMem) s
      (Fallible.state ((mapWithPaBits usage memType access exec paBits).run s)) := by
  by_cases hentry : ∃ r, findUsage s.vmMem usage = some (.ipaPa r)
  · obtain ⟨r, hfind⟩ := hentry
    have hr := (findUsage_some hfind).1
    obtain ⟨-, -, hsize, -, hle, -⟩ := h.entries _ hr
    rw [mapWithPaBits_eq h hfind]
    rcases checkBounds (r.ipa + r.size) (r.pa + r.size) paBits with e | u
    · exact Effects.refl s
    · refine mapRange_effects h (h.inReach hr).1 ?_
      intro k hk
      exact ⟨r, hr, by omega, by omega, by omega⟩
  · rw [mapWithPaBits_refuses (not_exists.mp hentry)]
    exact Effects.refl s

/-- The pages that a call of `map_external_device` was given for each other. -/
def DevicePage (ipa pa size : Nat) (ipaPage paPage : Nat) : Prop :=
  ∃ k, 4096 * k < size ∧ ipaPage = ipa + 4096 * k ∧ paPage = pa + 4096 * k

theorem paLimit_le {mmfr0 paBits : Nat} (h : paBitsOf mmfr0 = some paBits) :
    paLimit paBits ≤ 2 ^ 48 := by
  unfold paBitsOf at h
  split at h <;> cases h <;> decide

theorem checkBounds_ok {ipaEnd paEnd paBits : Nat} (h : checkBounds ipaEnd paEnd paBits = .ok ())
    (hipa : 0 < ipaEnd) (hpa : 0 < paEnd) : ipaEnd ≤ 2 ^ 39 ∧ paEnd ≤ paLimit paBits := by
  have hmaxIpa : (1 <<< ipaBits) - 1 = 2 ^ 39 - 1 := by decide
  have hlimit : 0 < paLimit paBits := by
    unfold paLimit
    rw [Nat.one_shiftLeft]
    exact Nat.two_pow_pos _
  unfold checkBounds at h
  rw [hmaxIpa, wrappingSub_of_le hipa, wrappingSub_of_le hpa] at h
  dsimp only at h
  split at h
  · cases h
  split at h
  · cases h
  exact ⟨by omega, by omega⟩

/-- A device call stops at its checks, or they held and it is the loop over the pages. -/
theorem mapExternalDeviceWithPaBits_cases (s : State) (ipa pa size : Nat) {paBits : Nat}
    (hbits : paLimit paBits ≤ 2 ^ 48) :
    (∃ e, (mapExternalDeviceWithPaBits ipa pa size paBits).run s = .error e s) ∨
    0 < size ∧ size % 4096 = 0 ∧ InReach ipa pa (size / 4096) ∧
      (mapExternalDeviceWithPaBits ipa pa size paBits).run s =
        (mapRange ipa pa (size / 4096) .deviceNgNre .readWrite .executeNever).run s := by
  unfold mapExternalDeviceWithPaBits
  simp only [EStateM.run_bind, run_ite]
  by_cases hbad : size = 0 ∨ (!isPageAligned ipa) = true ∨ (!isPageAligned pa) = true ∨
      (!isPageAligned size) = true
  · rw [if_pos hbad]
    exact .inl ⟨_, rfl⟩
  rw [if_neg hbad]
  simp only [not_or, Bool.not_eq_true', Bool.not_eq_false, isPageAligned_iff] at hbad
  obtain ⟨hpos, halign, hpaAlign, hsize⟩ := hbad
  simp only [EStateM.run_pure]
  rcases hipaEnd : checkedAdd ipa size with _ | ipaEnd
  · exact .inl ⟨_, rfl⟩
  obtain ⟨-, rfl⟩ := checkedAdd_eq_some.mp hipaEnd
  rcases hpaEnd : checkedAdd pa size with _ | paEnd
  · exact .inl ⟨_, rfl⟩
  obtain ⟨-, rfl⟩ := checkedAdd_eq_some.mp hpaEnd
  simp only [run_orThrow_some]
  rcases hbounds : checkBounds (ipa + size) (pa + size) paBits with e | u
  · exact .inl ⟨_, rfl⟩
  obtain ⟨hipaMax, hpaMax⟩ := checkBounds_ok hbounds (by omega) (by omega)
  exact .inr ⟨by omega, hsize, ⟨halign, hpaAlign, by omega, by omega⟩, rfl⟩

theorem mapExternalDevice_cases (s : State) (mmfr0 : Option Nat) (ipa pa size : Nat) :
    (∃ e, (mapExternalDevice mmfr0 ipa pa size).run s = .error e s) ∨
    0 < size ∧ size % 4096 = 0 ∧ InReach ipa pa (size / 4096) ∧
      (mapExternalDevice mmfr0 ipa pa size).run s =
        (mapRange ipa pa (size / 4096) .deviceNgNre .readWrite .executeNever).run s := by
  unfold mapExternalDevice
  simp only [EStateM.run_bind, run_ite]
  split_ifs
  · exact .inl ⟨_, rfl⟩
  · rcases mmfr0 with _ | mmfr0
    · exact .inl ⟨_, rfl⟩
    · rcases hbits : paBitsOf mmfr0 with _ | paBits
      · simp only [run_orThrow_some, hbits]
        exact .inl ⟨_, rfl⟩
      · simp only [run_orThrow_some, hbits]
        exact mapExternalDeviceWithPaBits_cases s ipa pa size (paLimit_le hbits)

theorem mapExternalDevice_effects (h : s.Wf) (mmfr0 : Option Nat) (ipa pa size : Nat) :
    Effects (DevicePage ipa pa size) s
      (Fallible.state ((mapExternalDevice mmfr0 ipa pa size).run s)) := by
  rcases mapExternalDevice_cases s mmfr0 ipa pa size with ⟨e, hrun⟩ | ⟨hpos, hsize, hin, hrun⟩
  · rw [hrun]
    exact Effects.refl s
  · rw [hrun]
    refine mapRange_effects h hin ?_
    intro k hk
    exact ⟨k, by omega, by omega, by omega⟩

/-- What the leaves of a call may bring together. -/
def Call.Allowed (s : State) : Call → Nat → Nat → Prop
  | .vmMemAlloc _ _ _ => fun _ _ => False
  | .map _ _ _ _ _ => FromEntry s.vmMem
  | .mapExternalDevice _ ipa pa size => DevicePage ipa pa size

/-- Every call is a sequence of effects, wherever it stops. -/
theorem call_effects (h : s.Wf) (c : Call) : Effects (c.Allowed s) s (s.call c) := by
  rcases c with ⟨usage, ipa, size⟩ | ⟨usage, memType, access, exec, paBits⟩ | ⟨mmfr0, ipa, pa, size⟩
  · exact vmMemAlloc_effects h usage ipa size
  · exact mapWithPaBits_effects _ _ _ h usage paBits
  · exact mapExternalDevice_effects h mmfr0 ipa pa size

end Tvisor.VmCtl
