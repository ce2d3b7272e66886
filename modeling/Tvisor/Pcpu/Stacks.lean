/-
# Tvisor.Pcpu.Stacks -- stacks for the secondary CPUs

`allocate_secondary_stacks` takes seventeen pages, a guard and a stack, for every enabled CPU but
the boot CPU. When the pages run out it frees, page by page, what it has taken so far.

What is taken is tracked as a list of page numbers: while the loop runs, the pages in use are those
that were in use before together with this list, and nothing is on the list twice. So the rollback
frees pages that are in use, each once, and the bitmaps end up as they were.
-/
import Tvisor.CpuTopology.Discovery
import Tvisor.PageAllocator.FirstFit
import Tvisor.Pcpu

namespace Tvisor.Pcpu

open SystemInfo Fallible Words Page CpuTopology PageAllocator

variable {n : Nat} {a : PageAllocator n}

/-! ## The source -/

def stackAllocationPages : Nat := (guardSize + stackSize) / pageSize

structure SecondaryStack where
  logicalId : Nat
  affinity : Nat
  layout : StackLayout
  deriving DecidableEq, Repr

/-- The stacks so far, and the allocator. -/
structure Stacking (n : Nat) where
  held : FixedList SecondaryStack maxCpus
  allocator : PageAllocator n

/-- `value.expect(..)` -/
def expect {ε α σ : Type} : Except ε α → EStateM (Stop AllocatorError) σ α
  | .ok a => pure a
  | .error _ => throw .panicked

/-- One round of the loop over the secondary CPUs. -/
def allocateStack (cpu : CpuDescriptor) : EStateM (Stop AllocatorError) (Stacking n) Unit := do
  let logicalId ← orThrow (.error .invalidateParameter) cpu.logicalId
  let base ← zoom Stacking.allocator (fun s a => { s with allocator := a })
    (mapError Stop.error (allocateContiguous stackAllocationPages))
  let layout ← expect (stackLayout base)
  let held ← expect ((← get).held.push { logicalId, affinity := cpu.affinity, layout })
  modify fun s => { s with held }

/-- `(guard_start..top).step_by(PAGE_SIZE)` -/
def StackLayout.pages (layout : StackLayout) : List Nat := stepPages layout.guardStart layout.top

/-- What is done with the stacks of an allocation that failed. -/
def rollback (held : List SecondaryStack) : EStateM AllocatorError (PageAllocator n) Unit :=
  held.forM fun stack => stack.layout.pages.forM free

/-- `cpu.enabled && cpu.logical_id != Some(0)` -/
def secondaries (topology : Topology) : List CpuDescriptor :=
  topology.cpus.entries.filter fun cpu => cpu.enabled && cpu.logicalId != some 0

/-- The loop, from no stacks. -/
def allocateStacks (topology : Topology) (a : PageAllocator n) :
    EStateM.Result (Stop AllocatorError) (Stacking n) Unit :=
  ((secondaries topology).forM allocateStack).run ⟨.empty, a⟩

def allocateSecondaryStacks (topology : Topology) :
    EStateM (Stop AllocatorError) (PageAllocator n) (FixedList SecondaryStack maxCpus) := fun a =>
  match allocateStacks topology a with
  | .ok _ s => .ok s.held s.allocator
  | .error .panicked s => .error .panicked s.allocator
  | .error (.error e) s =>
      match (rollback s.held.entries).run s.allocator with
      | .ok _ a' => .error (.error e) a'
      | .error e' a' => .error (.error e') a'

/-! ## The pages of a stack -/

/-- The layout of a stack whose guard is this page. -/
def layoutAt (first : Nat) : StackLayout := ⟨4096 * first, 4096 * (first + 1), 4096 * (first + 17)⟩

theorem stackLayout_page {first : Nat} (h : 4096 * (first + 17) < wordBound) :
    stackLayout (4096 * first) = .ok (layoutAt first) := by
  have hbottom : 4096 * (first + 1) = 4096 * first + 4096 := by omega
  have htop : 4096 * (first + 17) = 4096 * first + 69632 := by omega
  unfold layoutAt
  rw [htop] at h ⊢
  rw [hbottom]
  exact stackLayout_ok (Nat.mul_mod_right 4096 first) h

theorem range'_pageSize (first count : Nat) :
    List.range' (4096 * first) count pageSize = (List.range' first count).map (4096 * ·) := by
  induction count generalizing first with
  | zero => rfl
  | succ count ih =>
    have hnext : 4096 * first + pageSize = 4096 * (first + 1) := rfl
    rw [List.range'_succ, List.range'_succ, List.map_cons, hnext, ih]

theorem pages_layoutAt (first : Nat) :
    (layoutAt first).pages = (List.range' first 17).map (4096 * ·) := by
  have hcount : (4096 * (first + 17) - 4096 * first + (pageSize - 1)) / pageSize = 17 := by
    unfold pageSize
    omega
  show List.range' (4096 * first) ((4096 * (first + 17) - 4096 * first + (pageSize - 1)) / pageSize)
    pageSize = _
  rw [hcount, range'_pageSize]

/-- The page numbers of stacks, guards included. -/
def pageNumbers (held : List SecondaryStack) : List Nat :=
  held.flatMap fun stack => List.range' (stack.layout.guardStart / 4096) 17

theorem pageNumbers_layoutAt (first : Nat) :
    List.range' ((layoutAt first).guardStart / 4096) 17 = List.range' first 17 := by
  show List.range' (4096 * first / 4096) 17 = _
  rw [Nat.mul_div_cancel_left first (by decide)]

/-! ## Freeing -/

theorem givePages_append (a : PageAllocator n) (pages more : List Nat) :
    a.givePages (pages ++ more) = (a.givePages pages).givePages more := by
  show ({ a with inUse := (pages ++ more).foldl _ _ } : PageAllocator n) = _
  rw [List.foldl_append]
  rfl

theorem free_inUse (h : a.Coherent) {page : Nat} (hpage : page ∈ a.inUse.pageSet) :
    (free (4096 * page)).run a = .ok () (a.givePages [page]) := by
  rcases free_cases a (4096 * page) with ⟨-, -, hok⟩ | ⟨e, hne, -⟩
  · rw [hok, Nat.mul_div_cancel_left page (by decide)]
    rfl
  · exact absurd (h.state_inUse hpage) hne

/-- After one of two disjoint lists of pages in use has been given back, the other is still in
use. -/
theorem inUse_of_disjoint {pages more : List Nat} (hdisjoint : pages.Disjoint more)
    (hpages : ∀ p ∈ pages, p ∈ a.inUse.pageSet) (hmore : ∀ p ∈ more, p ∈ a.inUse.pageSet) :
    ∀ p ∈ more, p ∈ (a.givePages pages).inUse.pageSet := by
  intro p hp
  rw [inUse_givePages hpages, Finset.mem_sdiff, List.mem_toFinset]
  exact ⟨hmore p hp, fun hgiven => hdisjoint hgiven hp⟩

theorem freePages_run {pages : List Nat} (hnodup : pages.Nodup) (h : a.Coherent)
    (hpages : ∀ p ∈ pages, p ∈ a.inUse.pageSet) :
    ((pages.map (4096 * ·)).forM free).run a = .ok () (a.givePages pages) := by
  induction pages generalizing a with
  | nil => rfl
  | cons p rest ih =>
    obtain ⟨hp, hnodup⟩ := List.nodup_cons.mp hnodup
    obtain ⟨hused, hrest⟩ := List.forall_mem_cons.mp hpages
    have hone : ∀ q ∈ [p], q ∈ a.inUse.pageSet := List.forall_mem_singleton.mpr hused
    have hlater := inUse_of_disjoint (List.singleton_disjoint.mpr hp) hone hrest
    rw [List.map_cons]
    apply run_forM_cons_eq_ok.mpr
    refine ⟨a.givePages [p], free_inUse h hused, ?_⟩
    rw [ih hnodup (h.givePages hone) hlater, ← givePages_append]
    rfl

/-- The rollback of stacks whose pages are all in use. -/
theorem rollback_run {held : List SecondaryStack} (h : a.Coherent)
    (hlayout : ∀ stack ∈ held, ∃ first, stack.layout = layoutAt first)
    (hnodup : (pageNumbers held).Nodup) (hpages : ∀ p ∈ pageNumbers held, p ∈ a.inUse.pageSet) :
    (rollback held).run a = .ok () (a.givePages (pageNumbers held)) := by
  induction held generalizing a with
  | nil => rfl
  | cons stack rest ih =>
    obtain ⟨⟨first, hfirst⟩, hlayout⟩ := List.forall_mem_cons.mp hlayout
    have hcons : pageNumbers (stack :: rest) = List.range' first 17 ++ pageNumbers rest := by
      show List.range' (stack.layout.guardStart / 4096) 17 ++ pageNumbers rest = _
      rw [hfirst, pageNumbers_layoutAt]
    rw [hcons] at hnodup hpages ⊢
    obtain ⟨hone, hrest⟩ := List.forall_mem_append.mp hpages
    obtain ⟨hnodupOne, hnodupRest, hdisjoint⟩ := List.nodup_append'.mp hnodup
    unfold rollback
    apply run_forM_cons_eq_ok.mpr
    refine ⟨a.givePages (List.range' first 17), ?_, ?_⟩
    · rw [hfirst, pages_layoutAt]
      exact freePages_run hnodupOne h hone
    · rw [givePages_append]
      exact ih (h.givePages hone) hlayout hnodupRest (inUse_of_disjoint hdisjoint hone hrest)

/-! ## Taking -/

/-- The allocator `a`, after the pages of these stacks have been taken from it. -/
structure Holding (a : PageAllocator n) (held : List SecondaryStack) (b : PageAllocator n) :
    Prop where
  before : a.Coherent
  after : b.Coherent
  managed : b.managed = a.managed
  ramPages : b.ramPages = a.ramPages
  layout : ∀ stack ∈ held, ∃ first, stack.layout = layoutAt first
  nodup : (pageNumbers held).Nodup
  fresh : ∀ p ∈ pageNumbers held, p ∈ a.managed.pageSet ∧ p ∉ a.inUse.pageSet
  inUse : b.inUse.pageSet = a.inUse.pageSet ∪ (pageNumbers held).toFinset

section Holding

variable {b : PageAllocator n} {held : List SecondaryStack}

theorem Holding.none (h : a.Coherent) : Holding a [] a where
  before := h
  after := h
  managed := rfl
  ramPages := rfl
  layout := fun _ hstack => absurd hstack List.not_mem_nil
  nodup := List.nodup_nil
  fresh := fun _ hp => absurd hp List.not_mem_nil
  inUse := (Finset.union_empty _).symm

/-- One more stack, on a run of pages that is still unused. -/
theorem Holding.take (h : Holding a held b) {first : Nat} (hrun : IsRun b.isUnused 17 first)
    {stack : SecondaryStack} (hstack : stack.layout = layoutAt first) :
    Holding a (held ++ [stack]) (b.takeRun first 17) := by
  have hnumbers : pageNumbers (held ++ [stack]) = pageNumbers held ++ List.range' first 17 := by
    unfold pageNumbers
    rw [List.flatMap_append, List.flatMap_singleton, hstack, pageNumbers_layoutAt]
  have hunused := run_managed hrun
  constructor
  case before => exact h.before
  case after => exact h.after.takeRun hrun
  case managed => exact h.managed
  case ramPages => exact h.ramPages
  case layout =>
    intro other hother
    rcases List.mem_append.mp hother with hold | hnew
    · exact h.layout other hold
    · rw [List.mem_singleton.mp hnew]
      exact ⟨first, hstack⟩
  case nodup =>
    rw [hnumbers]
    refine h.nodup.append (List.nodup_range' ..) fun p hold hnew => (hunused p hnew).2 ?_
    rw [h.inUse]
    exact Finset.mem_union_right _ (List.mem_toFinset.mpr hold)
  case fresh =>
    intro p hp
    rw [hnumbers] at hp
    rcases List.mem_append.mp hp with hold | hnew
    · exact h.fresh p hold
    · obtain ⟨hmanaged, hnot⟩ := hunused p hnew
      rw [h.managed] at hmanaged
      rw [h.inUse, Finset.mem_union, not_or] at hnot
      exact ⟨hmanaged, hnot.1⟩
  case inUse =>
    have hnew : Finset.Ico first (first + 17) = (List.range' first 17).toFinset := by
      ext p
      rw [Finset.mem_Ico, List.mem_toFinset, List.mem_range'_1]
    rw [inUse_takeRun hrun, h.inUse, hnumbers, List.toFinset_append, Finset.union_assoc, hnew]

/-- Freeing what is held restores the allocator, counts included. -/
theorem Holding.rollback (h : Holding a held b) : (rollback held).run b = .ok () a := by
  have hpages : ∀ p ∈ pageNumbers held, p ∈ b.inUse.pageSet := by
    intro p hp
    rw [h.inUse]
    exact Finset.mem_union_right _ (List.mem_toFinset.mpr hp)
  rw [rollback_run h.after h.layout h.nodup hpages]
  congr 1
  apply PageAllocator.ext
  · exact h.managed
  · apply PageBitmap.eq_of_pageSet_eq (h.after.givePages hpages).inUse_counted
      h.before.inUse_counted
    rw [inUse_givePages hpages, h.inUse]
    apply Finset.union_sdiff_cancel_right
    rw [Finset.disjoint_right]
    intro p hp
    exact (h.fresh p (List.mem_toFinset.mp hp)).2
  · exact h.ramPages

end Holding

/-! ## The loop -/

variable {cpus : List CpuDescriptor}

/-- What a stack says about its CPU. -/
def SecondaryStack.For (stack : SecondaryStack) (cpu : CpuDescriptor) : Prop :=
  cpu.logicalId = some stack.logicalId ∧ stack.affinity = cpu.affinity

/-- One round: a stack is added, or there is no room for one and nothing has changed. The list has
room as long as there are no more CPUs than it can hold. -/
theorem allocateStack_cases {s : Stacking n} (h : Holding a s.held.entries s.allocator)
    {cpu : CpuDescriptor} {id : Nat} (hid : cpu.logicalId = some id)
    (hroom : s.held.len < maxCpus) :
    (∃ t stack, (allocateStack cpu).run s = .ok () t ∧
      t.held.entries = s.held.entries ++ [stack] ∧ stack.For cpu ∧
      Holding a t.held.entries t.allocator) ∨
    (allocateStack cpu).run s = .error (.error .exhausted) s := by
  have hpages : stackAllocationPages = 17 := rfl
  unfold allocateStack
  rw [hid, hpages]
  rcases allocateContiguous_cases s.allocator 17 with ⟨first, _, _, hrun, -, hok⟩ | ⟨-, herror⟩
  · left
    have hlast := (isUnused_iff.mp (hrun (first + 16) (by omega) (by omega))).1
    have haperture := h.after.managed_aperture (first + 16) hlast
    have hbound := apertureEnd_lt n
    have haddress : wrappingMul first 4096 = 4096 * first :=
      address_eq h.after (hrun first (Nat.le_refl _) (by omega))
    have hlayout : stackLayout (wrappingMul first 4096) = .ok (layoutAt first) := by
      rw [haddress]
      exact stackLayout_page (by omega)
    obtain ⟨held, hpush, hentries⟩ :=
      FixedList.push_of_lt (⟨id, cpu.affinity, layoutAt first⟩ : SecondaryStack) hroom
    refine ⟨⟨held, s.allocator.takeRun first 17⟩, _, ?_, hentries, ⟨hid, rfl⟩, ?_⟩
    · rw [run_bind_eq_ok]
      refine ⟨id, s, rfl, ?_⟩
      rw [run_bind_eq_ok]
      refine ⟨wrappingMul first 4096, ⟨s.held, s.allocator.takeRun first 17⟩, ?_, ?_⟩
      · rw [run_zoom, run_mapError, hok]
        rfl
      · rw [hlayout]
        show ((do let held ← expect (s.held.push _); _) : EStateM _ _ Unit).run _ = _
        rw [hpush]
        rfl
    · show Holding a held.entries _
      rw [hentries]
      exact h.take hrun rfl
  · right
    rw [EStateM.run_bind, run_orThrow_some]
    dsimp only
    rw [EStateM.run_bind, run_zoom, run_mapError, herror]

/-- The loop over CPUs that all have a number, as many as there is room for. -/
theorem allocateEach_cases {s : Stacking n} (h : Holding a s.held.entries s.allocator)
    (hids : ∀ cpu ∈ cpus, cpu.logicalId.isSome) (hroom : s.held.len + cpus.length ≤ maxCpus) :
    (∃ t made, (cpus.forM allocateStack).run s = .ok () t ∧
      t.held.entries = s.held.entries ++ made ∧ List.Forall₂ SecondaryStack.For made cpus ∧
      Holding a t.held.entries t.allocator) ∨
    (∃ t, (cpus.forM allocateStack).run s = .error (.error .exhausted) t ∧
      Holding a t.held.entries t.allocator) := by
  induction cpus generalizing s with
  | nil => exact Or.inl ⟨s, [], rfl, (List.append_nil _).symm, .nil, h⟩
  | cons cpu rest ih =>
    obtain ⟨hid, hids⟩ := List.forall_mem_cons.mp hids
    obtain ⟨id, hid⟩ := Option.isSome_iff_exists.mp hid
    rw [List.length_cons] at hroom
    rw [run_forM_cons]
    rcases allocateStack_cases h hid (by omega) with ⟨t, stack, hrun, hentries, hfor, hold⟩ | hrun
    · have hlen : t.held.len = s.held.len + 1 := by
        unfold FixedList.len
        rw [hentries, List.length_append, List.length_singleton]
      rw [hrun]
      dsimp only
      rcases ih hold hids (by omega) with ⟨u, made, hrest, hmade, hall, hold⟩ | hfailed
      · refine Or.inl ⟨u, stack :: made, hrest, ?_, .cons hfor hall, hold⟩
        rw [hmade, hentries, List.append_assoc]
        rfl
      · exact Or.inr hfailed
    · rw [hrun]
      exact Or.inr ⟨s, rfl, h⟩

/-! ## The secondary CPUs of a discovered topology -/

/-- The enabled CPUs other than the one that booted. -/
def enabledNonBoot (topology : Topology) (bootMpidr : Nat) : List CpuDescriptor :=
  topology.cpus.entries.filter fun cpu => cpu.enabled && cpu.affinity != bootAffinity bootMpidr

section Discovered

variable {topology : Topology} {bootMpidr : Nat}

/-- An enabled CPU behind the first has a number, which is not 0. -/
theorem rest_numbered (h : Discovered topology bootMpidr) {boot : CpuDescriptor}
    {rest : List CpuDescriptor} (hentries : topology.cpus.entries = boot :: rest)
    (hboot : boot.enabled = true) :
    ∀ cpu ∈ rest, cpu.enabled = true → ∃ id, cpu.logicalId = some id ∧ id ≠ 0 := by
  intro cpu hcpu henabled
  have hnumbered := h.numbered
  rw [hentries, List.filter_cons_of_pos hboot, List.map_cons, List.length_cons,
    List.range_succ_eq_map, List.map_cons, List.map_map] at hnumbered
  have hmem : cpu.logicalId ∈ (rest.filter CpuDescriptor.enabled).map CpuDescriptor.logicalId :=
    List.mem_map_of_mem (List.mem_filter.mpr ⟨hcpu, henabled⟩)
  rw [(List.cons.inj hnumbered).2] at hmem
  obtain ⟨k, _, hk⟩ := List.mem_map.mp hmem
  exact ⟨k + 1, hk.symm, Nat.succ_ne_zero k⟩

/-- The number 0 and the affinity of the boot CPU pick out the same CPU. -/
theorem secondaries_eq (h : Discovered topology bootMpidr) :
    secondaries topology = enabledNonBoot topology bootMpidr := by
  obtain ⟨boot, rest, hentries, hboot, haffinity, hid⟩ := h.boot
  have hnodup := h.affinities
  rw [hentries, List.map_cons, List.nodup_cons] at hnodup
  unfold secondaries enabledNonBoot
  apply List.filter_congr
  intro cpu hcpu
  rw [hentries] at hcpu
  rcases List.mem_cons.mp hcpu with rfl | hrest
  · rw [hid, haffinity]
    simp
  · cases henabled : cpu.enabled with
    | false => rfl
    | true =>
      obtain ⟨id, hsome, hne⟩ := rest_numbered h hentries hboot cpu hrest henabled
      have hother : cpu.affinity ≠ bootAffinity bootMpidr := by
        intro heq
        rw [← haffinity] at heq
        exact hnodup.1 (heq ▸ List.mem_map_of_mem hrest)
      have hnumber : some id ≠ some 0 := fun heq => hne (Option.some.inj heq)
      rw [hsome, bne_iff_ne.mpr hnumber, bne_iff_ne.mpr hother]

theorem secondaries_numbered (h : Discovered topology bootMpidr) :
    ∀ cpu ∈ secondaries topology, cpu.logicalId.isSome := by
  obtain ⟨boot, rest, hentries, hboot, -, hid⟩ := h.boot
  intro cpu hcpu
  obtain ⟨hmem, htest⟩ := List.mem_filter.mp hcpu
  rw [hentries] at hmem
  rcases List.mem_cons.mp hmem with rfl | hrest
  · rw [hid]
    rfl
  · obtain ⟨id, hsome, _⟩ :=
      rest_numbered h hentries hboot cpu hrest (Bool.and_eq_true_iff.mp htest).1
    rw [hsome]
    rfl

theorem length_secondaries (topology : Topology) : (secondaries topology).length ≤ maxCpus :=
  (List.length_filter_le ..).trans topology.cpus.len_le

end Discovered

/-! ## Atomicity -/

/-- The ranges of two stacks, guards included, have no byte in common. -/
def SecondaryStack.Apart (s t : SecondaryStack) : Prop :=
  s.layout.top ≤ t.layout.guardStart ∨ t.layout.top ≤ s.layout.guardStart

/-- One stack for each of these CPUs, on pages that were unused, with nothing else changed. -/
structure Stacked (cpus : List CpuDescriptor) (a : PageAllocator n) (made : List SecondaryStack)
    (b : PageAllocator n) : Prop where
  assigned : List.Forall₂ SecondaryStack.For made cpus
  seventeen : ∀ s ∈ made, s.layout.guardStart % 4096 = 0 ∧
    s.layout.bottom = s.layout.guardStart + 4096 ∧
    s.layout.top = s.layout.guardStart + 17 * 4096
  apart : made.Pairwise SecondaryStack.Apart
  managed : b.managed = a.managed
  ramPages : b.ramPages = a.ramPages
  inside : ∀ s ∈ made, ∀ page, s.layout.guardStart ≤ 4096 * page → 4096 * page < s.layout.top →
    a.state (4096 * page) = .ok .unused ∧ b.state (4096 * page) = .ok .inUse
  outside : ∀ address, (∀ s ∈ made, address < s.layout.guardStart ∨ s.layout.top ≤ address) →
    b.state address = a.state address

/-- The outcomes of an atomic allocation: all the stacks, or an error and the allocator as it
was. -/
inductive Atomic (cpus : List CpuDescriptor) (a : PageAllocator n) :
    EStateM.Result (Stop AllocatorError) (PageAllocator n) (FixedList SecondaryStack maxCpus) → Prop
  | stacked {made : FixedList SecondaryStack maxCpus} {b : PageAllocator n}
      (h : Stacked cpus a made.entries b) : Atomic cpus a (.ok made b)
  | unchanged (e : AllocatorError) : Atomic cpus a (.error (.error e) a)

variable {made : List SecondaryStack}

/-- The page numbers of a stack are those of the bytes from its guard to its top. -/
theorem mem_pageNumbers (hlayout : ∀ s ∈ made, ∃ first, s.layout = layoutAt first) {page : Nat} :
    page ∈ pageNumbers made ↔
      ∃ s ∈ made, s.layout.guardStart ≤ 4096 * page ∧ 4096 * page < s.layout.top := by
  unfold pageNumbers
  rw [List.mem_flatMap]
  refine exists_congr fun s => and_congr_right fun hs => ?_
  obtain ⟨first, hfirst⟩ := hlayout s hs
  rw [hfirst, pageNumbers_layoutAt, List.mem_range'_1]
  show _ ↔ 4096 * first ≤ 4096 * page ∧ 4096 * page < 4096 * (first + 17)
  omega

theorem apart_of_nodup (hlayout : ∀ s ∈ made, ∃ first, s.layout = layoutAt first)
    (hnodup : (pageNumbers made).Nodup) :
    made.Pairwise SecondaryStack.Apart := by
  apply (List.nodup_flatMap.mp hnodup).2.imp_of_mem
  intro s t hs ht hdisjoint
  obtain ⟨first, hfirst⟩ := hlayout s hs
  obtain ⟨second, hsecond⟩ := hlayout t ht
  rw [Function.onFun, hfirst, hsecond, pageNumbers_layoutAt, pageNumbers_layoutAt] at hdisjoint
  unfold SecondaryStack.Apart
  rw [hfirst, hsecond]
  show 4096 * (first + 17) ≤ 4096 * second ∨ 4096 * (second + 17) ≤ 4096 * first
  -- Otherwise the later of the two guards is a page of both.
  by_contra hmeet
  exact @hdisjoint (max first second) (List.mem_range'_1.mpr (by omega))
    (List.mem_range'_1.mpr (by omega))

theorem Holding.stacked {a b : PageAllocator n} (h : Holding a made b)
    (hfor : List.Forall₂ SecondaryStack.For made cpus) :
    Stacked cpus a made b where
  assigned := hfor
  seventeen s hs := by
    obtain ⟨first, hfirst⟩ := h.layout s hs
    rw [hfirst]
    show 4096 * first % 4096 = 0 ∧ 4096 * (first + 1) = 4096 * first + 4096 ∧
      4096 * (first + 17) = 4096 * first + 17 * 4096
    omega
  apart := apart_of_nodup h.layout h.nodup
  managed := h.managed
  ramPages := h.ramPages
  inside s hs page hlo hhi := by
    have hpage := (mem_pageNumbers h.layout).mpr ⟨s, hs, hlo, hhi⟩
    constructor
    · exact h.before.state_unused (isUnused_iff.mpr (h.fresh page hpage))
    · apply h.after.state_inUse
      rw [h.inUse]
      exact Finset.mem_union_right _ (List.mem_toFinset.mpr hpage)
  outside address hout := by
    apply state_congr h.managed
    by_cases haligned : address = 4096 * (address / 4096)
    · left
      have hnot : address / 4096 ∉ pageNumbers made := by
        intro hpage
        obtain ⟨s, hs, hlo, hhi⟩ := (mem_pageNumbers h.layout).mp hpage
        have := hout s hs
        omega
      apply Bool.eq_iff_iff.mpr
      rw [← PageBitmap.mem_pageSet, ← PageBitmap.mem_pageSet, h.inUse, Finset.mem_union,
        List.mem_toFinset]
      exact or_iff_left hnot
    · exact Or.inr haligned

/-- Stack allocation is atomic, for every topology that discovery returns and every state the
allocator can be in. A loop that stops has run out of pages and not met a failing `expect`, and the
rollback then frees everything without an error. -/
theorem allocateSecondaryStacks_atomic {r m u : Nat} {ram : FixedList PhysRegion r}
    {allocatable : FixedList PhysRegion m} {initiallyUnused : FixedList PhysRegion u}
    {storage built : PageAllocator n}
    (hnew : (new ram allocatable initiallyUnused).run storage = .ok () built) (ops : List Op)
    {tree : CpuTree} {bootMpidr : Nat} {topology : Topology}
    (htopology : discoverCpuTopology tree bootMpidr = .ok topology) :
    let a := (session built ops).allocator
    Atomic (enabledNonBoot topology bootMpidr) a ((allocateSecondaryStacks topology).run a) ∧
    ∀ stop s, allocateStacks topology a = .error stop s →
      stop = .error .exhausted ∧ (rollback s.held.entries).run s.allocator = .ok () a := by
  intro a
  have hcoherent : a.Coherent := (session_managed (new_ok hnew).coherent ops).1
  have hdiscovered := discovered_of_ok htopology
  have hroom : (FixedList.empty : FixedList SecondaryStack maxCpus).len +
      (secondaries topology).length ≤ maxCpus := by
    show 0 + _ ≤ _
    rw [Nat.zero_add]
    exact length_secondaries topology
  show Atomic _ a (allocateSecondaryStacks topology a) ∧ _
  unfold allocateSecondaryStacks allocateStacks
  rcases @allocateEach_cases n a (secondaries topology) ⟨.empty, a⟩ (Holding.none hcoherent)
      (secondaries_numbered hdiscovered) hroom with
    ⟨s, made, hrun, hentries, hfor, hold⟩ | ⟨s, hrun, hold⟩
  · rw [hrun]
    refine ⟨.stacked (hold.stacked ?_), fun _ _ hstop => by cases hstop⟩
    rw [hentries, ← secondaries_eq hdiscovered]
    exact hfor
  · rw [hrun]
    dsimp only
    rw [hold.rollback]
    refine ⟨.unchanged .exhausted, fun stop t hstop => ?_⟩
    cases hstop
    exact ⟨rfl, hold.rollback⟩

/-- Twenty-four pages, all unused. -/
def twentyFourPages : EStateM.Result AllocatorError (PageAllocator 3) Unit :=
  (new (oneRegion 0 0x18000 (by decide) (by decide)) (oneRegion 0 0x18000 (by decide) (by decide))
    (oneRegion 0 0x18000 (by decide) (by decide))).run ⟨.zeroed, .zeroed, 0⟩

/-- A CPU without an enable method. -/
def plainCpu (affinity : UInt32) : CpuNode where
  nameWithoutAddress := "cpu"
  deviceType := some (.ok "cpu")
  status := .ok .okay
  reg := some ⟨.ok affinity, .error ⟨⟩⟩
  enableMethod := none
  cpuReleaseAddr := none

/-- Two CPUs, of which the second in the tree boots. -/
def twoCpus : CpuTree where
  cpus := some
    { status := .ok .okay
      addressCells := some (.ok 1)
      sizeCells := some (.ok 0)
      children := [plainCpu 1, plainCpu 0] }
  children := []

def twoCpusTopology : Topology where
  cpus := ⟨[⟨0, true, some 0, .missing⟩, ⟨1, true, some 1, .missing⟩], by decide⟩
  psci := none

theorem allocateSecondaryStacks_atomic_twoCpus :
    let a := (session (Fallible.state twentyFourPages) [.allocateContiguous 2]).allocator
    twentyFourPages = .ok () (Fallible.state twentyFourPages) ∧
      discoverCpuTopology twoCpus 0 = .ok twoCpusTopology ∧
      (Fallible.outcome ((allocateSecondaryStacks twoCpusTopology).run a)).toOption.map
        FixedList.len = some 1 ∧
      Atomic (enabledNonBoot twoCpusTopology 0) a
        ((allocateSecondaryStacks twoCpusTopology).run a) := by
  intro a
  have hnew : twentyFourPages = .ok () (Fallible.state twentyFourPages) :=
    eq_ok_of_isOk (by decide +kernel)
  have htopology : discoverCpuTopology twoCpus 0 = .ok twoCpusTopology := by decide +kernel
  exact ⟨hnew, htopology, by decide +kernel,
    (allocateSecondaryStacks_atomic hnew [.allocateContiguous 2] htopology).1⟩

end Tvisor.Pcpu
