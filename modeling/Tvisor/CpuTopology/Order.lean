/-
# Tvisor.CpuTopology.Order -- discovery does not depend on the order of the tree

What a child of `/cpus` says does not depend on the children before it; only whether it is accepted
does, and acceptance of all of them is a property of the whole list: no affinity twice, at most four
CPUs. The arrangement then picks out the boot CPU and sorts the others by a key without duplicates,
so it is the same for every order.

The arranged list is the one that `secondary_mask` and `validate_spin_table_target` are written for:
the numbers of the enabled CPUs are 0, 1, 2 and so on, so the mask of the secondaries is a run of
ones without its lowest bit.
-/
import Mathlib.Data.List.Forall2
import Mathlib.Data.List.Perm.Basic
import Mathlib.Data.List.ReduceOption
import Tvisor.CpuTopology.Discovery
import Tvisor.SecondaryEntry

namespace Tvisor.CpuTopology

open SystemInfo Words Platform SecondaryEntry
open Fallible (bind_eq_ok)

/-! ## The loop over the children -/

section Loop

variable {cells : Nat} {psci : Option PsciDescription}

/-- The children say these things, one after the other. -/
def Says (cells : Nat) (psci : Option PsciDescription) (children : List CpuNode)
    (found : List (Option CpuDescriptor)) : Prop :=
  List.Forall₂ (fun node d => describe cells psci node = .ok d) children found

theorem Says.exists_node {children : List CpuNode} {found : List (Option CpuDescriptor)}
    (h : Says cells psci children found) {d : Option CpuDescriptor} (hd : d ∈ found) :
    ∃ node ∈ children, describe cells psci node = .ok d := by
  induction h with
  | nil => cases hd
  | @cons node d' children found hnode _ ih =>
    rcases List.mem_cons.mp hd with rfl | hd
    · exact ⟨node, List.mem_cons_self, hnode⟩
    · obtain ⟨node', hmem, hnode'⟩ := ih hd
      exact ⟨node', List.mem_cons_of_mem node hmem, hnode'⟩

theorem reduceOption_cons (d : Option CpuDescriptor) (found : List (Option CpuDescriptor)) :
    (d :: found).reduceOption = d.toList ++ found.reduceOption := by
  rcases d with _ | cpu
  · rfl
  · rfl

/-- A first part of CPUs with distinct affinities is a step on the way to all of them. -/
theorem extends_of_nodup {start : List CpuDescriptor} {d : Option CpuDescriptor}
    (h : ((start ++ d.toList).map CpuDescriptor.affinity).Nodup) :
    Extends start (start ++ d.toList) d := by
  refine ⟨rfl, ?_⟩
  rintro cpu ⟨⟩ other hother heq
  rw [List.map_append, List.nodup_append] at h
  exact h.2.2 other.affinity (List.mem_map_of_mem hother) cpu.affinity (by simp) heq

/-- The loop succeeds exactly when every child is in order and no affinity comes twice. -/
theorem foldlM_addNode_eq_ok {children : List CpuNode}
    {start cpus : FixedList CpuDescriptor maxCpus}
    (hstart : (start.entries.map CpuDescriptor.affinity).Nodup) :
    children.foldlM (addNode cells psci) start = .ok cpus ↔
      ∃ found, Says cells psci children found ∧
        cpus.entries = start.entries ++ found.reduceOption ∧
        (cpus.entries.map CpuDescriptor.affinity).Nodup := by
  induction children generalizing start with
  | nil =>
    constructor
    · rintro ⟨⟩
      exact ⟨[], .nil, (List.append_nil _).symm, hstart⟩
    · rintro ⟨found, hsays, hentries, -⟩
      cases hsays
      exact congrArg Except.ok (FixedList.ext (hentries.trans (List.append_nil _)).symm)
  | cons node children ih =>
    rw [List.foldlM_cons, bind_eq_ok]
    constructor
    · rintro ⟨mid, hnode, hrest⟩
      obtain ⟨d, hd, hextends⟩ := addNode_eq_ok.mp hnode
      obtain ⟨found, hsays, hentries, hnodup⟩ := (ih (addNode_nodup hstart hnode)).mp hrest
      refine ⟨d :: found, .cons hd hsays, ?_, hnodup⟩
      rw [hentries, hextends.1, reduceOption_cons, List.append_assoc]
    · rintro ⟨found, hsays, hentries, hnodup⟩
      obtain ⟨d, found, hd, hrest, rfl⟩ := List.forall₂_cons_left_iff.mp hsays
      rw [reduceOption_cons, ← List.append_assoc] at hentries
      have hmid : ((start.entries ++ d.toList).map CpuDescriptor.affinity).Nodup := by
        rw [hentries, List.map_append] at hnodup
        exact (List.nodup_append.mp hnodup).1
      have hlen : (start.entries ++ d.toList).length ≤ maxCpus := by
        have hle := cpus.len_le
        rw [hentries, List.length_append] at hle
        omega
      refine ⟨⟨start.entries ++ d.toList, hlen⟩,
        addNode_eq_ok.mpr ⟨d, hd, extends_of_nodup hmid⟩, ?_⟩
      exact (ih hmid).mpr ⟨found, hrest, hentries, hnodup⟩

theorem foldlM_addNode_empty {children : List CpuNode} {cpus : FixedList CpuDescriptor maxCpus} :
    children.foldlM (addNode cells psci) FixedList.empty = .ok cpus ↔
      ∃ found, Says cells psci children found ∧ cpus.entries = found.reduceOption ∧
        (cpus.entries.map CpuDescriptor.affinity).Nodup :=
  @foldlM_addNode_eq_ok cells psci children FixedList.empty cpus List.nodup_nil

/-- In another order the same CPUs are found. -/
theorem foldlM_addNode_perm {children children' : List CpuNode}
    {cpus : FixedList CpuDescriptor maxCpus} (hperm : children'.Perm children)
    (h : children.foldlM (addNode cells psci) FixedList.empty = .ok cpus) :
    ∃ cpus', children'.foldlM (addNode cells psci) FixedList.empty = .ok cpus' ∧
      cpus'.entries.Perm cpus.entries := by
  obtain ⟨found, hsays, hentries, hnodup⟩ := foldlM_addNode_empty.mp h
  obtain ⟨found', hsays', hfound⟩ := List.perm_comp_forall₂ hperm hsays
  have hcpus : found'.reduceOption.Perm cpus.entries := by
    rw [hentries]
    exact hfound.filterMap id
  refine ⟨⟨found'.reduceOption, hcpus.length_eq.trans_le cpus.len_le⟩, ?_, hcpus⟩
  exact foldlM_addNode_empty.mpr
    ⟨found', hsays', rfl, ((hcpus.map _).nodup_iff).mpr hnodup⟩

end Loop

/-! ## The arrangement -/

section Arrangement

variable {cpus cpus' : List CpuDescriptor} {p : CpuDescriptor → Bool} {boot boot' : Nat}

theorem eq_of_affinity (hnodup : (cpus.map CpuDescriptor.affinity).Nodup) {a b : CpuDescriptor}
    (ha : a ∈ cpus) (hb : b ∈ cpus) (h : a.affinity = b.affinity) : a = b :=
  List.inj_on_of_nodup_map hnodup ha hb h

instance : Std.Total fun a b : CpuDescriptor => a.affinity ≤ b.affinity :=
  ⟨fun a b => le_total a.affinity b.affinity⟩

instance : IsTrans CpuDescriptor fun a b => a.affinity ≤ b.affinity :=
  ⟨fun _ _ _ => le_trans⟩

theorem insertionSort_eq_of_perm (hperm : cpus'.Perm cpus)
    (hnodup : (cpus.map CpuDescriptor.affinity).Nodup) :
    cpus'.insertionSort (fun a b => a.affinity ≤ b.affinity) =
      cpus.insertionSort (fun a b => a.affinity ≤ b.affinity) := by
  have hsorted := List.perm_insertionSort (fun a b : CpuDescriptor => a.affinity ≤ b.affinity)
  refine List.Perm.eq_of_pairwise ?_ (List.pairwise_insertionSort _ cpus')
    (List.pairwise_insertionSort _ cpus) ?_
  · intro a b ha hb hab hba
    exact eq_of_affinity hnodup (hperm.subset ((hsorted cpus').subset ha))
      ((hsorted cpus).subset hb) (le_antisymm hab hba)
  · exact (hsorted cpus').trans (hperm.trans (hsorted cpus).symm)

/-- The boot CPU is found by its affinity, wherever it is. -/
theorem sortRest_swapFirst_eq {affinity : Nat} (hperm : cpus'.Perm cpus)
    (hnodup : (cpus.map CpuDescriptor.affinity).Nodup)
    (hboot : cpus.findIdx? (fun cpu => cpu.enabled && cpu.affinity == affinity) = some boot)
    (hboot' : cpus'.findIdx? (fun cpu => cpu.enabled && cpu.affinity == affinity) = some boot') :
    sortRest (swapFirst cpus' boot') = sortRest (swapFirst cpus boot) := by
  obtain ⟨hlt, hfound, -⟩ := List.findIdx?_eq_some_iff_getElem.mp hboot
  obtain ⟨hlt', hfound', -⟩ := List.findIdx?_eq_some_iff_getElem.mp hboot'
  have haffinity := beq_iff_eq.mp (Bool.and_eq_true_iff.mp hfound).2
  have haffinity' := beq_iff_eq.mp (Bool.and_eq_true_iff.mp hfound').2
  have hsame : cpus'[boot'] = cpus[boot] :=
    eq_of_affinity hnodup (hperm.subset (List.getElem_mem hlt')) (List.getElem_mem hlt)
      (haffinity'.trans haffinity.symm)
  obtain ⟨rest, hrest⟩ := swapFirst_head hlt
  obtain ⟨rest', hrest'⟩ := swapFirst_head hlt'
  have hall : (swapFirst cpus' boot').Perm (swapFirst cpus boot) :=
    (swapFirst_perm hlt').trans (hperm.trans (swapFirst_perm hlt).symm)
  have hunique : ((swapFirst cpus boot).map CpuDescriptor.affinity).Nodup :=
    (((swapFirst_perm hlt).map _).nodup_iff).mpr hnodup
  rw [hrest] at hall hunique
  rw [hrest', hsame] at hall
  rw [hrest, hrest', hsame, sortRest, sortRest,
    insertionSort_eq_of_perm hall.cons_inv (List.nodup_cons.mp hunique).2]

/-- Without duplicates the sorted part ascends strictly. -/
theorem ascending_sortRest (h : ((sortRest cpus).map CpuDescriptor.affinity).Nodup) :
    ((sortRest cpus).map CpuDescriptor.affinity).tail.Pairwise (· < ·) := by
  rcases cpus with _ | ⟨boot, rest⟩
  · exact List.Pairwise.nil
  · rw [sortRest, List.map_cons] at h ⊢
    have hle := List.pairwise_map.mpr (List.pairwise_insertionSort
      (fun a b : CpuDescriptor => a.affinity ≤ b.affinity) rest)
    exact hle.imp₂ (fun _ _ hle hne => lt_of_le_of_ne hle hne) (List.nodup_cons.mp h).2

end Arrangement

theorem discoverCpus_perm {parent : CpusNode} {children : List CpuNode} {roots : List RootChild}
    {bootMpidr : Nat} {topology : Topology} (hperm : children.Perm parent.children)
    (h : discoverCpus parent roots bootMpidr = .ok topology) :
    discoverCpus { parent with children } roots bootMpidr = .ok topology := by
  obtain ⟨cells, psci, cpus, boot, hheader, hloop, hboot, rfl⟩ := discoverCpus_eq_ok.mp h
  obtain ⟨cpus', hloop', hcpus⟩ := foldlM_addNode_perm hperm hloop
  obtain ⟨-, -, -, hnodup⟩ := foldlM_addNode_empty.mp hloop
  obtain ⟨hlt, hfound, -⟩ := List.findIdx?_eq_some_iff_getElem.mp hboot
  have hboot' := List.findIdx?_eq_some_of_exists
    (p := fun cpu => cpu.enabled && cpu.affinity == bootAffinity bootMpidr)
    ⟨cpus.entries[boot], hcpus.symm.subset (List.getElem_mem hlt), hfound⟩
  refine discoverCpus_eq_ok.mpr ⟨cells, psci, cpus', _, ⟨hheader.status, hheader.addressCells,
    hheader.one_or_two, hheader.sizeCells, hheader.psci⟩, hloop', hboot', ?_⟩
  have harrange := congrArg (assignIds 0) (sortRest_swapFirst_eq hcpus hnodup hboot hboot')
  rw [Topology.mk.injEq]
  exact ⟨FixedList.ext harrange.symm, rfl⟩

/-! ## What the list is like -/

variable {psci : Option PsciDescription} {node : CpuNode} {cpu : CpuDescriptor}

/-- What every accepted CPU node says. -/
structure Sound (cpu : CpuDescriptor) : Prop where
  affinity : ¬ strayAffinity cpu.affinity
  cell : ∀ address, cpu.startup = .spinTable address →
    address &&& 7 = 0 ∧ address + 8 < wordBound

theorem startupMethod_cell {address : Nat}
    (h : startupMethod psci node = .ok (.spinTable address)) :
    address &&& 7 = 0 ∧ address + 8 < wordBound := by
  unfold startupMethod at h
  split at h
  · cases h
  obtain ⟨method, -, h⟩ := bind_eq_ok.mp h
  split at h
  · split at h
    · cases h
    · cases h
  · obtain ⟨word, -, h⟩ := bind_eq_ok.mp h
    split at h
    · cases h
    · rename_i haddress
      cases h
      rw [not_or, not_not, checkedAdd_eq_none, not_le] at haddress
      exact haddress
  · cases h

theorem describeCpu_sound {cells : Nat} (h : describeCpu cells psci node = .ok cpu) :
    Sound cpu ∧ cpu.logicalId = none := by
  unfold describeCpu at h
  obtain ⟨status, -, h⟩ := bind_eq_ok.mp h
  obtain ⟨affinity, -, h⟩ := bind_eq_ok.mp h
  split at h
  · cases h
  rename_i hstray
  obtain ⟨startup, hstartup, h⟩ := bind_eq_ok.mp h
  cases h
  refine ⟨⟨hstray, ?_⟩, rfl⟩
  rintro address rfl
  exact startupMethod_cell hstartup

theorem describe_sound {cells : Nat} (h : describe cells psci node = .ok (some cpu)) :
    Sound cpu ∧ cpu.logicalId = none := by
  unfold describe at h
  split at h
  · split at h
    · cases h
    · cases h
  · obtain ⟨kind, -, h⟩ := bind_eq_ok.mp h
    split at h
    · cases h
    · obtain ⟨cpu', hcpu, ⟨⟩⟩ := bind_eq_ok.mp h
      exact describeCpu_sound hcpu

/-- Numbering changes nothing but the number, and that only of an enabled CPU. -/
theorem exists_of_mem_assignIds {next : Nat} {cpus : List CpuDescriptor}
    (h : cpu ∈ assignIds next cpus) : ∃ before ∈ cpus, cpu.affinity = before.affinity ∧
      cpu.startup = before.startup ∧
      (cpu.enabled = false → cpu.logicalId = before.logicalId) := by
  induction cpus generalizing next with
  | nil => cases h
  | cons first rest ih =>
    unfold assignIds at h
    split at h
    · rename_i henabled
      rcases List.mem_cons.mp h with rfl | h
      · refine ⟨first, List.mem_cons_self, rfl, rfl, fun hdisabled => ?_⟩
        exact absurd (henabled.symm.trans hdisabled) (by decide)
      · obtain ⟨before, hmem, hsame⟩ := ih h
        exact ⟨before, List.mem_cons_of_mem first hmem, hsame⟩
    · rcases List.mem_cons.mp h with rfl | h
      · exact ⟨cpu, List.mem_cons_self, rfl, rfl, fun _ => rfl⟩
      · obtain ⟨before, hmem, hsame⟩ := ih h
        exact ⟨before, List.mem_cons_of_mem first hmem, hsame⟩

/-- A topology in the order that its consumers rely on. -/
structure Canonical (topology : Topology) (bootMpidr : Nat) : Prop
    extends Discovered topology bootMpidr where
  /-- Behind the boot CPU the affinities ascend. -/
  ascending : (topology.cpus.entries.map CpuDescriptor.affinity).tail.Pairwise (· < ·)
  disabled : ∀ cpu ∈ topology.cpus.entries, cpu.enabled = false → cpu.logicalId = none
  sound : ∀ cpu ∈ topology.cpus.entries, Sound cpu

theorem canonical_of_ok {tree : CpuTree} {bootMpidr : Nat} {topology : Topology}
    (h : discoverCpuTopology tree bootMpidr = .ok topology) : Canonical topology bootMpidr := by
  have hdiscovered := discovered_of_ok h
  unfold discoverCpuTopology at h
  split at h
  · cases h
  obtain ⟨cells, psci, cpus, boot, -, hloop, hboot, rfl⟩ := discoverCpus_eq_ok.mp h
  obtain ⟨hlt, -⟩ := List.findIdx?_eq_some_iff_getElem.mp hboot
  obtain ⟨found, hsays, hentries, -⟩ := foldlM_addNode_empty.mp hloop
  have hperm := (sortRest_perm (swapFirst cpus.entries boot)).trans (swapFirst_perm hlt)
  have hmember : ∀ cpu ∈ cpus.entries, Sound cpu ∧ cpu.logicalId = none := by
    intro cpu hcpu
    rw [hentries, List.reduceOption_mem_iff] at hcpu
    obtain ⟨node, -, hnode⟩ := hsays.exists_node hcpu
    exact describe_sound hnode
  refine ⟨hdiscovered, ?_, ?_, ?_⟩
  · have hnodup := hdiscovered.affinities
    change ((assignIds 0 (sortRest (swapFirst cpus.entries boot))).map _).Nodup at hnodup
    show ((assignIds 0 (sortRest (swapFirst cpus.entries boot))).map _).tail.Pairwise _
    rw [map_affinity_assignIds] at hnodup ⊢
    exact ascending_sortRest hnodup
  · intro cpu hcpu hdisabled
    obtain ⟨before, hbefore, -, -, hid⟩ := exists_of_mem_assignIds hcpu
    rw [hid hdisabled]
    exact (hmember before (hperm.subset hbefore)).2
  · intro cpu hcpu
    obtain ⟨before, hbefore, haffinity, hstartup, -⟩ := exists_of_mem_assignIds hcpu
    obtain ⟨hstray, hcell⟩ := (hmember before (hperm.subset hbefore)).1
    exact ⟨by rwa [haffinity], by rwa [hstartup]⟩

/-! ## The consumers -/

variable {other : CpuDescriptor} {id : Nat}

section Consumers

/-- The number of enabled CPUs. -/
def enabledCount (cpus : List CpuDescriptor) : Nat := (cpus.filter CpuDescriptor.enabled).length

/-- A list whose enabled CPUs are numbered in order, with nothing to object to. -/
structure Numbered (cpus : List CpuDescriptor) : Prop where
  short : cpus.length ≤ maxCpus
  affinities : (cpus.map CpuDescriptor.affinity).Nodup
  numbered : (cpus.filter CpuDescriptor.enabled).map CpuDescriptor.logicalId =
    (List.range (enabledCount cpus)).map some
  disabled : ∀ cpu ∈ cpus, cpu.enabled = false → cpu.logicalId = none
  sound : ∀ cpu ∈ cpus, Sound cpu

variable {cpus before after : List CpuDescriptor}

theorem Canonical.toNumbered {topology : Topology} {bootMpidr : Nat}
    (h : Canonical topology bootMpidr) : Numbered topology.cpus.entries :=
  ⟨topology.cpus.len_le, h.affinities, h.numbered, h.disabled, h.sound⟩

theorem filter_middle (henabled : cpu.enabled = true) :
    (before ++ cpu :: after).filter CpuDescriptor.enabled =
      before.filter CpuDescriptor.enabled ++ cpu :: after.filter CpuDescriptor.enabled := by
  rw [List.filter_append, List.filter_cons_of_pos henabled]

/-- The number of an enabled CPU is the number of enabled CPUs before it. -/
theorem Numbered.logicalId_eq (h : Numbered (before ++ cpu :: after))
    (henabled : cpu.enabled = true) : cpu.logicalId = some (enabledCount before) := by
  have hnumbered := h.numbered
  have hlt : enabledCount before < enabledCount (before ++ cpu :: after) := by
    rw [enabledCount, enabledCount, filter_middle henabled, List.length_append, List.length_cons]
    omega
  rw [filter_middle henabled, List.map_append, List.map_cons] at hnumbered
  have hleft := congrArg (fun l => l[enabledCount before]?) hnumbered
  rw [List.getElem?_append_right (by simp [enabledCount]), List.length_map, enabledCount,
    Nat.sub_self, List.getElem?_cons_zero, ← enabledCount, List.getElem?_map,
    List.getElem?_range hlt] at hleft
  exact Option.some.inj hleft

theorem exists_middle {index : Nat} (h : cpus[index]? = some cpu) :
    ∃ before after, cpus = before ++ cpu :: after ∧ before.length = index := by
  obtain ⟨hlt, rfl⟩ := List.getElem?_eq_some_iff.mp h
  refine ⟨cpus.take index, cpus.drop (index + 1), ?_, by rw [List.length_take]; omega⟩
  rw [← List.drop_eq_getElem_cons hlt, List.take_append_drop]

theorem eraseIdx_middle :
    (before ++ cpu :: after).eraseIdx before.length = before ++ after := by
  rw [List.eraseIdx_append_of_length_le le_rfl, Nat.sub_self, List.eraseIdx_cons_zero]

theorem Numbered.affinity_ne (h : Numbered (before ++ cpu :: after))
    (hother : other ∈ before ++ after) : other.affinity ≠ cpu.affinity := by
  have hnodup := h.affinities
  rw [List.map_append, List.map_cons, List.nodup_middle, ← List.map_append] at hnodup
  intro heq
  exact (List.nodup_cons.mp hnodup).1 (heq ▸ List.mem_map_of_mem hother)

theorem Numbered.nodup_logicalId (h : Numbered cpus) :
    ((cpus.filter CpuDescriptor.enabled).map CpuDescriptor.logicalId).Nodup := by
  rw [h.numbered]
  exact List.nodup_range.map (Option.some_injective Nat)

theorem Numbered.logicalId_ne (h : Numbered (before ++ cpu :: after))
    (henabled : cpu.enabled = true) (hother : other ∈ before ++ after)
    (hother' : other.enabled = true) : other.logicalId ≠ cpu.logicalId := by
  have hnodup := h.nodup_logicalId
  rw [filter_middle henabled, List.map_append, List.map_cons, List.nodup_middle,
    ← List.map_append, ← List.filter_append] at hnodup
  intro heq
  refine (List.nodup_cons.mp hnodup).1 (heq ▸ List.mem_map_of_mem ?_)
  exact List.mem_filter.mpr ⟨hother, hother'⟩

/-- One round of `secondary_mask`: the next bit is set for an enabled CPU. -/
theorem Numbered.maskStep_eq (h : Numbered (before ++ cpu :: after)) :
    maskStep (before ++ cpu :: after) (2 ^ enabledCount before - 1) (cpu, before.length) =
      .ok (2 ^ enabledCount (before ++ [cpu]) - 1) := by
  have hcount : enabledCount (before ++ [cpu]) = enabledCount before + enabledCount [cpu] := by
    rw [enabledCount, List.filter_append, List.length_append]
    rfl
  unfold maskStep
  rcases henabled : cpu.enabled with _ | _
  · have hzero : enabledCount [cpu] = 0 := by
      simp [enabledCount, henabled]
    rw [hcount, hzero]
    rfl
  · have hone : enabledCount [cpu] = 1 := by
      simp [enabledCount, henabled]
    have hid := h.logicalId_eq henabled
    have hle : enabledCount before ≤ before.length := List.length_filter_le _ _
    have hshort := h.short
    rw [List.length_append, List.length_cons] at hshort
    have hfree : (2 ^ enabledCount before - 1) &&& 1 <<< enabledCount before = 0 := by
      rw [Nat.one_shiftLeft, Nat.and_comm, Nat.and_two_pow_sub_one_eq_mod, Nat.mod_self]
    have hset : (2 ^ enabledCount before - 1) ||| 1 <<< enabledCount before =
        2 ^ (enabledCount before + 1) - 1 := by
      have hpos := Nat.two_pow_pos (enabledCount before)
      rw [Nat.one_shiftLeft, Nat.lor_comm, lor_eq_add _ (Nat.mod_self _) (by omega), pow_succ]
      omega
    have hnone : ¬ ((before ++ cpu :: after).eraseIdx before.length).any
        (fun other => other.enabled && other.affinity == cpu.affinity) = true := by
      rw [eraseIdx_middle, List.any_eq_true]
      rintro ⟨other, hother, hsame⟩
      exact h.affinity_ne hother (beq_iff_eq.mp (Bool.and_eq_true_iff.mp hsame).2)
    have hsound := h.sound cpu (by simp)
    simp only [Bool.not_true, Bool.false_eq_true, if_false, hid]
    rw [if_neg (by rw [not_or, not_le, not_not]; exact ⟨by omega, hfree⟩),
      if_neg (not_or.mpr ⟨hsound.affinity, hnone⟩), hset, hcount, hone]

theorem Numbered.foldlM_maskStep (h : Numbered (before ++ after)) :
    (after.zipIdx before.length).foldlM (maskStep (before ++ after)) (2 ^ enabledCount before - 1) =
      .ok (2 ^ enabledCount (before ++ after) - 1) := by
  induction after generalizing before with
  | nil =>
    rw [List.append_nil]
    rfl
  | cons cpu after ih =>
    have hsplit : before ++ cpu :: after = (before ++ [cpu]) ++ after := by simp
    rw [List.zipIdx_cons, List.foldlM_cons, h.maskStep_eq, hsplit]
    have hlen : before.length + 1 = (before ++ [cpu]).length := by simp
    rw [hlen]
    exact ih (hsplit ▸ h)

/-- The bits of a run of ones, with and without the lowest. -/
theorem ones_bits : ∀ k ≤ maxCpus, 1 ≤ k →
    ¬ (2 ^ k - 1) &&& 1 = 0 ∧ (2 ^ k - 1) &&& bitNot 1 = 2 ^ k - 2 ∧ (2 ^ k - 2 = 0 ↔ k = 1) := by
  decide

theorem Numbered.secondaryMask_eq (h : Numbered cpus) (hboot : 1 ≤ enabledCount cpus) :
    secondaryMask cpus =
      if enabledCount cpus = 1 then .error .missingTarget else .ok (2 ^ enabledCount cpus - 2) := by
  have hle : enabledCount cpus ≤ maxCpus := (List.length_filter_le _ _).trans h.short
  obtain ⟨hlow, hrest, hone⟩ := ones_bits _ hle hboot
  have hloop := @Numbered.foldlM_maskStep [] cpus h
  rw [List.nil_append] at hloop
  have hrun : secondaryMask cpus =
      if (2 ^ enabledCount cpus - 1) &&& 1 = 0 then .error .invalidTarget
      else if (2 ^ enabledCount cpus - 1) &&& bitNot 1 = 0 then .error .missingTarget
      else .ok ((2 ^ enabledCount cpus - 1) &&& bitNot 1) := by
    rw [secondaryMask, show cpus.zipIdx.foldlM (maskStep cpus) 0 = _ from hloop]
    rfl
  rw [hrun, if_neg hlow, hrest]
  simp only [hone]

theorem testBit_secondaries {k : Nat} (h : (2 ^ k - 2).testBit id = true) : id ≠ 0 ∧ id < k := by
  rcases k with _ | k
  · simp at h
  · have heven : 2 ^ (k + 1) - 2 = 2 * (2 ^ k - 1) := by
      rw [pow_succ]
      omega
    rw [heven] at h
    rcases id with _ | id
    · simp at h
    · rw [Nat.testBit_succ, Nat.mul_div_cancel_left _ (by omega), Nat.testBit_two_pow_sub_one] at h
      simpa using h

/-- Every number below the count is that of an enabled CPU. -/
theorem Numbered.exists_cpu (h : Numbered cpus) (hid : id < enabledCount cpus) :
    ∃ cpu ∈ cpus, cpu.enabled = true ∧ cpu.logicalId = some id := by
  have hmem : some id ∈ (cpus.filter CpuDescriptor.enabled).map CpuDescriptor.logicalId := by
    rw [h.numbered]
    exact List.mem_map_of_mem (List.mem_range.mpr hid)
  obtain ⟨cpu, hcpu, hlogical⟩ := List.mem_map.mp hmem
  obtain ⟨hcpu, henabled⟩ := List.mem_filter.mp hcpu
  exact ⟨cpu, hcpu, henabled, hlogical⟩

theorem Numbered.enabled_of_logicalId (h : Numbered cpus) (hcpu : cpu ∈ cpus)
    (hid : cpu.logicalId = some id) : cpu.enabled = true := by
  rcases henabled : cpu.enabled with _ | _
  · rw [h.disabled cpu hcpu henabled] at hid
    cases hid
  · rfl

theorem Numbered.exists_logicalId (h : Numbered cpus) (hcpu : cpu ∈ cpus)
    (henabled : cpu.enabled = true) : ∃ id < enabledCount cpus, cpu.logicalId = some id := by
  have hmem := List.mem_map_of_mem (f := CpuDescriptor.logicalId)
    (List.mem_filter.mpr ⟨hcpu, henabled⟩)
  rw [h.numbered] at hmem
  obtain ⟨id, hid, hsome⟩ := List.mem_map.mp hmem
  exact ⟨id, List.mem_range.mp hid, hsome.symm⟩

theorem Numbered.logicalId_lt (h : Numbered cpus) (hcpu : cpu ∈ cpus)
    (hid : cpu.logicalId = some id) : id < enabledCount cpus := by
  obtain ⟨id', hlt, hid'⟩ := h.exists_logicalId hcpu (h.enabled_of_logicalId hcpu hid)
  rw [hid] at hid'
  cases hid'
  exact hlt

/-- A number belongs to one CPU. -/
theorem Numbered.eq_of_logicalId (h : Numbered cpus) (hcpu : cpu ∈ cpus) (hother : other ∈ cpus)
    (hid : cpu.logicalId = some id) (hid' : other.logicalId = some id) : other = cpu := by
  exact List.inj_on_of_nodup_map h.nodup_logicalId
    (List.mem_filter.mpr ⟨hother, h.enabled_of_logicalId hother hid'⟩)
    (List.mem_filter.mpr ⟨hcpu, h.enabled_of_logicalId hcpu hid⟩) (hid'.trans hid.symm)

/-- A target of the mask is objected to only for its startup method or its cell. -/
theorem Numbered.validateSpinTableTarget_error (h : Numbered cpus) (hne : id ≠ 0)
    (hlt : id < enabledCount cpus) {e : EntryError}
    (herror : validateSpinTableTarget cpus id = .error e) :
    e = .unsupportedMethod ∨ e = .sharedReleaseCell := by
  have hle : enabledCount cpus ≤ maxCpus := (List.length_filter_le _ _).trans h.short
  unfold validateSpinTableTarget at herror
  split at herror
  · rename_i hfind
    obtain ⟨cpu, hcpu, -, hid⟩ := h.exists_cpu hlt
    obtain ⟨index, hindex⟩ := List.mem_iff_getElem?.mp hcpu
    have hnone := List.find?_eq_none.mp hfind (cpu, index)
      (List.mem_zipIdx_iff_getElem?.mpr hindex)
    exact absurd (beq_iff_eq.mpr hid) hnone
  rename_i cpu index hfind
  have hmem := List.mem_zipIdx_iff_getElem?.mp (List.mem_of_find?_eq_some hfind)
  have hid : cpu.logicalId = some id := by simpa using List.find?_some hfind
  have hcpu := List.mem_of_getElem? hmem
  have henabled := h.enabled_of_logicalId hcpu hid
  have hsound := h.sound cpu hcpu
  obtain ⟨before, after, rfl, rfl⟩ := exists_middle hmem
  have hothers : ¬ ((before ++ cpu :: after).eraseIdx before.length).any (fun other =>
      other.enabled && (other.logicalId == some id || other.affinity == cpu.affinity)) = true := by
    rw [eraseIdx_middle, List.any_eq_true]
    rintro ⟨other, hother, hsame⟩
    obtain ⟨hother', hsame⟩ := Bool.and_eq_true_iff.mp hsame
    rcases Bool.or_eq_true_iff.mp hsame with hsame | hsame
    · exact h.logicalId_ne henabled hother hother' ((beq_iff_eq.mp hsame).trans hid.symm)
    · exact h.affinity_ne hother (beq_iff_eq.mp hsame)
  rw [if_neg] at herror
  · split at herror
    · rename_i address hstartup
      rw [if_neg (not_not.mpr (hsound.cell address hstartup).1)] at herror
      split at herror
      · cases herror
        exact .inr rfl
      · cases herror
    · cases herror
      exact .inl rfl
  · rintro (hzero | hmax | hdisabled | hstray | hother)
    · exact hne hzero
    · omega
    · rw [henabled] at hdisabled
      cases hdisabled
    · exact hsound.affinity hstray
    · exact hothers hother

/-- A list that the preflight checks of the secondaries were written for. -/
structure FitsConsumers (cpus : List CpuDescriptor) : Prop where
  two : 2 ≤ enabledCount cpus → secondaryMask cpus = .ok (2 ^ enabledCount cpus - 2)
  one : enabledCount cpus = 1 → secondaryMask cpus = .error .missingTarget
  valid : secondaryMask cpus ≠ .error .invalidTarget
  targets : ∀ mask, secondaryMask cpus = .ok mask → ∀ id, mask.testBit id = true →
    ∀ e, validateSpinTableTarget cpus id = .error e →
      e = .unsupportedMethod ∨ e = .sharedReleaseCell

theorem Numbered.fitsConsumers (h : Numbered cpus) (hboot : 1 ≤ enabledCount cpus) :
    FitsConsumers cpus := by
  have hmask := h.secondaryMask_eq hboot
  constructor
  case two =>
    intro htwo
    rw [hmask, if_neg (by omega)]
  case one =>
    intro hone
    rw [hmask, if_pos hone]
  case valid =>
    rw [hmask]
    split
    · nofun
    · nofun
  case targets =>
    intro mask hok id hbit e herror
    rw [hmask] at hok
    split at hok
    · cases hok
    · cases hok
      obtain ⟨hne, hlt⟩ := testBit_secondaries hbit
      exact h.validateSpinTableTarget_error hne hlt herror

theorem Discovered.one_le_enabledCount {topology : Topology} {bootMpidr : Nat}
    (h : Discovered topology bootMpidr) : 1 ≤ enabledCount topology.cpus.entries := by
  obtain ⟨cpu, rest, hentries, henabled, -⟩ := h.boot
  rw [hentries, enabledCount, List.filter_cons_of_pos henabled, List.length_cons]
  omega

end Consumers

/-- **Discovery does not depend on the order of the tree.** With the children of `/cpus` in another
order, discovery succeeds with the same topologies; and a topology that it returns is in the one
order that `secondary_mask` and `validate_spin_table_target` accept. -/
theorem discovery_order_independent (tree : CpuTree) (parent : CpusNode)
    (hparent : tree.cpus = some parent) (children : List CpuNode)
    (hperm : children.Perm parent.children) (bootMpidr : Nat) (topology : Topology) :
    (discoverCpuTopology { tree with cpus := some { parent with children } } bootMpidr =
        .ok topology ↔ discoverCpuTopology tree bootMpidr = .ok topology) ∧
      (discoverCpuTopology tree bootMpidr = .ok topology →
        Canonical topology bootMpidr ∧ FitsConsumers topology.cpus.entries) := by
  have htree : discoverCpuTopology tree bootMpidr =
      discoverCpus parent tree.children bootMpidr := by
    rw [discoverCpuTopology, hparent]
  refine ⟨?_, fun h => ?_⟩
  · rw [htree]
    constructor
    · intro h
      have hback := @discoverCpus_perm { parent with children } parent.children tree.children
        bootMpidr topology hperm.symm
      exact hback h
    · exact discoverCpus_perm hperm
  · have hcanonical := canonical_of_ok h
    exact ⟨hcanonical, hcanonical.toNumbered.fitsConsumers
      hcanonical.toDiscovered.one_le_enabledCount⟩

/-- A CPU that is started through a release cell. -/
def spinTableNode (affinity : UInt32) (cell : UInt64) : CpuNode where
  nameWithoutAddress := "cpu"
  deviceType := some (.ok "cpu")
  status := .ok .okay
  reg := some ⟨.ok affinity, .ok 0⟩
  enableMethod := some (.ok "spin-table")
  cpuReleaseAddr := some (.ok cell)

def spinTableParent (children : List CpuNode) : CpusNode :=
  ⟨.ok .okay, some (.ok 1), some (.ok 0), children⟩

/-- Three CPUs, the boot CPU in the middle. -/
def spinTableTree : CpuTree :=
  ⟨some (spinTableParent [spinTableNode 2 0xf0, spinTableNode 0 0xe0, spinTableNode 1 0xe8]), []⟩

def spinTableTopology : Topology where
  cpus := ⟨[⟨0, true, some 0, .spinTable 0xe0⟩, ⟨1, true, some 1, .spinTable 0xe8⟩,
    ⟨2, true, some 2, .spinTable 0xf0⟩], by decide⟩
  psci := none

theorem discovery_order_independent_spinTable :
    discoverCpuTopology spinTableTree 0 = .ok spinTableTopology ∧
      discoverCpuTopology ⟨some (spinTableParent
          [spinTableNode 1 0xe8, spinTableNode 0 0xe0, spinTableNode 2 0xf0]), []⟩ 0 =
        .ok spinTableTopology := by
  have hperm : [spinTableNode 1 0xe8, spinTableNode 0 0xe0, spinTableNode 2 0xf0].Perm
      [spinTableNode 2 0xf0, spinTableNode 0 0xe0, spinTableNode 1 0xe8] :=
    List.reverse_perm [spinTableNode 2 0xf0, spinTableNode 0 0xe0, spinTableNode 1 0xe8]
  have hfound : discoverCpuTopology spinTableTree 0 = .ok spinTableTopology := by decide +kernel
  have hsame := discovery_order_independent spinTableTree _ rfl _ hperm 0 spinTableTopology
  exact ⟨hfound, hsame.1.mpr hfound⟩

end Tvisor.CpuTopology
