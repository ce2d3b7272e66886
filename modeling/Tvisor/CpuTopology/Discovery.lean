/-
# Tvisor.CpuTopology.Discovery -- the CPUs of a device tree

`discover_cpu_topology` reads the children of `/cpus` into at most four descriptors, puts the boot
CPU first, sorts the others by affinity and numbers those that are enabled. The tree is what the
device-tree library yields: each property with the results of the accessors that are used on it.

Affinities are unique, so the unstable sort of the source has one possible result; insertion sort
computes it.
-/
import Mathlib.Data.List.Sort
import Tvisor.CpuTopology
import Tvisor.Platform

namespace Tvisor.CpuTopology

open SystemInfo Words Platform

/-! ## The device tree -/

/-- `reg` of a CPU, read as one cell or as two. -/
structure CpuReg where
  asU32 : Except FdtError UInt32
  asU64 : Except FdtError UInt64

/-- A child of `/cpus`. -/
structure CpuNode where
  nameWithoutAddress : String
  deviceType : Option (Except FdtError String)
  status : Except FdtError Status
  reg : Option CpuReg
  enableMethod : Option (Except FdtError String)
  cpuReleaseAddr : Option (Except FdtError UInt64)

/-- The node `/cpus`. -/
structure CpusNode where
  status : Except FdtError Status
  addressCells : Option (Except FdtError UInt32)
  sizeCells : Option (Except FdtError UInt32)
  children : List CpuNode

/-- A child of the root, as far as the search for PSCI reads it. -/
structure RootChild where
  nameWithoutAddress : String
  compatible : List String
  status : Except FdtError Status
  method : Option (Except FdtError String)
  cpuOn : Option (Except FdtError UInt32)

structure CpuTree where
  cpus : Option CpusNode
  children : List RootChild

/-! ## Discovery -/

inductive PsciBinding where
  | legacy
  | v0_2
  | v1_0
  deriving DecidableEq, Repr

inductive PsciConduit where
  | smc
  | hvc
  deriving DecidableEq, Repr

structure PsciDescription where
  binding : PsciBinding
  conduit : PsciConduit
  legacyCpuOn : Option UInt32
  deriving DecidableEq, Repr

/-- The source's array and count are the bounded list of descriptors. -/
structure Topology where
  cpus : FixedList CpuDescriptor maxCpus
  psci : Option PsciDescription
  deriving DecidableEq, Repr

inductive CpuDiscoveryError where
  | missingCpus
  | invalidCells
  | invalidCpu
  | invalidAffinity
  | invalidReleaseAddress
  | duplicateAffinity
  | capacity
  | bootCpuMissing
  | invalidPsci
  deriving DecidableEq, Repr

abbrev Discovery := Except CpuDiscoveryError

/-- `value.ok_or(missing)?.map_err(|_| invalid)?` -/
def required {α : Type} (missing invalid : CpuDiscoveryError) :
    Option (Except FdtError α) → Discovery α
  | none => .error missing
  | some (.error _) => .error invalid
  | some (.ok a) => .ok a

/-- `value.map_err(|_| e)?` -/
def orError {α : Type} (e : CpuDiscoveryError) : Except FdtError α → Discovery α
  | .error _ => .error e
  | .ok a => .ok a

def psciBinding (node : RootChild) : Option PsciBinding :=
  if node.compatible.contains "arm,psci-1.0" then some .v1_0
  else if node.compatible.contains "arm,psci-0.2" then some .v0_2
  else if node.compatible.contains "arm,psci" then some .legacy
  else none

def psciConduit : String → Discovery PsciConduit
  | "smc" => .ok .smc
  | "hvc" => .ok .hvc
  | _ => .error .invalidPsci

/-- One round of `discover_psci`. -/
def addPsci (found : Option PsciDescription) (node : RootChild) :
    Discovery (Option PsciDescription) :=
  match psciBinding node with
  | none => if node.nameWithoutAddress = "psci" then .error .invalidPsci else .ok found
  | some binding => do
      let status ← orError .invalidPsci node.status
      if status ≠ .okay then return found
      else if found.isSome then .error .invalidPsci
      else
        let conduit ← psciConduit (← required .invalidPsci .invalidPsci node.method)
        match node.cpuOn with
        | none => return some { binding, conduit, legacyCpuOn := none }
        | some cpuOn =>
            return some { binding, conduit, legacyCpuOn := some (← orError .invalidPsci cpuOn) }

def discoverPsci (children : List RootChild) : Discovery (Option PsciDescription) :=
  children.foldlM addPsci none

def startupMethod (psci : Option PsciDescription) (node : CpuNode) : Discovery StartupMethod :=
  match node.enableMethod with
  | none => .ok .missing
  | some method => do
      match ← orError .invalidCpu method with
      | "psci" => if psci.isNone then .error .invalidPsci else .ok .psci
      | "spin-table" =>
          let address ← required .invalidReleaseAddress .invalidReleaseAddress node.cpuReleaseAddr
          if address.toNat &&& 7 ≠ 0 ∨ checkedAdd address.toNat 8 = none then
            .error .invalidReleaseAddress
          else .ok (.spinTable address.toNat)
      | _ => .ok .unsupported

/-- The affinity of a CPU, from `reg` with one address cell or with two. -/
def affinityOf (cells : Nat) : Option CpuReg → Discovery Nat
  | none => .error .invalidCpu
  | some reg =>
      if cells = 1 then do return (← orError .invalidCpu reg.asU32).toNat
      else do return (← orError .invalidCpu reg.asU64).toNat

/-- A child with the device type of a CPU. -/
def addCpu (cells : Nat) (psci : Option PsciDescription) (cpus : FixedList CpuDescriptor maxCpus)
    (node : CpuNode) : Discovery (FixedList CpuDescriptor maxCpus) := do
  let enabled := (← orError .invalidCpu node.status) == .okay
  let affinity ← affinityOf cells node.reg
  if strayAffinity affinity then .error .invalidAffinity
  else if cpus.entries.any fun cpu => cpu.affinity == affinity then .error .duplicateAffinity
  else if cpus.isFull then .error .capacity
  else
    let startup ← startupMethod psci node
    match cpus.push { affinity, enabled, logicalId := none, startup } with
    | .ok cpus => return cpus
    | .error _ => .error .capacity

/-- One round of the loop over the children of `/cpus`. -/
def addNode (cells : Nat) (psci : Option PsciDescription) (cpus : FixedList CpuDescriptor maxCpus)
    (node : CpuNode) : Discovery (FixedList CpuDescriptor maxCpus) :=
  match node.deviceType with
  | none => if node.nameWithoutAddress = "cpu" then .error .invalidCpu else .ok cpus
  | some kind => do
      if (← orError .invalidCpu kind) ≠ "cpu" then return cpus
      else addCpu cells psci cpus node

/-- `cpus.swap(0, index)` -/
def swapFirst (cpus : List CpuDescriptor) (index : Nat) : List CpuDescriptor :=
  match cpus[0]?, cpus[index]? with
  | some first, some other => (cpus.set 0 other).set index first
  | _, _ => cpus

/-- `cpus[1..].sort_unstable_by_key(|cpu| cpu.affinity)` -/
def sortRest : List CpuDescriptor → List CpuDescriptor
  | [] => []
  | boot :: rest => boot :: rest.insertionSort fun a b => a.affinity ≤ b.affinity

/-- The closing loop: enabled CPUs are numbered in order. -/
def assignIds : Nat → List CpuDescriptor → List CpuDescriptor
  | _, [] => []
  | next, cpu :: rest =>
      if cpu.enabled then { cpu with logicalId := some next } :: assignIds (next + 1) rest
      else cpu :: assignIds next rest

theorem length_swapFirst (cpus : List CpuDescriptor) (index : Nat) :
    (swapFirst cpus index).length = cpus.length := by
  unfold swapFirst
  split <;> simp

theorem length_sortRest (cpus : List CpuDescriptor) : (sortRest cpus).length = cpus.length := by
  cases cpus with
  | nil => rfl
  | cons boot rest => simp [sortRest]

theorem length_assignIds (next : Nat) (cpus : List CpuDescriptor) :
    (assignIds next cpus).length = cpus.length := by
  induction cpus generalizing next with
  | nil => rfl
  | cons cpu rest ih =>
    unfold assignIds
    split <;> simp [ih]

/-- The boot CPU first, the others by affinity, and then the numbers. -/
def arrange (cpus : FixedList CpuDescriptor maxCpus) (boot : Nat) :
    FixedList CpuDescriptor maxCpus :=
  ⟨assignIds 0 (sortRest (swapFirst cpus.entries boot)), by
    rw [length_assignIds, length_sortRest, length_swapFirst]
    exact cpus.len_le⟩

def bootAffinity (bootMpidr : Nat) : Nat := bootMpidr &&& mpidrAffinityMask

/-- What is read of `/cpus`. -/
def discoverCpus (parent : CpusNode) (children : List RootChild) (bootMpidr : Nat) :
    Discovery Topology := do
  if (← orError .invalidCpu parent.status) ≠ .okay then .error .missingCpus
  else
    let cells ← required .invalidCells .invalidCells parent.addressCells
    if cells ≠ 1 ∧ cells ≠ 2 then .error .invalidCells
    else if (← required .invalidCells .invalidCells parent.sizeCells) ≠ 0 then .error .invalidCells
    else
      let psci ← discoverPsci children
      let cpus ← parent.children.foldlM (addNode cells.toNat psci) FixedList.empty
      match cpus.entries.findIdx? fun cpu =>
          cpu.enabled && cpu.affinity == bootAffinity bootMpidr with
      | none => .error .bootCpuMissing
      | some boot => return { cpus := arrange cpus boot, psci }

def discoverCpuTopology (tree : CpuTree) (bootMpidr : Nat) : Discovery Topology :=
  match tree.cpus with
  | none => .error .missingCpus
  | some parent => discoverCpus parent tree.children bootMpidr

/-! ## What discovery finds -/

/-- A topology as `discover_cpu_topology` returns it. -/
structure Discovered (topology : Topology) (bootMpidr : Nat) : Prop where
  /-- The boot CPU is the first one, enabled, and has the number 0. -/
  boot : ∃ cpu rest, topology.cpus.entries = cpu :: rest ∧ cpu.enabled = true ∧
    cpu.affinity = bootAffinity bootMpidr ∧ cpu.logicalId = some 0
  affinities : (topology.cpus.entries.map CpuDescriptor.affinity).Nodup
  /-- The enabled CPUs have the numbers 0, 1, 2 and so on in their order. -/
  numbered : (topology.cpus.entries.filter CpuDescriptor.enabled).map CpuDescriptor.logicalId =
    (List.range (topology.cpus.entries.filter CpuDescriptor.enabled).length).map some

section Found

variable {cells : Nat} {psci : Option PsciDescription} {node : CpuNode}
  {cpus cpus' : FixedList CpuDescriptor maxCpus}

/-- What a CPU node says, apart from the CPUs before it. -/
def describeCpu (cells : Nat) (psci : Option PsciDescription) (node : CpuNode) :
    Discovery CpuDescriptor := do
  let status ← orError .invalidCpu node.status
  let affinity ← affinityOf cells node.reg
  if strayAffinity affinity then .error .invalidAffinity
  else return { affinity, enabled := status == .okay, logicalId := none,
                startup := ← startupMethod psci node }

/-- What a child of `/cpus` says; a node of another device type says nothing. -/
def describe (cells : Nat) (psci : Option PsciDescription) (node : CpuNode) :
    Discovery (Option CpuDescriptor) :=
  match node.deviceType with
  | none => if node.nameWithoutAddress = "cpu" then .error .invalidCpu else .ok none
  | some kind => do
      if (← orError .invalidCpu kind) ≠ "cpu" then return none
      else return some (← describeCpu cells psci node)

/-- The CPUs after a child that says this: a new CPU goes to the end. -/
def Extends (cpus cpus' : List CpuDescriptor) (found : Option CpuDescriptor) : Prop :=
  cpus' = cpus ++ found.toList ∧
    ∀ cpu ∈ found, ∀ other ∈ cpus, other.affinity ≠ cpu.affinity

theorem addCpu_eq_ok : addCpu cells psci cpus node = .ok cpus' ↔
    ∃ cpu, describeCpu cells psci node = .ok cpu ∧
      Extends cpus.entries cpus'.entries (some cpu) := by
  unfold addCpu describeCpu
  constructor
  · intro h
    obtain ⟨status, hstatus, h⟩ := Fallible.bind_eq_ok.mp h
    obtain ⟨affinity, haffinity, h⟩ := Fallible.bind_eq_ok.mp h
    split at h
    · cases h
    rename_i hstray
    split at h
    · cases h
    rename_i hnew
    split at h
    · cases h
    rename_i hroom
    obtain ⟨startup, hstartup, h⟩ := Fallible.bind_eq_ok.mp h
    obtain ⟨cpus'', hpush, hentries⟩ := FixedList.push_of_lt
      (⟨affinity, status == .okay, none, startup⟩ : CpuDescriptor)
      (FixedList.len_lt_of_not_isFull hroom)
    rw [hpush] at h
    cases h
    refine ⟨⟨affinity, status == .okay, none, startup⟩, ?_, hentries, ?_⟩
    · refine Fallible.bind_eq_ok.mpr ⟨status, hstatus, Fallible.bind_eq_ok.mpr
        ⟨affinity, haffinity, ?_⟩⟩
      rw [if_neg hstray]
      exact Fallible.bind_eq_ok.mpr ⟨startup, hstartup, rfl⟩
    · rintro cpu ⟨⟩ other hother heq
      exact hnew (List.any_eq_true.mpr ⟨other, hother, beq_iff_eq.mpr heq⟩)
  · rintro ⟨cpu, h, hentries, hnew⟩
    obtain ⟨status, hstatus, h⟩ := Fallible.bind_eq_ok.mp h
    obtain ⟨affinity, haffinity, h⟩ := Fallible.bind_eq_ok.mp h
    split at h
    · cases h
    rename_i hstray
    obtain ⟨startup, hstartup, h⟩ := Fallible.bind_eq_ok.mp h
    cases h
    have hlen : cpus.len < maxCpus := by
      have hle := cpus'.len_le
      rw [hentries, List.length_append] at hle
      exact hle
    have hroom : ¬ cpus.isFull = true := by
      simp only [FixedList.isFull, beq_iff_eq]
      omega
    have hfresh : ¬ (cpus.entries.any fun cpu => cpu.affinity == affinity) = true := by
      rw [List.any_eq_true]
      rintro ⟨other, hother, heq⟩
      exact hnew _ rfl other hother (beq_iff_eq.mp heq)
    refine Fallible.bind_eq_ok.mpr ⟨status, hstatus, Fallible.bind_eq_ok.mpr
      ⟨affinity, haffinity, ?_⟩⟩
    rw [if_neg hstray, if_neg hfresh, if_neg hroom]
    refine Fallible.bind_eq_ok.mpr ⟨startup, hstartup, ?_⟩
    obtain ⟨cpus'', hpush, hpushed⟩ := FixedList.push_of_lt
      (⟨affinity, status == .okay, none, startup⟩ : CpuDescriptor) hlen
    rw [hpush]
    exact congrArg Except.ok (FixedList.ext (hpushed.trans hentries.symm))

theorem addNode_eq_ok : addNode cells psci cpus node = .ok cpus' ↔
    ∃ found, describe cells psci node = .ok found ∧ Extends cpus.entries cpus'.entries found := by
  have hnone : Extends cpus.entries cpus'.entries none ↔ cpus' = cpus := by
    constructor
    · rintro ⟨hentries, -⟩
      exact FixedList.ext (hentries.trans (List.append_nil _))
    · rintro rfl
      exact ⟨(List.append_nil _).symm, nofun⟩
  unfold addNode describe
  rcases node.deviceType with _ | kind
  · by_cases hname : node.nameWithoutAddress = "cpu"
    · simp [hname]
    · simp [hname, hnone, eq_comm]
  · dsimp only
    rcases orError .invalidCpu kind with e | kind
    · exact ⟨nofun, fun ⟨_, h, _⟩ => nomatch h⟩
    · show (if kind ≠ "cpu" then pure cpus else addCpu cells psci cpus node) = _ ↔
        ∃ found, (if kind ≠ "cpu" then pure none
          else describeCpu cells psci node >>= fun cpu => pure (some cpu)) = _ ∧ _
      by_cases hkind : kind ≠ "cpu"
      · rw [if_pos hkind, if_pos hkind]
        constructor
        · rintro ⟨⟩
          exact ⟨none, rfl, hnone.mpr rfl⟩
        · rintro ⟨_, ⟨⟩, hextends⟩
          rw [hnone.mp hextends]
          rfl
      · rw [if_neg hkind, if_neg hkind, addCpu_eq_ok]
        constructor
        · rintro ⟨cpu, hcpu, hextends⟩
          exact ⟨some cpu, Fallible.bind_eq_ok.mpr ⟨cpu, hcpu, rfl⟩, hextends⟩
        · rintro ⟨_, hfound, hextends⟩
          obtain ⟨cpu, hcpu, ⟨⟩⟩ := Fallible.bind_eq_ok.mp hfound
          exact ⟨cpu, hcpu, hextends⟩

/-- The loop never takes an affinity twice. -/
theorem addNode_nodup (hnodup : (cpus.entries.map CpuDescriptor.affinity).Nodup)
    (h : addNode cells psci cpus node = .ok cpus') :
    (cpus'.entries.map CpuDescriptor.affinity).Nodup := by
  obtain ⟨found, -, hentries, hnew⟩ := addNode_eq_ok.mp h
  rw [hentries]
  rcases found with _ | cpu
  · simpa using hnodup
  · rw [Option.toList_some, List.map_append, List.map_singleton]
    refine hnodup.append (List.nodup_singleton _) ?_
    simpa using fun other hother => hnew cpu rfl other hother

end Found

section Arranged

variable {cpus : List CpuDescriptor} {index : Nat}

theorem swapFirst_of_lt (h : index < cpus.length) :
    swapFirst cpus index = (cpus.set 0 cpus[index]).set index (cpus[0]) := by
  unfold swapFirst
  rw [List.getElem?_eq_getElem (by omega), List.getElem?_eq_getElem h]

theorem swapFirst_perm (h : index < cpus.length) : (swapFirst cpus index).Perm cpus := by
  rw [swapFirst_of_lt h]
  exact List.set_set_perm (by omega) h

theorem swapFirst_head (h : index < cpus.length) :
    ∃ rest, swapFirst cpus index = cpus[index] :: rest := by
  rw [swapFirst_of_lt h]
  cases cpus with
  | nil => cases h
  | cons first rest =>
    cases index with
    | zero => exact ⟨rest, rfl⟩
    | succ index => exact ⟨rest.set index first, rfl⟩

theorem sortRest_perm (cpus : List CpuDescriptor) : (sortRest cpus).Perm cpus := by
  cases cpus with
  | nil => exact .refl _
  | cons boot rest => exact (List.perm_insertionSort _ rest).cons boot

theorem map_affinity_assignIds (next : Nat) (cpus : List CpuDescriptor) :
    (assignIds next cpus).map CpuDescriptor.affinity = cpus.map CpuDescriptor.affinity := by
  induction cpus generalizing next with
  | nil => rfl
  | cons cpu rest ih =>
    unfold assignIds
    split <;> simp [ih]

theorem numbers_assignIds (next : Nat) (cpus : List CpuDescriptor) :
    ((assignIds next cpus).filter CpuDescriptor.enabled).map CpuDescriptor.logicalId =
      (List.range' next ((assignIds next cpus).filter CpuDescriptor.enabled).length).map some := by
  induction cpus generalizing next with
  | nil => rfl
  | cons cpu rest ih =>
    unfold assignIds
    cases henabled : cpu.enabled with
    | true => simp [ih, List.range'_succ]
    | false => simp [henabled, ih]

end Arranged

/-! ## How discovery succeeds -/

/-- What discovery reads besides the children of `/cpus`, and finds in order. -/
structure Header (parent : CpusNode) (children : List RootChild) (cells : UInt32)
    (psci : Option PsciDescription) : Prop where
  status : orError .invalidCpu parent.status = .ok .okay
  addressCells : required .invalidCells .invalidCells parent.addressCells = .ok cells
  one_or_two : cells = 1 ∨ cells = 2
  sizeCells : required .invalidCells .invalidCells parent.sizeCells = .ok 0
  psci : discoverPsci children = .ok psci

theorem discoverCpus_eq_ok {parent : CpusNode} {children : List RootChild} {bootMpidr : Nat}
    {topology : Topology} : discoverCpus parent children bootMpidr = .ok topology ↔
      ∃ cells psci cpus boot, Header parent children cells psci ∧
        parent.children.foldlM (addNode cells.toNat psci) FixedList.empty = .ok cpus ∧
        cpus.entries.findIdx? (fun cpu => cpu.enabled && cpu.affinity == bootAffinity bootMpidr) =
          some boot ∧
        topology = { cpus := arrange cpus boot, psci } := by
  unfold discoverCpus
  constructor
  · intro h
    obtain ⟨status, hstatus, h⟩ := Fallible.bind_eq_ok.mp h
    split at h
    · cases h
    rename_i hokay
    obtain ⟨cells, hcells, h⟩ := Fallible.bind_eq_ok.mp h
    split at h
    · cases h
    rename_i hone
    obtain ⟨sizeCells, hsize, h⟩ := Fallible.bind_eq_ok.mp h
    split at h
    · cases h
    rename_i hzero
    obtain ⟨psci, hpsci, h⟩ := Fallible.bind_eq_ok.mp h
    obtain ⟨cpus, hloop, h⟩ := Fallible.bind_eq_ok.mp h
    split at h
    · cases h
    rename_i boot hboot
    cases h
    rw [not_not] at hokay hzero
    subst hokay hzero
    exact ⟨cells, psci, cpus, boot, ⟨hstatus, hcells, by tauto, hsize, hpsci⟩, hloop, hboot, rfl⟩
  · rintro ⟨cells, psci, cpus, boot, hheader, hloop, hboot, rfl⟩
    refine Fallible.bind_eq_ok.mpr ⟨.okay, hheader.status, ?_⟩
    rw [if_neg (not_not.mpr rfl)]
    refine Fallible.bind_eq_ok.mpr ⟨cells, hheader.addressCells, ?_⟩
    have hone := hheader.one_or_two
    rw [if_neg (by tauto)]
    refine Fallible.bind_eq_ok.mpr ⟨0, hheader.sizeCells, ?_⟩
    rw [if_neg (not_not.mpr rfl)]
    refine Fallible.bind_eq_ok.mpr ⟨psci, hheader.psci, ?_⟩
    refine Fallible.bind_eq_ok.mpr ⟨cpus, hloop, ?_⟩
    rw [hboot]
    rfl

theorem discovered_of_ok {tree : CpuTree} {bootMpidr : Nat} {topology : Topology}
    (h : discoverCpuTopology tree bootMpidr = .ok topology) : Discovered topology bootMpidr := by
  unfold discoverCpuTopology at h
  split at h
  · cases h
  obtain ⟨cells, psci, cpus, boot, -, hloop, hboot, rfl⟩ := discoverCpus_eq_ok.mp h
  obtain ⟨hlt, hfound, _⟩ := List.findIdx?_eq_some_iff_getElem.mp hboot
  obtain ⟨henabled, haffinity⟩ := Bool.and_eq_true_iff.mp hfound
  have hnodup : (cpus.entries.map CpuDescriptor.affinity).Nodup :=
    Fallible.foldlM_invariant
      (P := fun cpus => (cpus.entries.map CpuDescriptor.affinity).Nodup)
      (fun _ _ _ => addNode_nodup) List.nodup_nil hloop
  constructor
  case boot =>
    obtain ⟨rest, hrest⟩ := swapFirst_head hlt
    show ∃ cpu rest, assignIds 0 (sortRest (swapFirst cpus.entries boot)) = _ ∧ _
    rw [hrest, sortRest, assignIds, if_pos henabled]
    exact ⟨_, _, rfl, henabled, beq_iff_eq.mp haffinity, rfl⟩
  case affinities =>
    show ((assignIds 0 (sortRest (swapFirst cpus.entries boot))).map _).Nodup
    rw [map_affinity_assignIds]
    have hperm := (sortRest_perm (swapFirst cpus.entries boot)).trans (swapFirst_perm hlt)
    exact (hperm.map _).nodup_iff.mpr hnodup
  case numbered =>
    rw [List.range_eq_range']
    exact numbers_assignIds 0 _

end Tvisor.CpuTopology
