/-
# Tvisor.SecondaryEntry -- which CPU may be released, and through which cell

Preflight checks on the topology. Two references to descriptors are the same if they are the same
place in the list, so "another descriptor" is one at another index.
-/
import Tvisor.CpuTopology

namespace Tvisor.SecondaryEntry

open CpuTopology Words

structure EntryContract where
  el2MmuOff : Bool
  coherent : Bool
  deriving DecidableEq, Repr

inductive EntryError where
  | missingTarget
  | invalidTarget
  | unsupportedMethod
  | sharedReleaseCell
  | entryContractUnverified
  | coherencyUnverified
  deriving DecidableEq, Repr

/-- One round of the loop of `secondary_mask`, at this index of the list. -/
def maskStep (cpus : List CpuDescriptor) (seen : Nat) (entry : CpuDescriptor × Nat) :
    Except EntryError Nat :=
  if !entry.1.enabled then .ok seen
  else
    match entry.1.logicalId with
    | none => .error .invalidTarget
    | some id =>
        if maxCpus ≤ id ∨ seen &&& (1 <<< id) ≠ 0 then .error .invalidTarget
        else if strayAffinity entry.1.affinity ∨
            (cpus.eraseIdx entry.2).any (fun other => other.enabled &&
              other.affinity == entry.1.affinity) then .error .invalidTarget
        else .ok (seen ||| (1 <<< id))

/-- The enabled CPUs but the boot CPU. -/
def secondaryMask (cpus : List CpuDescriptor) : Except EntryError Nat := do
  let seen ← cpus.zipIdx.foldlM (maskStep cpus) 0
  if seen &&& 1 = 0 then throw .invalidTarget
  else if seen &&& bitNot 1 = 0 then throw .missingTarget
  else return seen &&& bitNot 1

def validateSpinTableTarget (cpus : List CpuDescriptor) (target : Nat) : Except EntryError Nat :=
  match cpus.zipIdx.find? (fun entry => entry.1.logicalId == some target) with
  | none => .error .missingTarget
  | some (cpu, index) =>
      if target = 0 ∨ maxCpus ≤ target ∨ cpu.enabled = false ∨ strayAffinity cpu.affinity ∨
          (cpus.eraseIdx index).any (fun other => other.enabled &&
            (other.logicalId == some target || other.affinity == cpu.affinity)) then
        .error .invalidTarget
      else
        match cpu.startup with
        | .spinTable releaseAddress =>
            if releaseAddress &&& 7 ≠ 0 then .error .invalidTarget
            else if (cpus.eraseIdx index).any
                (fun other => other.startup == .spinTable releaseAddress) then
              .error .sharedReleaseCell
            else .ok releaseAddress
        | _ => .error .unsupportedMethod

def validateSpinTableRelease (cpus : List CpuDescriptor) (target : Nat) (contract : EntryContract) :
    Except EntryError Nat := do
  let releaseAddress ← validateSpinTableTarget cpus target
  if !contract.el2MmuOff then throw .entryContractUnverified
  else if !contract.coherent then throw .coherencyUnverified
  else return releaseAddress

/-! ## Ownership of a release cell -/

variable {cpus : List CpuDescriptor}

/-- The cell is the one that the descriptor of this CPU names, and no other descriptor, enabled or
disabled, names it. -/
def OwnsCell (cpus : List CpuDescriptor) (target cell : Nat) : Prop :=
  ∃ (index : Nat) (cpu : CpuDescriptor), cpus[index]? = some cpu ∧
    cpu.logicalId = some target ∧ cpu.enabled = true ∧ cpu.startup = .spinTable cell ∧
    ∀ (index' : Nat) (cpu' : CpuDescriptor), cpus[index']? = some cpu' → index' ≠ index →
      cpu'.startup ≠ .spinTable cell

theorem mem_eraseIdx_of_ne {index index' : Nat} {cpu' : CpuDescriptor}
    (h : cpus[index']? = some cpu') (hne : index' ≠ index) : cpu' ∈ cpus.eraseIdx index := by
  rw [List.mem_eraseIdx_iff_getElem?]
  exact ⟨index', hne, h⟩

theorem validateSpinTableTarget_owns {target cell : Nat}
    (h : validateSpinTableTarget cpus target = .ok cell) :
    target ≠ 0 ∧ target < maxCpus ∧ OwnsCell cpus target cell := by
  unfold validateSpinTableTarget at h
  split at h
  · cases h
  rename_i cpu index hfind
  split at h
  · cases h
  rename_i hvalid
  split at h
  · rename_i releaseAddress hstartup
    split at h
    · cases h
    split at h
    · cases h
    rename_i hshared
    cases h
    simp only [not_or, not_le] at hvalid
    obtain ⟨htarget, hbound, henabled, _⟩ := hvalid
    have hmem := List.mem_zipIdx_iff_getElem?.mp (List.mem_of_find?_eq_some hfind)
    have hid : cpu.logicalId = some target := by simpa using List.find?_some hfind
    refine ⟨htarget, hbound, index, cpu, hmem, hid, by simpa using henabled, hstartup, ?_⟩
    intro index' cpu' hcpu' hne hsame
    apply hshared
    rw [List.any_eq_true]
    exact ⟨cpu', mem_eraseIdx_of_ne hcpu' hne, by simpa using hsame⟩
  · cases h

theorem validateSpinTableRelease_target {target cell : Nat} {contract : EntryContract}
    (h : validateSpinTableRelease cpus target contract = .ok cell) :
    validateSpinTableTarget cpus target = .ok cell := by
  rcases hr : validateSpinTableTarget cpus target with e | releaseAddress
  · rw [validateSpinTableRelease, hr] at h
    cases h
  · simp only [validateSpinTableRelease, hr, bind, Except.bind] at h
    split at h
    · cases h
    split at h
    · cases h
    · cases h
      rfl

end Tvisor.SecondaryEntry
