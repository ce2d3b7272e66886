/-
# Tvisor.CpuTopology -- descriptions of the physical CPUs

What discovery leaves behind: for each CPU its affinity, whether it is enabled, its logical number
and how it is started. Every list of descriptors is a topology here; the lists that discovery can
leave behind are those of `Tvisor.CpuTopology.Discovery`.
-/
import Tvisor.Lib.Words

namespace Tvisor.CpuTopology

open Words

def maxCpus : Nat := 4

def mpidrAffinityMask : Nat := 0x000000ff00ffffff

inductive StartupMethod where
  | missing
  | unsupported
  | spinTable (releaseAddress : Nat)
  | psci
  deriving DecidableEq, Repr

structure CpuDescriptor where
  affinity : Nat
  enabled : Bool
  logicalId : Option Nat
  startup : StartupMethod
  deriving DecidableEq, Repr

/-- `affinity & !MPIDR_AFFINITY_MASK != 0` -/
def strayAffinity (affinity : Nat) : Prop := affinity &&& bitNot mpidrAffinityMask ≠ 0

instance (affinity : Nat) : Decidable (strayAffinity affinity) :=
  inferInstanceAs (Decidable (_ ≠ _))

end Tvisor.CpuTopology
