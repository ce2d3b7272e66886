/-
# Tvisor.Lib.Pool -- a pool of resources and the ledger of who holds what

A pool hands out resources of an arbitrary type and takes them back. A ledger is a pool together
with the allocations that are still held. Both carry their invariant as fields: what is in use is
managed, the held allocations are pairwise disjoint and in use. The operations below cannot be
applied so as to break them, so a program that refines a ledger has the invariants for free.
-/
import Mathlib.Data.Finset.Basic
import Mathlib.Order.Disjoint

namespace Resource

variable {α : Type*} [DecidableEq α]

/-- The managed resources and those in use. -/
@[ext] structure Pool (α : Type*) [DecidableEq α] where
  managed : Finset α
  used : Finset α
  used_subset : used ⊆ managed

namespace Pool

/-- What an allocation may return. -/
def unused (p : Pool α) : Finset α := p.managed \ p.used

/-- Hand out unused resources. -/
def take (p : Pool α) (r : Finset α) (h : r ⊆ p.unused) : Pool α where
  managed := p.managed
  used := p.used ∪ r
  used_subset := Finset.union_subset p.used_subset (h.trans Finset.sdiff_subset)

/-- Take resources back; those that were not in use stay as they are. -/
def give (p : Pool α) (r : Finset α) : Pool α where
  managed := p.managed
  used := p.used \ r
  used_subset := Finset.sdiff_subset.trans p.used_subset

end Pool

/-- A pool and the allocations that are still held. -/
structure Ledger (α : Type*) [DecidableEq α] where
  pool : Pool α
  live : List (Finset α)
  disjoint : live.Pairwise Disjoint
  live_used : ∀ a ∈ live, a ⊆ pool.used

namespace Ledger

/-- No allocation is held at the start. -/
def start (p : Pool α) : Ledger α := ⟨p, [], List.Pairwise.nil, by simp⟩

/-- A new allocation is disjoint from every held one because those are in use. -/
def take (l : Ledger α) (r : Finset α) (h : r ⊆ l.pool.unused) : Ledger α where
  pool := l.pool.take r h
  live := r :: l.live
  disjoint := by
    refine List.Pairwise.cons ?_ l.disjoint
    intro a ha
    apply Finset.disjoint_left.mpr
    intro x hx hxa
    exact (Finset.mem_sdiff.mp (h hx)).2 (l.live_used a ha hxa)
  live_used := by
    intro a ha
    rcases List.mem_cons.mp ha with rfl | ha
    · exact Finset.subset_union_right
    · exact (l.live_used a ha).trans Finset.subset_union_left

/-- Returned resources leave every allocation they were part of. -/
def give (l : Ledger α) (r : Finset α) : Ledger α where
  pool := l.pool.give r
  live := l.live.map (· \ r)
  disjoint := by
    rw [List.pairwise_map]
    apply l.disjoint.imp
    intro a b hab
    exact hab.mono Finset.sdiff_subset Finset.sdiff_subset
  live_used := by
    intro a ha
    obtain ⟨b, hb, rfl⟩ := List.mem_map.mp ha
    exact Finset.sdiff_subset_sdiff (l.live_used b hb) (Finset.Subset.refl r)

end Ledger

end Resource
