/-
# Tvisor.Page -- the page granule and its alignment helpers

`tvisor_util/page.rs`. The target is AArch64, so `usize` and `u64` are the same 64-bit word. The
alignment helpers are generic in the alignment and refuse one that is not a power of two; the
lemmas give their value at the page size, where every caller in the memory subsystem uses them.
-/
import Tvisor.Lib.Words

namespace Tvisor.Page

open Words

def pageSize : Nat := 0x1000

def isPowerOfTwo (n : Nat) : Bool := n != 0 && (n &&& (n - 1)) == 0

/-- False for an alignment that is not a power of two. -/
def isAligned (addr alignment : Nat) : Bool :=
  isPowerOfTwo alignment && (addr &&& (alignment - 1)) == 0

def isPageAligned (addr : Nat) : Bool := isAligned addr pageSize

/-- The last multiple up to the value. -/
def alignDown (value alignment : Nat) : Option Nat :=
  if !isPowerOfTwo alignment then none else some (value &&& bitNot (alignment - 1))

/-- The first multiple from the value on, if it is a word. -/
def alignUp (value alignment : Nat) : Option Nat :=
  if !isPowerOfTwo alignment then none
  else match checkedAdd value (alignment - 1) with
    | some v => some (v &&& bitNot (alignment - 1))
    | none => none

/-- `(start..stop).step_by(PAGE_SIZE)` -/
def stepPages (start stop : Nat) : List Nat :=
  List.range' start ((stop - start + (pageSize - 1)) / pageSize) pageSize

/-! ## The page-size instances -/

theorem isPageAligned_iff {addr : Nat} : isPageAligned addr = true ↔ addr % 4096 = 0 := by
  have h : addr &&& (pageSize - 1) = addr % 2 ^ 12 := Nat.and_two_pow_sub_one_eq_mod addr 12
  have hp : isPowerOfTwo pageSize = true := by decide
  rw [isPageAligned, isAligned, hp, h]
  simp

/-- Rounding down never fails at the page size. -/
theorem alignDown_page {value : Nat} (h : value < wordBound) :
    alignDown value pageSize = some (4096 * (value / 4096)) := by
  have hp : isPowerOfTwo pageSize = true := by decide
  have hv : value &&& bitNot (pageSize - 1) = value / 2 ^ 12 * 2 ^ 12 :=
    land_bitNot_low (k := 12) h (by decide)
  rw [alignDown, hp, hv, Nat.mul_comm]
  rfl

/-- Rounding up fails exactly when the rounded value would leave the word. -/
theorem alignUp_page (value : Nat) :
    alignUp value pageSize =
      if value + 4095 < wordBound then some (4096 * ((value + 4095) / 4096)) else none := by
  have hp : isPowerOfTwo pageSize = true := by decide
  rw [alignUp, hp]
  by_cases h : value + 4095 < wordBound
  · have hc : checkedAdd value (pageSize - 1) = some (value + 4095) := checkedAdd_of_lt h
    have hv : (value + 4095) &&& bitNot (pageSize - 1) = (value + 4095) / 2 ^ 12 * 2 ^ 12 :=
      land_bitNot_low (k := 12) h (by decide)
    rw [hc, if_pos h, Nat.mul_comm]
    exact congrArg some hv
  · have hc : checkedAdd value (pageSize - 1) = none := checkedAdd_eq_none.mpr (not_lt.mp h)
    rw [hc, if_neg h]
    rfl

/-! ## Steps of a page -/

theorem mem_stepPages {start stop a : Nat} :
    a ∈ stepPages start stop ↔ ∃ k, a = start + 4096 * k ∧ a < stop := by
  unfold stepPages pageSize
  rw [List.mem_range']
  constructor
  · rintro ⟨k, hk, rfl⟩
    exact ⟨k, rfl, by omega⟩
  · rintro ⟨k, rfl, hlt⟩
    exact ⟨k, by omega, rfl⟩

/-- The steps through a range and its last byte meet every page of the range, wherever it starts. -/
theorem exists_samePage {start stop a : Nat} (hlo : start ≤ a) (hhi : a < stop) :
    ∃ b ∈ stepPages start stop ++ [stop - 1], b / 4096 = a / 4096 := by
  by_cases hstep : start + 4096 * (a / 4096 - start / 4096) < stop
  · refine ⟨_, List.mem_append_left _ (mem_stepPages.mpr ⟨_, rfl, hstep⟩), ?_⟩
    omega
  · -- The step into the page of the address is past the end, so the end lies in that page.
    refine ⟨stop - 1, List.mem_append_right _ (List.mem_singleton_self _), ?_⟩
    omega

end Tvisor.Page
