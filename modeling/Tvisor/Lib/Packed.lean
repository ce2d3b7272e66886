/-
# Tvisor.Lib.Packed -- byte arrays read as arrays of bits

An array of `n` bytes holds `8 * n` bits; bit `i` is bit `i % 8` of byte `i / 8`. The file reads
such an array as the finite set of its set bits: testing and writing a bit through a mask are
membership, insertion and deletion, and two arrays with the same set are equal.
-/
import Mathlib.Data.Finset.Card
import Mathlib.Order.Interval.Finset.Nat

namespace Packed

variable {n : Nat}

/-- Bit `i` of the array. Positions past the end read as clear. -/
def bit (bytes : Vector (BitVec 8) n) (i : Nat) : Bool :=
  (bytes[i / 8]?.getD 0#8).getLsbD (i % 8)

variable {bytes : Vector (BitVec 8) n}

theorem bit_of_le {i : Nat} (h : 8 * n ≤ i) :
    bit bytes i = false := by
  unfold bit
  rw [Vector.getElem?_eq_none (by omega)]
  simp

theorem bit_replicate (i : Nat) : bit (Vector.replicate n 0#8) i = false := by
  unfold bit
  by_cases h : i / 8 < n
  · rw [Vector.getElem?_eq_getElem h]
    simp
  · rw [Vector.getElem?_eq_none (by omega)]
    simp

/-- The bits determine the bytes. -/
theorem ext_bit {a b : Vector (BitVec 8) n} (h : ∀ i < 8 * n, bit a i = bit b i) : a = b := by
  apply Vector.ext
  intro k hk
  apply BitVec.eq_of_getLsbD_eq
  intro j hj
  have hkj := h (8 * k + j) (by omega)
  unfold bit at hkj
  have hdiv : (8 * k + j) / 8 = k := by omega
  have hmod : (8 * k + j) % 8 = j := by omega
  rw [hdiv, hmod, Vector.getElem?_eq_getElem hk, Vector.getElem?_eq_getElem hk] at hkj
  exact hkj

/-! ## Masks -/

theorem and_mask_ne_zero (byte : BitVec 8) {k : Nat} (hk : k < 8) :
    ((byte &&& (1#8 <<< k)) != 0#8) = byte.getLsbD k := by
  rw [← BitVec.twoPow_eq, BitVec.and_twoPow]
  cases h : byte.getLsbD k with
  | true =>
    have hne : BitVec.twoPow 8 k ≠ 0#8 := by
      intro hzero
      have := congrArg (fun b : BitVec 8 => b.getLsbD k) hzero
      simp [hk] at this
    simpa using hne
  | false => simp

theorem getLsbD_mask {k : Nat} (hk : k < 8) (j : Nat) :
    (1#8 <<< k).getLsbD j = decide (k = j) := by
  rw [← BitVec.twoPow_eq, BitVec.getLsbD_twoPow]
  simp [hk]

/-- Replacing one byte by a version that differs in bit `i % 8` only. -/
theorem bit_setIfInBounds {i : Nat} (hi : i < 8 * n) {byte : BitVec 8} {value : Bool}
    (hbyte : ∀ k < 8, byte.getLsbD k =
      if i % 8 = k then value else (bytes[i / 8]?.getD 0#8).getLsbD k)
    (j : Nat) :
    bit (bytes.setIfInBounds (i / 8) byte) j = if i = j then value else bit bytes j := by
  unfold bit
  rw [Vector.getElem?_setIfInBounds]
  by_cases hdiv : i / 8 = j / 8
  · have hin : i / 8 < n := by omega
    rw [if_pos hdiv, if_pos hin]
    show byte.getLsbD (j % 8) = _
    rw [hbyte _ (Nat.mod_lt _ (by decide)), hdiv]
    by_cases hmod : i % 8 = j % 8
    · rw [if_pos hmod, if_pos (by omega)]
    · rw [if_neg hmod, if_neg (by rintro rfl; exact hmod rfl)]
  · rw [if_neg hdiv, if_neg (by rintro rfl; exact hdiv rfl)]

/-! ## The set of set bits -/

/-- The positions of the set bits. -/
def ones (bytes : Vector (BitVec 8) n) : Finset Nat := (Finset.range (8 * n)).filter (bit bytes ·)

@[simp] theorem mem_ones {i : Nat} :
    i ∈ ones bytes ↔ bit bytes i = true := by
  unfold ones
  rw [Finset.mem_filter, Finset.mem_range]
  constructor
  · exact And.right
  · intro h
    refine ⟨?_, h⟩
    by_contra hi
    rw [bit_of_le (by omega)] at h
    cases h

theorem eq_of_ones_eq {a b : Vector (BitVec 8) n} (h : ones a = ones b) : a = b := by
  apply ext_bit
  intro i _
  have hi : i ∈ ones a ↔ i ∈ ones b := by rw [h]
  rw [mem_ones, mem_ones] at hi
  exact Bool.eq_iff_iff.mpr hi

theorem ones_replicate : ones (Vector.replicate n 0#8) = ∅ := by
  ext i
  simp [bit_replicate]

end Packed
