/-
# Tvisor.Lib.Words -- 64-bit word arithmetic carried by natural numbers

Addresses, sizes, counters and descriptors are natural numbers throughout. The operations below are
the checked and the wrapping arithmetic of a 64-bit machine; every other module gets its overflow
behaviour from here and from nowhere else.

Masks are the second topic. A mask of ones `(2^n - 1) * 2^k` selects a bit field, and the lemmas
turn `&&&` with such a mask into `/` and `%`, and `|||` of separated fields into `+`. After that
rewriting a descriptor is linear arithmetic and `omega` finishes.
-/
import Mathlib.Data.Nat.Bitwise
import Mathlib.Tactic.Ring

namespace Words

/-! ## Checked and wrapping arithmetic -/

/-- The number of values of a 64-bit word. -/
def wordBound : Nat := 2 ^ 64

def checkedAdd (a b : Nat) : Option Nat := if a + b < wordBound then some (a + b) else none

def checkedSub (a b : Nat) : Option Nat := if b ≤ a then some (a - b) else none

def checkedMul (a b : Nat) : Option Nat := if a * b < wordBound then some (a * b) else none

def wrappingMul (a b : Nat) : Nat := a * b % wordBound

def wrappingSub (a b : Nat) : Nat := if b ≤ a then a - b else a + wordBound - b

/-- The complement `!x` of a 64-bit word. -/
def bitNot (x : Nat) : Nat := wordBound - 1 - x

theorem checkedAdd_eq_some {a b c : Nat} :
    checkedAdd a b = some c ↔ a + b < wordBound ∧ c = a + b := by
  unfold checkedAdd
  split
  · simp_all [eq_comm]
  · simp_all

theorem checkedAdd_eq_none {a b : Nat} : checkedAdd a b = none ↔ wordBound ≤ a + b := by
  unfold checkedAdd
  split <;> simp_all

theorem checkedAdd_of_lt {a b : Nat} (h : a + b < wordBound) : checkedAdd a b = some (a + b) :=
  if_pos h

theorem checkedSub_of_le {a b : Nat} (h : b ≤ a) : checkedSub a b = some (a - b) := if_pos h

theorem wrappingSub_of_le {a b : Nat} (h : b ≤ a) : wrappingSub a b = a - b := if_pos h

theorem checkedMul_eq_some {a b c : Nat} :
    checkedMul a b = some c ↔ a * b < wordBound ∧ c = a * b := by
  unfold checkedMul
  split
  · simp_all [eq_comm]
  · simp_all

/-! ## Masks as division and remainder -/

/-- A field mask: `n` ones above `k` zeros. -/
theorem testBit_field (n k i : Nat) :
    ((2 ^ n - 1) * 2 ^ k).testBit i = (decide (k ≤ i) && decide (i - k < n)) := by
  rw [Nat.testBit_mul_two_pow, Nat.testBit_two_pow_sub_one]

/-- Masking with a field keeps the field's bits in place and clears everything else. -/
theorem land_field (x n k : Nat) : x &&& (2 ^ n - 1) * 2 ^ k = x / 2 ^ k % 2 ^ n * 2 ^ k := by
  apply Nat.eq_of_testBit_eq
  intro i
  rw [Nat.testBit_and, testBit_field, Nat.testBit_mul_two_pow, Nat.testBit_mod_two_pow,
    Nat.testBit_div_two_pow]
  by_cases hk : k ≤ i
  · simp [hk, Bool.and_comm]
  · simp [hk]

/-- Clearing the low `k` bits of a word rounds it down to a multiple of `2^k`. -/
theorem land_bitNot_low {x k : Nat} (hx : x < wordBound) (hk : k ≤ 64) :
    x &&& bitNot (2 ^ k - 1) = x / 2 ^ k * 2 ^ k := by
  have hmask : bitNot (2 ^ k - 1) = (2 ^ (64 - k) - 1) * 2 ^ k := by
    have hsplit : 2 ^ (64 - k) * 2 ^ k = 2 ^ 64 := by rw [← pow_add]; congr 1; omega
    have hpos : 0 < 2 ^ k := Nat.two_pow_pos k
    rw [Nat.sub_mul, hsplit, bitNot, wordBound]
    omega
  have hlt : x / 2 ^ k < 2 ^ (64 - k) := by
    rw [Nat.div_lt_iff_lt_mul (Nat.two_pow_pos k), ← pow_add]
    have : 64 - k + k = 64 := by omega
    rwa [this]
  rw [hmask, land_field, Nat.mod_eq_of_lt hlt]

/-- A multiple of `2^k` and a word below `2^k` share no bit, so joining them adds them. -/
theorem lor_eq_add {x y : Nat} (k : Nat) (hx : x % 2 ^ k = 0) (hy : y < 2 ^ k) :
    x ||| y = x + y := by
  obtain ⟨a, rfl⟩ := Nat.dvd_of_mod_eq_zero hx
  exact (Nat.two_pow_add_eq_or_of_lt hy a).symm

/-- A joined word has low bits zero exactly when both parts do. -/
theorem lor_mod_eq_zero {x y k : Nat} :
    (x ||| y) % 2 ^ k = 0 ↔ x % 2 ^ k = 0 ∧ y % 2 ^ k = 0 := by
  rw [Nat.or_mod_two_pow, Nat.or_eq_zero_iff]

end Words
