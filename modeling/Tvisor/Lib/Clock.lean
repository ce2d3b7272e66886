/-
# Tvisor.Lib.Clock -- readings of a counter that may be narrower than a word

A counter of `w` bits shows the true time modulo `2^w`, and a program takes the difference of two
readings in 64-bit words. The difference is right modulo every power of two up to `2^w`
(`wrappingSub_reading_modEq`), so a mask that is no wider than the counter gives the elapsed time
back (`masked_elapsed`).

Without a mask the difference of two readings on either side of a wrap has all bits from `w` up set.
`neverEarly_iff` says for which start times a deadline that is compared with this difference cannot
come too early.
-/
import Mathlib.Data.Nat.ModEq
import Tvisor.Lib.Words

namespace Clock

open Words

/-- What a counter of `w` bits shows at this time. -/
def reading (w time : Nat) : Nat := time % 2 ^ w

section Readings

variable {w m s d ticks : Nat}

theorem reading_lt (w time : Nat) : reading w time < 2 ^ w := Nat.mod_lt _ (Nat.two_pow_pos w)

theorem reading_add (w s d : Nat) : reading w (s + d) = (reading w s + d) % 2 ^ w :=
  (Nat.mod_add_mod s (2 ^ w) d).symm

theorem two_pow_le_wordBound (hw : w ≤ 64) : 2 ^ w ≤ wordBound :=
  Nat.pow_le_pow_right (by decide) hw

theorem reading_modEq (time : Nat) (hm : m ≤ w) : reading w time ≡ time [MOD 2 ^ m] :=
  (Nat.mod_modEq time (2 ^ w)).of_dvd (Nat.pow_dvd_pow 2 hm)

/-- The difference of two words, modulo a power of two. -/
theorem wrappingSub_modEq {a b : Nat} (hb : b ≤ wordBound) (hm : m ≤ 64) :
    wrappingSub a b + b ≡ a [MOD 2 ^ m] := by
  unfold wrappingSub
  split
  · rename_i hle
    rw [Nat.sub_add_cancel hle]
  · rw [Nat.sub_add_cancel (by omega)]
    have hperiod : wordBound ≡ 0 [MOD 2 ^ m] :=
      Nat.modEq_zero_iff_dvd.mpr (Nat.pow_dvd_pow 2 hm)
    simpa using hperiod.add_left a

/-- The difference of two readings is the elapsed time, as far as the counter is wide. -/
theorem wrappingSub_reading_modEq (hm : m ≤ w) (hw : w ≤ 64) :
    wrappingSub (reading w (s + d)) (reading w s) ≡ d [MOD 2 ^ m] := by
  have hbound : reading w s ≤ wordBound :=
    (reading_lt w s).le.trans (two_pow_le_wordBound hw)
  have hdiff := wrappingSub_modEq (a := reading w (s + d)) hbound (hm.trans hw)
  have hstart := (reading_modEq s hm).add_left (wrappingSub (reading w (s + d)) (reading w s))
  have hnow : reading w (s + d) ≡ d + s [MOD 2 ^ m] :=
    Nat.add_comm s d ▸ reading_modEq (s + d) hm
  exact ((hstart.symm.trans hdiff).trans hnow).add_right_cancel' s

/-- With a mask no wider than the counter the difference is the elapsed time. -/
theorem masked_elapsed (hm : m ≤ w) (hw : w ≤ 64) (hd : d < 2 ^ m) :
    wrappingSub (reading w (s + d)) (reading w s) &&& (2 ^ m - 1) = d := by
  rw [Nat.and_two_pow_sub_one_eq_mod, wrappingSub_reading_modEq hm hw, Nat.mod_eq_of_lt hd]

theorem wrappingSub_lt {a b : Nat} (ha : a < wordBound) : wrappingSub a b < wordBound := by
  unfold wrappingSub
  split
  · omega
  · omega

/-! ## Without a mask -/

/-- The readings are compared without a mask: a deadline of `ticks` is over only when so many ticks
have gone by. -/
def NeverEarly (w s ticks : Nat) : Prop :=
  ∀ t, s ≤ t → ticks ≤ wrappingSub (reading w t) (reading w s) → s + ticks ≤ t

/-- A counter as wide as a word: the difference is at most the elapsed time. -/
theorem neverEarly_word (s ticks : Nat) : NeverEarly 64 s ticks := by
  intro t hst hexpired
  obtain ⟨d, rfl⟩ := Nat.exists_eq_add_of_le hst
  have hmod : wrappingSub (reading 64 (s + d)) (reading 64 s) % 2 ^ 64 = d % 2 ^ 64 :=
    wrappingSub_reading_modEq le_rfl le_rfl
  have hlt : wrappingSub (reading 64 (s + d)) (reading 64 s) < 2 ^ 64 :=
    wrappingSub_lt (reading_lt 64 (s + d))
  rw [Nat.mod_eq_of_lt hlt] at hmod
  have hle : d % 2 ^ 64 ≤ d := Nat.mod_le d _
  omega

/-- A counter that has just wrapped: every later reading is ahead of the first. -/
theorem neverEarly_of_reading_zero (h : reading w s = 0) : NeverEarly w s ticks := by
  intro t hst hexpired
  obtain ⟨d, rfl⟩ := Nat.exists_eq_add_of_le hst
  rw [reading_add, h, wrappingSub_of_le (Nat.zero_le _), Nat.zero_add, Nat.sub_zero] at hexpired
  have hle : d % 2 ^ w ≤ d := Nat.mod_le d _
  omega

/-- The deadline ends before the counter wraps. -/
theorem neverEarly_of_no_wrap (h : reading w s + ticks ≤ 2 ^ w) : NeverEarly w s ticks := by
  intro t hst hexpired
  obtain ⟨d, rfl⟩ := Nat.exists_eq_add_of_le hst
  by_contra hearly
  have hnow : reading w (s + d) = reading w s + d := by
    rw [reading_add, Nat.mod_eq_of_lt (by omega)]
  rw [hnow, wrappingSub_of_le (by omega)] at hexpired
  omega

/-- At the wrap the difference is at least half a word. -/
theorem expired_at_wrap (hw : w < 64) (hpos : 0 < reading w s) (hticks : ticks ≤ 2 ^ 63) :
    ticks ≤ wrappingSub (reading w (s + (2 ^ w - reading w s))) (reading w s) := by
  have hlt := reading_lt w s
  have hnow : reading w (s + (2 ^ w - reading w s)) = 0 := by
    rw [reading_add, Nat.add_sub_cancel' hlt.le, Nat.mod_self]
  have hhalf : 2 ^ w ≤ 2 ^ 63 := Nat.pow_le_pow_right (by decide) (by omega)
  rw [hnow, wrappingSub, if_neg (by omega), wordBound]
  omega

/-- Deadlines up to half a word: one can come early exactly when the counter is narrower than a word
and wraps, from a reading that is not zero, before the ticks are over. -/
theorem neverEarly_iff (hw : w ≤ 64) (hticks : ticks ≤ 2 ^ 63) :
    NeverEarly w s ticks ↔ w = 64 ∨ reading w s = 0 ∨ reading w s + ticks ≤ 2 ^ w := by
  constructor
  · intro h
    by_contra hcan
    obtain ⟨hnarrow, hzero, hwrap⟩ : w ≠ 64 ∧ reading w s ≠ 0 ∧ ¬ reading w s + ticks ≤ 2 ^ w := by
      simpa [not_or] using hcan
    have hwrapped := h _ (Nat.le_add_right s _)
      (expired_at_wrap (by omega) (Nat.pos_of_ne_zero hzero) hticks)
    have hlt := reading_lt w s
    omega
  · rintro (rfl | hzero | hwrap)
    · exact neverEarly_word s ticks
    · exact neverEarly_of_reading_zero hzero
    · exact neverEarly_of_no_wrap hwrap

end Readings

end Clock
