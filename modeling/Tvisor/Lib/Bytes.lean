/-
# Tvisor.Lib.Bytes -- rounded addresses and blocks of bytes in memory

Two things a loader needs. The least multiple of an alignment that is not below an address, as the
order-theoretic notion and as the formula, so that a rounding in the code can be compared with what
it is for. And a memory under a sequence of block writes: a byte holds what the last block that
covers it put there, or what it held before.
-/
import Mathlib.Data.List.GetD
import Mathlib.Order.Bounds.Basic
import Mathlib.Tactic.Common

namespace Bytes

/-! ## Rounding up -/

/-- The least multiple of `n` that is not below `x`. -/
def Rounded (n x y : Nat) : Prop := IsLeast {a | n ∣ a ∧ x ≤ a} y

theorem Rounded.le {n x y : Nat} (h : Rounded n x y) : x ≤ y := h.1.2

theorem Rounded.dvd {n x y : Nat} (h : Rounded n x y) : n ∣ y := h.1.1

/-- The address moved up by what it lacks to the next multiple. -/
def roundUp (n x : Nat) : Nat := if x % n = 0 then x else x + (n - x % n)

theorem rounded_roundUp {n x : Nat} (hn : 0 < n) : Rounded n x (roundUp n x) := by
  have hlt := Nat.mod_lt x hn
  have hdiv := Nat.div_add_mod x n
  unfold roundUp
  by_cases hzero : x % n = 0
  · rw [if_pos hzero]
    exact ⟨⟨Nat.dvd_of_mod_eq_zero hzero, le_rfl⟩, fun a ha => ha.2⟩
  · rw [if_neg hzero]
    have hnext : x + (n - x % n) = n * (x / n + 1) := by
      rw [Nat.mul_add, Nat.mul_one]
      omega
    rw [hnext]
    refine ⟨⟨Nat.dvd_mul_right n _, by omega⟩, ?_⟩
    rintro a ⟨⟨q, rfl⟩, hle⟩
    -- a multiple that is not below `x` has a quotient above that of `x`
    have hq : x / n < q := by
      by_contra hnot
      have := Nat.mul_le_mul_left n (not_lt.mp hnot)
      omega
    exact Nat.mul_le_mul_left n hq

/-! ## Blocks -/

variable {β : Type*}

/-- A block of bytes and where it goes. -/
structure Block (β : Type*) where
  start : Nat
  bytes : List β

variable {m : Nat → β} {b : Block β} {a : Nat}

namespace Block

/-- The addresses of a block. -/
def Covers (b : Block β) (a : Nat) : Prop := b.start ≤ a ∧ a < b.start + b.bytes.length

/-- The memory after a block has been written. -/
def write (m : Nat → β) (b : Block β) : Nat → β := fun a =>
  if b.start ≤ a then b.bytes.getD (a - b.start) (m a) else m a

theorem write_of_not_covers (h : ¬ b.Covers a) :
    write m b a = m a := by
  unfold write
  by_cases hle : b.start ≤ a
  · rw [if_pos hle, List.getD_eq_default]
    unfold Covers at h
    omega
  · rw [if_neg hle]

theorem write_of_covers (h : b.Covers a) (d : β) :
    write m b a = b.bytes.getD (a - b.start) d := by
  obtain ⟨hlo, hhi⟩ := h
  have hlt : a - b.start < b.bytes.length := by omega
  unfold write
  rw [if_pos hlo, List.getD_eq_getElem _ _ hlt, List.getD_eq_getElem _ _ hlt]

end Block

/-- The memory after blocks have been written one after the other. -/
def writeAll (m : Nat → β) (blocks : List (Block β)) : Nat → β := blocks.foldl Block.write m

theorem writeAll_of_not_covers {blocks : List (Block β)} (h : ∀ b ∈ blocks, ¬ b.Covers a) :
    writeAll m blocks a = m a := by
  induction blocks generalizing m with
  | nil => rfl
  | cons b rest ih =>
    obtain ⟨hb, hrest⟩ := List.forall_mem_cons.mp h
    exact (ih hrest).trans (Block.write_of_not_covers hb)

/-- The last block that covers a byte decides. -/
theorem writeAll_of_covers {p q : List (Block β)} (hb : b.Covers a) (hq : ∀ b' ∈ q, ¬ b'.Covers a)
    (d : β) :
    writeAll m (p ++ b :: q) a = b.bytes.getD (a - b.start) d := by
  unfold writeAll
  rw [List.foldl_append, List.foldl_cons]
  exact (writeAll_of_not_covers hq).trans (Block.write_of_covers hb d)

/-- A byte string, a filling up to its extent, and another one behind them. -/
def padded (start : Nat) (bytes : List β) (extent : Nat) (fill : β) (next : Block β) :
    List (Block β) :=
  [⟨start, bytes⟩, ⟨start + bytes.length, List.replicate (extent - bytes.length) fill⟩, next]

section Padded

variable {start extent : Nat} {bytes : List β} {fill : β} {next : Block β}

theorem getD_replicate (n i : Nat) (fill : β) : (List.replicate n fill).getD i fill = fill := by
  rw [List.getD_eq_getElem?_getD, List.getElem?_replicate]
  split <;> rfl

/-- Up to the extent there is the byte string, and the filling after it. -/
theorem writeAll_padded (hnext : start + extent ≤ next.start) {i : Nat} (hi : i < extent) :
    writeAll m (padded start bytes extent fill next) (start + i) = bytes.getD i fill := by
  have hout : ¬ next.Covers (start + i) := by
    rintro ⟨hlo, -⟩
    omega
  by_cases hin : i < bytes.length
  · have hfill : ¬ (⟨start + bytes.length, List.replicate (extent - bytes.length) fill⟩ :
        Block β).Covers (start + i) := by
      rintro ⟨hlo, -⟩
      dsimp only at hlo
      omega
    have hcovers : (⟨start, bytes⟩ : Block β).Covers (start + i) :=
      ⟨Nat.le_add_right _ _, Nat.add_lt_add_left hin _⟩
    have hbyte := writeAll_of_covers (p := []) (m := m) hcovers
      (List.forall_mem_cons.mpr ⟨hfill, List.forall_mem_singleton.mpr hout⟩) fill
    rw [Nat.add_sub_cancel_left] at hbyte
    exact hbyte
  · have hcovers : (⟨start + bytes.length, List.replicate (extent - bytes.length) fill⟩ :
        Block β).Covers (start + i) := by
      refine ⟨?_, ?_⟩
      · dsimp only
        omega
      · rw [List.length_replicate]
        dsimp only
        omega
    have hbyte := writeAll_of_covers (p := [⟨start, bytes⟩]) (m := m) hcovers
      (List.forall_mem_singleton.mpr hout) fill
    rw [List.getD_eq_default _ _ (not_lt.mp hin)]
    exact hbyte.trans (getD_replicate _ _ fill)

theorem writeAll_next {i : Nat} (hi : i < next.bytes.length) (d : β) :
    writeAll m (padded start bytes extent fill next) (next.start + i) = next.bytes.getD i d := by
  have hcovers : next.Covers (next.start + i) :=
    ⟨Nat.le_add_right _ _, Nat.add_lt_add_left hi _⟩
  have hbyte := writeAll_of_covers (m := m)
    (p := [⟨start, bytes⟩, ⟨start + bytes.length, List.replicate (extent - bytes.length) fill⟩])
    hcovers (List.forall_mem_nil _) d
  rw [Nat.add_sub_cancel_left] at hbyte
  exact hbyte

/-- Nothing is written outside the extent and the block behind it. -/
theorem covers_padded (hlength : bytes.length ≤ extent)
    (hb : b ∈ padded start bytes extent fill next) (ha : b.Covers a) :
    (start ≤ a ∧ a < start + extent) ∨ next.Covers a := by
  obtain ⟨hlo, hhi⟩ := ha
  simp only [padded, List.mem_cons, List.not_mem_nil, or_false] at hb
  rcases hb with rfl | rfl | rfl
  · dsimp only at hlo hhi
    exact .inl ⟨hlo, by omega⟩
  · rw [List.length_replicate] at hhi
    dsimp only at hlo hhi
    exact .inl ⟨by omega, by omega⟩
  · exact .inr ⟨hlo, hhi⟩

end Padded

end Bytes
