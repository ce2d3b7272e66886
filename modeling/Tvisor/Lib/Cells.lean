/-
# Tvisor.Lib.Cells -- big-endian numbers and arrays of fixed-size records

A number is written with a fixed number of bytes, the most significant first, and read back by
folding the bytes. Records of equal size are written one after the other and read back by cutting
the bytes into pieces. Both readings undo both writings (`decodeBe_encodeBe`, `chunks_flatMap`),
and a wide number falls into the halves that a reader of narrower cells sees (`encodeBe_add`).
-/
import Mathlib.Algebra.Order.Group.Nat
import Mathlib.Tactic.Ring

namespace Cells

/-! ## Numbers -/

/-- The last `width` bytes of a number, the most significant first. -/
def encodeBe : Nat → Nat → List UInt8
  | 0, _ => []
  | width + 1, value => UInt8.ofNat (value / 256 ^ width) :: encodeBe width value

/-- The number that bytes make, the first of them the most significant. -/
def decodeBe (bytes : List UInt8) : Nat :=
  bytes.foldl (fun value byte => value * 256 + byte.toNat) 0

@[simp] theorem length_encodeBe (width value : Nat) : (encodeBe width value).length = width := by
  induction width with
  | zero => rfl
  | succ width ih => rw [encodeBe, List.length_cons, ih]

theorem foldl_encodeBe (width value acc : Nat) :
    (encodeBe width value).foldl (fun value byte => value * 256 + byte.toNat) acc =
      acc * 256 ^ width + value % 256 ^ width := by
  induction width generalizing acc with
  | zero => simp [encodeBe, Nat.mod_one]
  | succ width ih =>
    have hbyte : (UInt8.ofNat (value / 256 ^ width)).toNat = value / 256 ^ width % 256 :=
      UInt8.toNat_ofNat'
    rw [encodeBe, List.foldl_cons, ih, hbyte, pow_succ, Nat.mod_mul]
    ring

theorem decodeBe_encodeBe (width value : Nat) :
    decodeBe (encodeBe width value) = value % 256 ^ width := by
  rw [decodeBe, foldl_encodeBe, Nat.zero_mul, Nat.zero_add]

/-- A wide number is its high part and its low part, one after the other. -/
theorem encodeBe_add (high low value : Nat) :
    encodeBe (high + low) value = encodeBe high (value / 256 ^ low) ++ encodeBe low value := by
  induction high with
  | zero => simp [encodeBe]
  | succ high ih =>
    have hdiv : value / 256 ^ (high + low) = value / 256 ^ low / 256 ^ high := by
      rw [Nat.div_div_eq_div_mul, ← pow_add, Nat.add_comm]
    rw [Nat.add_right_comm, encodeBe, encodeBe, ih, hdiv, List.cons_append]

/-! ## Records -/

section Records

variable {α β : Type}

/-- The first `count` pieces of `size` elements. -/
def chunks (size : Nat) : Nat → List β → List (List β)
  | 0, _ => []
  | count + 1, xs => xs.take size :: chunks size count (xs.drop size)

/-- Records of one size are cut apart where they were put together. -/
theorem chunks_flatMap {size : Nat} {encode : α → List β} (h : ∀ a, (encode a).length = size)
    (records : List α) :
    chunks size records.length (records.flatMap encode) = records.map encode := by
  induction records with
  | nil => rfl
  | cons record rest ih =>
    rw [List.flatMap_cons, List.length_cons, chunks, List.take_left' (h record),
      List.drop_left' (h record), ih, List.map_cons]

theorem length_flatMap {size : Nat} {encode : α → List β} (h : ∀ a, (encode a).length = size)
    (records : List α) : (records.flatMap encode).length = size * records.length := by
  induction records with
  | nil => rfl
  | cons record rest ih =>
    rw [List.flatMap_cons, List.length_append, ih, h, List.length_cons]
    ring

end Records

end Cells
