/-
# Tvisor.Lib.Buffer -- a fixed buffer that holds a text from its start

A buffer of fixed size is reused for texts of different lengths: what counts are its first bytes,
and whoever uses it keeps their number. `l <+: v.toList` says that the buffer holds `l`, and with
that that `l` fits. Writing behind the text extends it, and a longer text still holds the shorter
one, so what a callee writes behind the text of its caller leaves that text in place.
-/
import Tvisor.Lib.Fallible
import Mathlib.Data.List.Infix

namespace Buffer

open Fallible

variable {α : Type} {n : Nat} {ε σ : Type}

/-! ## Writing a slice -/

/-- The buffer with these items from `start` on; what does not fit is dropped. -/
def overwrite (v : Vector α n) (start : Nat) (items : List α) : Vector α n :=
  Vector.ofFn fun i => if start ≤ i.val then (items[i.val - start]?).getD v[i] else v[i]

/-- `array[start..stop].copy_from_slice(items)`, on a copy of the array. -/
def copyFromSlice (v : Vector α n) (start stop : Nat) (items : List α) :
    EStateM (Stop ε) σ (Vector α n) :=
  if start ≤ stop ∧ stop ≤ n ∧ items.length = stop - start then pure (overwrite v start items)
  else throw .panicked

/-- `&array[..len]` -/
def takeSlice (v : Vector α n) (len : Nat) : EStateM (Stop ε) σ (List α) :=
  if len ≤ n then pure (v.toList.take len) else throw .panicked

/-! ## Texts in a buffer -/

variable {v : Vector α n} {l items : List α}

theorem length_le (h : l <+: v.toList) : l.length ≤ n := by
  simpa using h.length_le

theorem take_toList (h : l <+: v.toList) : v.toList.take l.length = l :=
  (List.prefix_iff_eq_take.mp h).symm

theorem takeSlice_of_held (h : l <+: v.toList) :
    (takeSlice v l.length : EStateM (Stop ε) σ (List α)) = pure l := by
  rw [takeSlice, if_pos (length_le h), take_toList h]

theorem getElem?_overwrite (v : Vector α n) (start : Nat) (items : List α) {i : Nat} (hi : i < n) :
    (overwrite v start items).toList[i]? =
      some (if start ≤ i then (items[i - start]?).getD v[i] else v[i]) := by
  rw [List.getElem?_eq_getElem (by simpa using hi)]
  simp [overwrite]

/-- Items written behind a text extend it. -/
theorem append_prefix_overwrite (h : l <+: v.toList) (hfit : l.length + items.length ≤ n) :
    l ++ items <+: (overwrite v l.length items).toList := by
  rw [List.prefix_iff_getElem?] at h ⊢
  intro i hi
  rw [List.length_append] at hi
  have hbound : i < n := by omega
  rw [getElem?_overwrite v _ _ hbound]
  by_cases hold : i < l.length
  · have hsame := h i hold
    rw [List.getElem?_eq_getElem (by simpa using hbound)] at hsame
    rw [if_neg (not_le.mpr hold), List.getElem_append_left hold]
    simpa using hsame
  · have hnew : i - l.length < items.length := by omega
    rw [if_pos (not_lt.mp hold), List.getElem_append_right (not_lt.mp hold),
      List.getElem?_eq_getElem hnew, Option.getD_some]

/-- One more item behind a text. -/
theorem append_prefix_set (h : l <+: v.toList) (hfit : l.length < n) (a : α) :
    l ++ [a] <+: (v.set l.length a hfit).toList := by
  rw [List.prefix_iff_getElem?] at h ⊢
  intro i hi
  rw [List.length_append, List.length_singleton] at hi
  rw [Vector.toList_set, List.getElem?_set]
  by_cases hlast : l.length = i
  · subst hlast
    simp [hfit]
  · have hold : i < l.length := by omega
    rw [if_neg hlast, List.getElem_append_left hold]
    exact h i hold

end Buffer
