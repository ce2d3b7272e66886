/-
# Tvisor.Lib.Relocation -- windows carried through first-match tables

A table relocates addresses: each entry carries a half-open interval to another place, and the first
entry that holds an address decides. A chain of tables is used one after the other. An entry may be
unreadable, and then no address that gets as far as it is relocated.

That one address arrives says nothing about its neighbours. A window arrives as a whole if in every
table one entry decides about all of it (`cover`), which is so if that entry holds its first address
and its last and no entry before it meets the window.
-/
import Mathlib.Tactic.Common
import Mathlib.Order.Lattice
import Mathlib.Order.Nat

namespace Relocation

/-! ## Tables -/

variable {a k n : Nat}

/-- `length` addresses from `child` on go to the addresses from `parent` on. -/
structure Entry where
  child : Nat
  parent : Nat
  length : Nat
  deriving DecidableEq, Repr

/-- The entries in the order in which they are tried; an unreadable one is `none`. -/
abbrev Table := List (Option Entry)

variable {e : Entry} {table : Table}

namespace Entry

/-- The address is one of those that the entry carries. -/
def Holds (e : Entry) (a : Nat) : Prop := e.child ≤ a ∧ a - e.child < e.length

instance (e : Entry) (a : Nat) : Decidable (e.Holds a) := inferInstanceAs (Decidable (_ ∧ _))

/-- Some of the `n` addresses from `a` on are. -/
def Meets (e : Entry) (a n : Nat) : Prop := e.child < a + n ∧ a < e.child + e.length

instance (e : Entry) (a n : Nat) : Decidable (e.Meets a n) := inferInstanceAs (Decidable (_ ∧ _))

/-- Where the entry carries an address. -/
def target (e : Entry) (a : Nat) : Nat := e.parent + (a - e.child)

end Entry

/-- The first entry that holds the address, if all before it are readable. -/
def select : Table → Nat → Option Entry
  | [], _ => none
  | none :: _, _ => none
  | some e :: rest, a => if e.Holds a then some e else select rest a

/-- The entry that decides about all of the `n` addresses from `a` on: it holds the first and the
last of them, and no entry before it meets them. -/
def cover : Table → Nat → Nat → Option Entry
  | [], _, _ => none
  | none :: _, _, _ => none
  | some e :: rest, a, n =>
      if e.Holds a ∧ e.Holds (a + n - 1) then some e
      else if e.Meets a n then none
      else cover rest a n

theorem select_of_cover (h : cover table a n = some e) (hk : k < n) :
    select table (a + k) = some e ∧ e.target (a + k) = e.target a + k := by
  induction table with
  | nil => cases h
  | cons entry rest ih =>
    cases entry with
    | none => cases h
    | some first =>
      rw [cover] at h
      split_ifs at h with hholds hmeets
      · cases h
        obtain ⟨⟨hle, hlt⟩, -, hlast⟩ := hholds
        refine ⟨if_pos ⟨by omega, by omega⟩, ?_⟩
        unfold Entry.target
        omega
      · have hnot : ¬ first.Holds (a + k) := by
          rintro ⟨hle, hlt⟩
          exact hmeets ⟨by omega, by omega⟩
        rw [select, if_neg hnot]
        exact ih h

/-! ## Chains -/

/-- One table: an empty one leaves every address where it is. -/
def relocate (bound : Nat) (table : Table) (a : Nat) : Option Nat :=
  if table = [] then some a
  else (select table a).bind fun e => if e.target a < bound then some (e.target a) else none

/-- A chain of tables, the first one first. -/
def translate (bound : Nat) : List Table → Nat → Option Nat
  | [], a => some a
  | table :: chain, a => (relocate bound table a).bind (translate bound chain)

/-- In every table one entry decides about the window that has arrived there, and carries it to
addresses below the bound. -/
def Covered (bound : Nat) : List Table → Nat → Nat → Prop
  | [], _, _ => True
  | table :: chain, a, n =>
      if table = [] then Covered bound chain a n
      else ∃ e, cover table a n = some e ∧ e.target a + n ≤ bound ∧
        Covered bound chain (e.target a) n

variable {bound t : Nat} {chain : List Table}

/-- The addresses of a covered window keep their distances on the way. -/
theorem Covered.translate_add (h : Covered bound chain a n) (ht : translate bound chain a = some t)
    (hk : k < n) : translate bound chain (a + k) = some (t + k) := by
  -- Induction on the chain; one table moves the whole window by its covering entry.
  induction chain generalizing a with
  | nil =>
    cases ht
    rfl
  | cons table chain ih =>
    rw [Covered] at h
    rw [translate, relocate] at ht ⊢
    split_ifs at h ht ⊢ with hempty
    · exact ih h ht
    · obtain ⟨e, hcover, hbound, hchain⟩ := h
      have hfirst := (select_of_cover hcover (Nat.zero_lt_of_lt hk)).1
      obtain ⟨hselect, htarget⟩ := select_of_cover hcover hk
      rw [Nat.add_zero] at hfirst
      rw [hfirst, Option.bind_some, if_pos (by omega)] at ht
      rw [hselect, Option.bind_some, htarget, if_pos (by omega)]
      exact ih hchain ht

end Relocation
