/-
# Tvisor.Lib.Ring -- a ring buffer is a bounded queue

A buffer of `n` slots, a head and a length hold a queue: the element `i` places behind the front is
in slot `(head + i) % n`. `contents` reads the queue off, and the two lemmas below say that writing
the slot behind the last element appends and that moving the head by one drops the front. The slots
outside the queue may hold anything.
-/
import Mathlib.Data.List.Range
import Mathlib.Data.Nat.ModEq

namespace Ring

variable {α : Type*} {n : Nat} [NeZero n]

/-- The slot at a distance from the head. -/
def slot (n head i : Nat) [NeZero n] : Fin n := Fin.ofNat n (head + i)

/-- The queue that the buffer holds, front first. -/
def contents (buffer : Vector α n) (head len : Nat) : List α :=
  (List.range len).map fun i => buffer.get (slot n head i)

@[simp] theorem length_contents (buffer : Vector α n) (head len : Nat) :
    (contents buffer head len).length = len := by
  simp [contents]

theorem contents_eq_nil {buffer : Vector α n} {head len : Nat} :
    contents buffer head len = [] ↔ len = 0 := by
  rw [← List.length_eq_zero_iff, length_contents]

/-- Slots at different distances below `n` are different. -/
theorem slot_inj {head i j : Nat} (hi : i < n) (hj : j < n) (h : slot n head i = slot n head j) :
    i = j := by
  have hval : (head + i) % n = (head + j) % n := congrArg Fin.val h
  have hmod : i % n = j % n := Nat.ModEq.add_left_cancel' head hval
  rwa [Nat.mod_eq_of_lt hi, Nat.mod_eq_of_lt hj] at hmod

/-- Writing the slot behind the last element appends. -/
theorem contents_push (buffer : Vector α n) (head : Nat) {len : Nat} (hlen : len < n) (a : α) :
    contents (buffer.set (slot n head len) a (slot n head len).isLt) head (len + 1) =
      contents buffer head len ++ [a] := by
  unfold contents
  rw [List.range_succ, List.map_append, List.map_singleton]
  congr 1
  · apply List.map_congr_left
    intro i hi
    have hi := List.mem_range.mp hi
    have hne : slot n head len ≠ slot n head i := by
      intro heq
      have := slot_inj hlen (by omega) heq
      omega
    have hval : (slot n head len).val ≠ (slot n head i).val := fun heq => hne (Fin.ext heq)
    exact Vector.getElem_set_ne _ _ hval
  · exact congrArg (fun x => [x]) (Vector.getElem_set_self _)

/-- Moving the head by one drops the front. -/
theorem contents_pop (buffer : Vector α n) (head : Nat) {len : Nat} (hlen : len ≠ 0) :
    contents buffer head len =
      buffer.get (slot n head 0) :: contents buffer ((head + 1) % n) (len - 1) := by
  obtain ⟨len, rfl⟩ := Nat.exists_eq_succ_of_ne_zero hlen
  unfold contents
  rw [List.range_succ_eq_map, List.map_cons, List.map_map]
  congr 1
  apply List.map_congr_left
  intro i _
  have hslot : slot n head (i + 1) = slot n ((head + 1) % n) i := by
    apply Fin.ext
    show (head + (i + 1)) % n = ((head + 1) % n + i) % n
    rw [Nat.mod_add_mod, Nat.add_assoc, Nat.add_comm 1 i]
  exact congrArg buffer.get hslot

end Ring
