/-
# Tvisor.SystemInfo -- physical regions and fixed-capacity lists

The data of `tvisor_util/system_info.rs` that the memory subsystem is built from.

A `PhysAddr` is the number it wraps, so addresses are plain natural numbers.

A `PhysRegion` is nonempty and its end does not overflow; both are fields, because every constructor
of the source checks them and no method gives out a region that breaks them. Regions are half-open
intervals of addresses, which makes them an instance of `Intervals.Span`.

A `FixedList` is an array of `N` optional entries of which the first `len` are filled. Only the
filled ones can be observed, so the model keeps them as a list together with the capacity bound.
-/
import Tvisor.Lib.Fallible
import Tvisor.Lib.Intervals
import Tvisor.Page

namespace Tvisor.SystemInfo

open Words

/-- Why there is no such region. -/
inductive RegionError where
  | empty
  | endBeforeStart
  | addressOverflow
  | invalidAlignment
  deriving DecidableEq, Repr

/-- A non-empty range whose end is an address. -/
structure PhysRegion where
  start : Nat
  size : Nat
  size_pos : 0 < size
  end_lt : start + size < wordBound
  deriving DecidableEq, Repr

namespace PhysRegion

/-- The region of this size, if its end is an address. -/
def new (start : Nat) (size : Nat) : Except RegionError PhysRegion :=
  if hsize : size = 0 then .error .empty
  else match h : checkedAdd start size with
    | none => .error .addressOverflow
    | some _ => .ok ⟨start, size, Nat.pos_of_ne_zero hsize, (checkedAdd_eq_some.mp h).1⟩

theorem new_eq_ok {start size : Nat} {region : PhysRegion} (h : new start size = .ok region) :
    region.start = start ∧ region.size = size := by
  unfold new at h
  split at h
  · cases h
  split at h
  · cases h
  · cases h
    exact ⟨rfl, rfl⟩

/-- `PhysRegion::end`; the addition cannot overflow. -/
def endAddr (r : PhysRegion) : Nat := r.start + r.size

/-- The region up to an end that does not belong to it. -/
def fromBounds (start stop : Nat) : Except RegionError PhysRegion :=
  if stop < start then .error .endBeforeStart
  else if stop = start then .error .empty
  else new start (stop - start)

/-- The address is in the region. -/
def containsAddress (r : PhysRegion) (address : Nat) : Bool :=
  r.start ≤ address && address < r.endAddr

/-- The other region lies inside. -/
def containsRegion (r other : PhysRegion) : Bool :=
  r.start ≤ other.start && other.endAddr ≤ r.endAddr

/-- They have an address in common. -/
def overlaps (r other : PhysRegion) : Bool :=
  r.start < other.endAddr && other.start < r.endAddr

/-- One begins where the other ends. -/
def isAdjacent (r other : PhysRegion) : Bool :=
  r.endAddr == other.start || other.endAddr == r.start

/-! ## Regions as intervals -/

theorem start_lt_endAddr (r : PhysRegion) : r.start < r.endAddr :=
  Nat.lt_add_of_pos_right r.size_pos

theorem endAddr_lt (r : PhysRegion) : r.endAddr < wordBound := r.end_lt

/-- The region between two addresses, when there is one. -/
def ofBounds (start stop : Nat) (h : start < stop) (hstop : stop < wordBound) : PhysRegion :=
  ⟨start, stop - start, Nat.sub_pos_of_lt h, by omega⟩

@[simp] theorem ofBounds_endAddr (start stop : Nat) (h : start < stop)
    (hstop : stop < wordBound) : (ofBounds start stop h hstop).endAddr = stop := by
  unfold endAddr ofBounds
  dsimp only
  omega

theorem fromBounds_of_lt {start stop : Nat} (h : start < stop) (hstop : stop < wordBound) :
    fromBounds start stop = .ok (ofBounds start stop h hstop) := by
  have hadd : checkedAdd start (stop - start) = some (start + (stop - start)) :=
    checkedAdd_of_lt (by omega)
  unfold fromBounds new
  rw [if_neg (by omega), if_neg (by omega), dif_neg (by omega)]
  split
  · next hnone => rw [hadd] at hnone; cases hnone
  · rfl

instance : Intervals.Span PhysRegion Nat where
  lo := start
  hi := endAddr
  lo_lt_hi := start_lt_endAddr
  join a b := ofBounds (min a.start b.start) (max a.endAddr b.endAddr)
    (lt_of_le_of_lt (min_le_left _ _) (lt_of_lt_of_le a.start_lt_endAddr (le_max_left _ _)))
    (max_lt a.endAddr_lt b.endAddr_lt)
  lo_join _ _ := rfl
  hi_join _ _ := ofBounds_endAddr _ _ _ _

@[simp] theorem lo_eq (r : PhysRegion) : Intervals.Span.lo r = r.start := rfl

@[simp] theorem hi_eq (r : PhysRegion) : Intervals.Span.hi r = r.endAddr := rfl

/-- The source's two tests together say that the intervals touch. -/
theorem overlaps_or_isAdjacent {a b : PhysRegion} :
    (a.overlaps b || a.isAdjacent b) = true ↔ Intervals.Touches a b := by
  have ha := a.start_lt_endAddr
  have hb := b.start_lt_endAddr
  simp only [overlaps, isAdjacent, Intervals.Touches, lo_eq, hi_eq, Bool.or_eq_true,
    Bool.and_eq_true, decide_eq_true_eq, beq_iff_eq]
  omega

theorem overlaps_iff {a b : PhysRegion} :
    a.overlaps b = true ↔ ∃ x, Intervals.Within x a ∧ Intervals.Within x b := by
  have ha := a.start_lt_endAddr
  have hb := b.start_lt_endAddr
  simp only [overlaps, Intervals.Within, lo_eq, hi_eq, Bool.and_eq_true, decide_eq_true_eq]
  constructor
  · intro h
    exact ⟨max a.start b.start, by omega⟩
  · rintro ⟨x, h⟩
    omega

end PhysRegion

/-! ## Fixed-capacity lists -/

/-- The list was full. -/
structure CapacityError where
  capacity : Nat
  deriving DecidableEq, Repr

/-- A list in an array of `n` places. -/
structure FixedList (α : Type) (n : Nat) where
  entries : List α
  len_le : entries.length ≤ n
  deriving DecidableEq, Repr

namespace FixedList

variable {α : Type} {n : Nat}

/-- `FixedList::new` -/
def empty : FixedList α n := ⟨[], Nat.zero_le n⟩

def len (l : FixedList α n) : Nat := l.entries.length

def capacity (_ : FixedList α n) : Nat := n

def isFull (l : FixedList α n) : Bool := l.len == n

def clear (_ : FixedList α n) : FixedList α n := empty

def get (l : FixedList α n) (index : Nat) : Option α := l.entries[index]?

/-- Assignment through `get_mut`; nothing happens outside the filled part. -/
def set (l : FixedList α n) (index : Nat) (value : α) : FixedList α n :=
  ⟨l.entries.set index value, by rw [List.length_set]; exact l.len_le⟩

/-- Removes and returns the entry at `index`, shifting the later ones down. -/
def remove (l : FixedList α n) (index : Nat) : Option α × FixedList α n :=
  (l.get index, ⟨l.entries.eraseIdx index, (List.length_eraseIdx_le _ _).trans l.len_le⟩)

theorem len_lt_of_not_isFull {l : FixedList α n} (h : ¬ l.isFull = true) : l.len < n :=
  Nat.lt_of_le_of_ne l.len_le (by simpa [isFull] using h)

/-- A refused value leaves the list as it was. -/
def push (l : FixedList α n) (value : α) : Except CapacityError (FixedList α n) :=
  if h : l.isFull then .error ⟨n⟩
  else .ok ⟨l.entries ++ [value], by
    have := len_lt_of_not_isFull h
    unfold len at this
    rw [List.length_append, List.length_singleton]
    omega⟩

/-- Inserts before the entry at `index`, shifting the later ones up. -/
def insert (l : FixedList α n) (index : Nat) (value : α) :
    Except CapacityError (FixedList α n) :=
  if h : l.isFull then .error ⟨n⟩
  else if l.len < index then .error ⟨n⟩
  else .ok ⟨l.entries.insertIdx index value, by
    have := len_lt_of_not_isFull h
    unfold len at this
    exact List.length_insertIdx_le_succ.trans this⟩

@[ext] theorem ext {l l' : FixedList α n} (h : l.entries = l'.entries) : l = l' := by
  cases l
  cases l'
  simp_all

@[simp] theorem entries_set (l : FixedList α n) (index : Nat) (value : α) :
    (l.set index value).entries = l.entries.set index value := rfl

@[simp] theorem entries_remove (l : FixedList α n) (index : Nat) :
    (l.remove index).2.entries = l.entries.eraseIdx index := rfl

theorem push_of_lt {l : FixedList α n} (value : α) (h : l.len < n) :
    ∃ l', l.push value = .ok l' ∧ l'.entries = l.entries ++ [value] := by
  have hfull : ¬ l.isFull = true := by simpa [isFull] using h.ne
  exact ⟨_, dif_neg hfull, rfl⟩

theorem push_eq_ok {l l' : FixedList α n} {value : α} (h : l.push value = .ok l') :
    l'.entries = l.entries ++ [value] := by
  unfold push at h
  split at h
  · cases h
  · cases h
    rfl

theorem insert_of_lt {l : FixedList α n} (index : Nat) (value : α) (h : l.len < n)
    (hindex : index ≤ l.len) :
    ∃ l', l.insert index value = .ok l' ∧ l'.entries = l.entries.insertIdx index value := by
  have hfull : ¬ l.isFull = true := by simpa [isFull] using h.ne
  unfold insert
  rw [dif_neg hfull, if_neg (not_lt.mpr hindex)]
  exact ⟨_, rfl, rfl⟩

theorem insert_of_full {l : FixedList α n} (index : Nat) (value : α) (h : l.len = n) :
    l.insert index value = .error ⟨n⟩ := by
  have hfull : l.isFull = true := by simpa [isFull] using h
  exact dif_pos hfull

end FixedList

end Tvisor.SystemInfo
