/-
# Tvisor.Lib.Sweep -- taking holes out of a window, in whatever order they come

A cursor goes from the start of a window to its end. A round picks, among the holes that end after
the cursor and start inside the window, one that starts first; the points up to that start are free
and the cursor goes on at the end of the hole. The holes need not be sorted, disjoint or non-empty:
two equations, one for a round that finds a hole and one for a round that finds none, say what is
free ahead of the cursor.
-/
import Mathlib.Data.List.MinMax
import Mathlib.Order.Interval.Set.Basic

namespace Tvisor.Sweep

variable {α : Type*} [LinearOrder α] {holes : List (α × α)} {hole : α × α} {cursor stop : α}

/-- The points of a window that no hole covers. -/
def free (holes : List (α × α)) (start stop : α) : Set α :=
  {x | (start ≤ x ∧ x < stop) ∧ ∀ hole ∈ holes, ¬ (hole.1 ≤ x ∧ x < hole.2)}

/-- The first hole to start, among those that still matter to the rest of the window. -/
def next (holes : List (α × α)) (cursor stop : α) : Option (α × α) :=
  (holes.filter fun hole => cursor < hole.2 ∧ hole.1 < stop).argmin Prod.fst

theorem mem_free {start x : α} : x ∈ free holes start stop ↔
    (start ≤ x ∧ x < stop) ∧ ∀ hole ∈ holes, ¬ (hole.1 ≤ x ∧ x < hole.2) := Iff.rfl

theorem mem_ahead : hole ∈ holes.filter (fun hole => cursor < hole.2 ∧ hole.1 < stop) ↔
    hole ∈ holes ∧ cursor < hole.2 ∧ hole.1 < stop := by
  simp

theorem next_mem (h : next holes cursor stop = some hole) :
    hole ∈ holes ∧ cursor < hole.2 ∧ hole.1 < stop :=
  mem_ahead.mp (List.argmin_mem h)

/-- A hole ahead of the cursor starts no earlier than the one picked. -/
theorem next_le (h : next holes cursor stop = some hole) {other : α × α} (hmem : other ∈ holes)
    (hend : cursor < other.2) (hstart : other.1 < stop) : hole.1 ≤ other.1 :=
  List.le_of_mem_argmin (mem_ahead.mpr ⟨hmem, hend, hstart⟩) h

/-- The cursor moves in every round, so a window is done after finitely many. -/
theorem lt_advance (hlt : cursor < stop) (h : next holes cursor stop = some hole) :
    cursor < min (max cursor hole.2) stop := by
  obtain ⟨-, hend, -⟩ := next_mem h
  exact lt_min (lt_max_of_lt_right hend) hlt

theorem free_eq_empty (h : stop ≤ cursor) : free holes cursor stop = ∅ := by
  ext x
  simp only [mem_free, Set.mem_empty_iff_false, iff_false]
  rintro ⟨⟨hlo, hhi⟩, -⟩
  exact absurd (h.trans hlo) (not_le.mpr hhi)

theorem free_of_next_eq_none (h : next holes cursor stop = none) :
    free holes cursor stop = Set.Ico cursor stop := by
  have hnone := List.argmin_eq_none.mp h
  ext x
  rw [mem_free, Set.mem_Ico]
  refine ⟨And.left, fun hx => ⟨hx, ?_⟩⟩
  rintro hole hmem ⟨hlo, hhi⟩
  -- A hole over a point of the window would have been ahead of the cursor.
  have hahead := mem_ahead.mpr ⟨hmem, hx.1.trans_lt hhi, hlo.trans_lt hx.2⟩
  rw [hnone] at hahead
  exact List.not_mem_nil hahead

theorem free_of_next_eq_some (h : next holes cursor stop = some hole) :
    free holes cursor stop =
      Set.Ico cursor (min hole.1 stop) ∪ free holes (min (max cursor hole.2) stop) stop := by
  obtain ⟨hmem, -, -⟩ := next_mem h
  ext x
  rw [Set.mem_union, mem_free, mem_free, Set.mem_Ico]
  constructor
  · rintro ⟨⟨hlo, hhi⟩, hfree⟩
    by_cases hx : x < hole.1
    · exact Or.inl ⟨hlo, lt_min hx hhi⟩
    · have hend : hole.2 ≤ x := not_lt.mp fun hlt => hfree hole hmem ⟨not_lt.mp hx, hlt⟩
      exact Or.inr ⟨⟨(min_le_left _ _).trans (max_le hlo hend), hhi⟩, hfree⟩
  · rintro (⟨hlo, hhi⟩ | ⟨⟨hlo, hhi⟩, hfree⟩)
    · obtain ⟨hbefore, hstop⟩ := lt_min_iff.mp hhi
      refine ⟨⟨hlo, hstop⟩, ?_⟩
      rintro other hother ⟨hstart, hend⟩
      -- A hole over a point before the picked one would have been picked instead.
      have hle := next_le h hother (hlo.trans_lt hend) (hstart.trans_lt hstop)
      exact absurd (hle.trans hstart) (not_le.mpr hbefore)
    · have hmax := (min_le_iff.mp hlo).resolve_right (not_le.mpr hhi)
      exact ⟨⟨(le_max_left _ _).trans hmax, hhi⟩, hfree⟩

end Tvisor.Sweep
