/-
# Tvisor.MemoryMap.Exact -- what a finalized memory map says about addresses

The map is read here as a set of addresses. A *session* is any sequence of calls on a map, from a
cleared one on, together with the list of regions whose insertion was accepted. The invariant of a
session is that each of the three input lists is separated and covers exactly the accepted regions
of its kind. From it, `finalize` is exact: it fails precisely on a RAM/MMIO overlap, and otherwise
leaves RAM minus the reservations, in canonical form.

The sweep can emit more pieces than there are RAM regions, so the output list could overflow. It
does not: every piece but the last of a RAM region is ended by a reservation that starts strictly
inside that region, and a reservation starts inside at most one.
-/
import Tvisor.MemoryMap

namespace Tvisor

open SystemInfo Fallible Intervals

namespace MemoryMap

/-! ## One insertion -/

/-- An accepted insertion adds the region's addresses and keeps the list canonical; a refused one
changes nothing. -/
theorem insertSortedMerged_spec {n : Nat} {list : FixedList PhysRegion n}
    (hsep : Separated list.entries) (region : PhysRegion) :
    match (insertSortedMerged region).run list with
    | .ok _ list' => Separated list'.entries ∧
        ∀ x, x ∈ cover list'.entries ↔ Within x region ∨ x ∈ cover list.entries
    | .error e list' => list' = list ∧ e = .capacity n := by
  obtain ⟨before, after, hlist, hbefore, hafter, h⟩ := insertSortedMerged_run list region hsep
  split at h
  · rw [h]
    exact ⟨rfl, rfl⟩
  · obtain ⟨list', hrun, hentries⟩ := h
    rw [hrun]
    refine ⟨?_, ?_⟩
    · rw [hentries]
      exact separated_place (hlist ▸ hsep) hbefore hafter
    · intro x
      rw [hentries, mem_cover_place, ← hlist]

/-! ## Finalizing a canonical map -/

/-- RAM minus the reservations, RAM region by RAM region. -/
def usableOf (ram reserved : List PhysRegion) : List PhysRegion :=
  ram.flatMap fun r => gaps (piece r) r.start reserved

theorem mem_cover_usableOf {ram reserved : List PhysRegion} (hreserved : Separated reserved)
    (x : Nat) : x ∈ cover (usableOf ram reserved) ↔ x ∈ cover ram ∧ x ∉ cover reserved := by
  unfold usableOf
  induction ram with
  | nil => simp
  | cons r rest ih =>
    rw [List.flatMap_cons, mem_cover_append, ih, mem_cover_cons,
      mem_cover_gaps (piece r) (fun _ _ _ _ => rfl)
        (fun _ _ _ _ => PhysRegion.ofBounds_endAddr _ _ _ _) hreserved]
    unfold Within
    simp only [PhysRegion.lo_eq, PhysRegion.hi_eq]
    tauto

/-- Every usable region lies inside one RAM region. -/
theorem usableOf_within (ram reserved : List PhysRegion) :
    ∀ u ∈ usableOf ram reserved, ∃ r ∈ ram, r.start ≤ u.start ∧ u.endAddr ≤ r.endAddr := by
  intro u hu
  obtain ⟨r, hr, hu⟩ := List.mem_flatMap.mp hu
  exact ⟨r, hr, gaps_bounds (piece r) (fun _ _ _ _ => rfl)
    (fun _ _ _ _ => PhysRegion.ofBounds_endAddr _ _ _ _) r.start reserved u hu⟩

theorem separated_usableOf {ram reserved : List PhysRegion} (hram : Separated ram) :
    Separated (usableOf ram reserved) := by
  unfold usableOf
  induction ram with
  | nil => exact List.Pairwise.nil
  | cons r rest ih =>
    obtain ⟨hr, hrest⟩ := separated_cons.mp hram
    rw [List.flatMap_cons, separated_append]
    refine ⟨separated_gaps (piece r) (fun _ _ _ _ => rfl)
      (fun _ _ _ _ => PhysRegion.ofBounds_endAddr _ _ _ _) r.start reserved, ih hrest, ?_⟩
    intro a ha b hb
    have ha' := gaps_bounds (piece r) (fun _ _ _ _ => rfl)
      (fun _ _ _ _ => PhysRegion.ofBounds_endAddr _ _ _ _) r.start reserved a ha
    obtain ⟨s, hs, hsb, -⟩ := usableOf_within rest reserved b hb
    have hrs := hr s hs
    simp only [PhysRegion.hi_eq, PhysRegion.lo_eq] at ha' hrs ⊢
    omega

/-- The counting argument: the output never needs more than one slot for each RAM region and one
for each reservation. -/
theorem length_usableOf_le {ram : List PhysRegion} (hram : Separated ram)
    (reserved : List PhysRegion) :
    (usableOf ram reserved).length ≤ ram.length + reserved.length := by
  have hcharge := sum_countP_interior_le hram reserved
  have hsum : (usableOf ram reserved).length ≤
      (ram.map fun w => reserved.countP fun r => Span.lo w < Span.lo r ∧ Span.lo r < Span.hi w).sum
        + ram.length := by
    clear hcharge hram
    unfold usableOf
    induction ram with
    | nil => simp
    | cons r rest ih =>
      have hone := length_gaps_le (piece r) r.start reserved
      simp only [List.flatMap_cons, List.length_append, List.map_cons, List.sum_cons,
        List.length_cons] at ih ⊢
      simp only [PhysRegion.lo_eq, PhysRegion.hi_eq] at hone ih ⊢
      omega
  omega

/-- The opening loop stops at a conflict and otherwise passes, without touching the map. -/
theorem rejectConflicts_run (ram mmio : List PhysRegion) (map : MemoryMap) :
    (∃ r ∈ ram, ∃ m ∈ mmio, r.overlaps m = true ∧
      (rejectConflicts ram mmio).run map = .error (.ramMmioConflict r m) map) ∨
    ((∀ r ∈ ram, ∀ m ∈ mmio, r.overlaps m = false) ∧
      (rejectConflicts ram mmio).run map = .ok () map) := by
  -- The inner loop, for one RAM region.
  have hinner : ∀ r : PhysRegion, ∀ ms : List PhysRegion,
      (∃ m ∈ ms, r.overlaps m = true ∧
        ((ms.forM fun m => if r.overlaps m then throw (.ramMmioConflict r m) else pure ()) :
          EStateM MemoryMapError MemoryMap Unit).run map = .error (.ramMmioConflict r m) map) ∨
      ((∀ m ∈ ms, r.overlaps m = false) ∧
        ((ms.forM fun m => if r.overlaps m then throw (.ramMmioConflict r m) else pure ()) :
          EStateM MemoryMapError MemoryMap Unit).run map = .ok () map) := by
    intro r ms
    induction ms with
    | nil => exact .inr ⟨by simp, rfl⟩
    | cons m rest ih =>
      rw [run_forM_cons]
      cases hm : r.overlaps m with
      | true => exact .inl ⟨m, List.mem_cons_self, hm, by simp⟩
      | false =>
        rcases ih with ⟨m', hm', hov, hrun⟩ | ⟨hnone, hrun⟩
        · exact .inl ⟨m', List.mem_cons_of_mem _ hm', hov, by simpa [hm] using hrun⟩
        · exact .inr ⟨by simpa [hm] using hnone, by simpa [hm] using hrun⟩
  unfold rejectConflicts
  induction ram with
  | nil => exact .inr ⟨by simp, rfl⟩
  | cons r rest ih =>
    rw [run_forM_cons]
    rcases hinner r mmio with ⟨m, hm, hov, hrun⟩ | ⟨hnone, hrun⟩
    · exact .inl ⟨r, List.mem_cons_self, m, hm, hov, by rw [hrun]⟩
    · rw [hrun]
      rcases ih with ⟨r', hr', m, hm, hov, hrun'⟩ | ⟨hnone', hrun'⟩
      · exact .inl ⟨r', List.mem_cons_of_mem _ hr', m, hm, hov, hrun'⟩
      · refine .inr ⟨?_, hrun'⟩
        intro r' hr'
        rcases List.mem_cons.mp hr' with rfl | hr'
        · exact hnone
        · exact hnone' r' hr'

/-- The closing loop appends the usable part of each RAM region in turn. -/
theorem subtractEach_run (reserved : FixedList PhysRegion maxNormalizedReservedRegions)
    (rams : List PhysRegion) (map : MemoryMap)
    (hroom : map.usableRam.len + (usableOf rams reserved.entries).length ≤ maxUsableRamRegions) :
    ∃ usable, (rams.forM fun ram => zoom usableRam (fun map list => { map with usableRam := list })
        (subtractAll ram reserved) : EStateM MemoryMapError MemoryMap Unit).run map =
          .ok () { map with usableRam := usable } ∧
      usable.entries = map.usableRam.entries ++ usableOf rams reserved.entries := by
  induction rams generalizing map with
  | nil => exact ⟨map.usableRam, rfl, (List.append_nil _).symm⟩
  | cons r rest ih =>
    have hsplit : usableOf (r :: rest) reserved.entries =
        gaps (piece r) r.start reserved.entries ++ usableOf rest reserved.entries := rfl
    rw [hsplit, List.length_append] at hroom
    obtain ⟨mid, hmid, hmidEntries⟩ :=
      sweep_run r r.start reserved.entries map.usableRam (by omega)
    have hmidLen : mid.len = map.usableRam.len +
        (gaps (piece r) r.start reserved.entries).length := by
      rw [FixedList.len, hmidEntries, List.length_append, FixedList.len]
    obtain ⟨usable, hrun, hentries⟩ := ih { map with usableRam := mid } (by
      show mid.len + _ ≤ _
      omega)
    refine ⟨usable, ?_, ?_⟩
    · rw [run_forM_cons, run_zoom]
      have hmid' : (subtractAll r reserved).run map.usableRam = .ok () mid := hmid
      rw [hmid']
      exact hrun
    · rw [hentries, hsplit]
      show mid.entries ++ _ = _
      rw [hmidEntries, List.append_assoc]

theorem finalize_run (map : MemoryMap) (hram : Separated map.ram.entries) :
    (∃ r ∈ map.ram.entries, ∃ m ∈ map.mmio.entries, r.overlaps m = true ∧
      finalize.run map = .error (.ramMmioConflict r m) map) ∨
    ((∀ r ∈ map.ram.entries, ∀ m ∈ map.mmio.entries, r.overlaps m = false) ∧
      ∃ usable, usable.entries = usableOf map.ram.entries map.permanentReserved.entries ∧
        finalize.run map = .ok () { map with usableRam := usable }) := by
  unfold finalize
  simp only [EStateM.run_bind, EStateM.run_get]
  rcases rejectConflicts_run map.ram.entries map.mmio.entries map with
    ⟨r, hr, m, hm, hov, hrun⟩ | ⟨hnone, hrun⟩
  · refine .inl ⟨r, hr, m, hm, hov, ?_⟩
    rw [hrun]
  · refine .inr ⟨hnone, ?_⟩
    have hbound := length_usableOf_le hram map.permanentReserved.entries
    have h1 := map.ram.len_le
    have h2 := map.permanentReserved.len_le
    obtain ⟨usable, hsub, hentries⟩ := subtractEach_run map.permanentReserved map.ram.entries
      { map with usableRam := map.usableRam.clear } (by
        show 0 + _ ≤ maxRamRegions + maxNormalizedReservedRegions
        omega)
    refine ⟨usable, hentries, ?_⟩
    rw [hrun]
    simp only [EStateM.run_modify]
    exact hsub

/-! ## Sessions -/

/-- The calls a client can make on a map. -/
inductive Call where
  | insertRam (region : PhysRegion)
  | insertReserved (region : PhysRegion)
  | insertMmio (region : PhysRegion)
  | finalize
  | clear

/-- The regions whose insertion was accepted since the map was last cleared. -/
structure Inserted where
  ram : List PhysRegion := []
  reserved : List PhysRegion := []
  mmio : List PhysRegion := []

/-- A map together with what has been inserted into it. -/
structure Session where
  map : MemoryMap
  inserted : Inserted

/-- One call. A call that returns an error contributes nothing to the record. -/
def Session.call (s : Session) : Call → Session
  | .insertRam r =>
      match (MemoryMap.insertRam r).run s.map with
      | .ok _ map => ⟨map, { s.inserted with ram := r :: s.inserted.ram }⟩
      | .error _ map => ⟨map, s.inserted⟩
  | .insertReserved r =>
      match (MemoryMap.insertReserved r).run s.map with
      | .ok _ map => ⟨map, { s.inserted with reserved := r :: s.inserted.reserved }⟩
      | .error _ map => ⟨map, s.inserted⟩
  | .insertMmio r =>
      match (MemoryMap.insertMmio r).run s.map with
      | .ok _ map => ⟨map, { s.inserted with mmio := r :: s.inserted.mmio }⟩
      | .error _ map => ⟨map, s.inserted⟩
  | .finalize => ⟨state (MemoryMap.finalize.run s.map), s.inserted⟩
  | .clear => ⟨s.map.clear, {}⟩

/-- A sequence of calls on a map that has just been cleared. -/
def session (map : MemoryMap) (calls : List Call) : Session :=
  calls.foldl Session.call ⟨map.clear, {}⟩

variable {s : Session}

/-- The lists are canonical and cover exactly what was inserted. -/
structure Session.Tracks (s : Session) : Prop where
  ram : Separated s.map.ram.entries
  reserved : Separated s.map.permanentReserved.entries
  mmio : Separated s.map.mmio.entries
  ram_cover : ∀ x, x ∈ cover s.map.ram.entries ↔ x ∈ cover s.inserted.ram
  reserved_cover : ∀ x, x ∈ cover s.map.permanentReserved.entries ↔ x ∈ cover s.inserted.reserved
  mmio_cover : ∀ x, x ∈ cover s.map.mmio.entries ↔ x ∈ cover s.inserted.mmio

theorem tracks_clear (map : MemoryMap) : Session.Tracks ⟨map.clear, {}⟩ where
  ram := List.Pairwise.nil
  reserved := List.Pairwise.nil
  mmio := List.Pairwise.nil
  ram_cover _ := Iff.rfl
  reserved_cover _ := Iff.rfl
  mmio_cover _ := Iff.rfl

/-- Finalizing leaves the three input lists alone, whatever it returns. -/
theorem finalize_inputs (map : MemoryMap) (hram : Separated map.ram.entries) :
    ∃ usable, state (finalize.run map) = { map with usableRam := usable } := by
  rcases finalize_run map hram with ⟨r, -, m, -, -, hrun⟩ | ⟨-, usable, -, hrun⟩
  · exact ⟨map.usableRam, by rw [hrun]; rfl⟩
  · exact ⟨usable, by rw [hrun]; rfl⟩

theorem Session.Tracks.call (h : s.Tracks) (c : Call) : (s.call c).Tracks := by
  cases c with
  | insertRam r =>
    have hins := insertSortedMerged_spec h.ram r
    simp only [Session.call, MemoryMap.insertRam, run_zoom]
    cases hrun : (insertSortedMerged r).run s.map.ram with
    | ok u list =>
      rw [hrun] at hins
      exact { h with
        ram := hins.1
        ram_cover := fun x => by rw [hins.2 x, h.ram_cover, mem_cover_cons] }
    | error e list =>
      rw [hrun] at hins
      obtain ⟨rfl, -⟩ := hins
      exact h
  | insertReserved r =>
    have hins := insertSortedMerged_spec h.reserved r
    simp only [Session.call, MemoryMap.insertReserved, run_zoom]
    cases hrun : (insertSortedMerged r).run s.map.permanentReserved with
    | ok u list =>
      rw [hrun] at hins
      exact { h with
        reserved := hins.1
        reserved_cover := fun x => by rw [hins.2 x, h.reserved_cover, mem_cover_cons] }
    | error e list =>
      rw [hrun] at hins
      obtain ⟨rfl, -⟩ := hins
      exact h
  | insertMmio r =>
    have hins := insertSortedMerged_spec h.mmio r
    simp only [Session.call, MemoryMap.insertMmio, run_zoom]
    cases hrun : (insertSortedMerged r).run s.map.mmio with
    | ok u list =>
      rw [hrun] at hins
      exact { h with
        mmio := hins.1
        mmio_cover := fun x => by rw [hins.2 x, h.mmio_cover, mem_cover_cons] }
    | error e list =>
      rw [hrun] at hins
      obtain ⟨rfl, -⟩ := hins
      exact h
  | finalize =>
    obtain ⟨usable, hstate⟩ := finalize_inputs s.map h.ram
    simp only [Session.call, hstate]
    exact ⟨h.ram, h.reserved, h.mmio, h.ram_cover, h.reserved_cover, h.mmio_cover⟩
  | clear => exact tracks_clear s.map

theorem session_tracks (map : MemoryMap) (calls : List Call) : (session map calls).Tracks :=
  foldl_invariant Session.call Session.Tracks (fun _ c h => h.call c) calls (tracks_clear map)

/-! ## Exactness -/

/-- Some address is in an inserted RAM region and in an inserted MMIO region. -/
def Inserted.Conflict (i : Inserted) : Prop := ∃ x, x ∈ cover i.ram ∧ x ∈ cover i.mmio

/-- `usable_ram` describes exactly the RAM addresses outside every reservation, canonically. -/
structure UsableExact (map : MemoryMap) (i : Inserted) : Prop where
  cover_eq : ∀ x, x ∈ cover map.usableRam.entries ↔ x ∈ cover i.ram ∧ x ∉ cover i.reserved
  separated : Separated map.usableRam.entries
  within_ram : ∀ u ∈ map.usableRam.entries, ∃ r ∈ map.ram.entries, r.containsRegion u = true

theorem Session.Tracks.conflict_iff (h : s.Tracks) :
    s.inserted.Conflict ↔
      ∃ r ∈ s.map.ram.entries, ∃ m ∈ s.map.mmio.entries, r.overlaps m = true := by
  constructor
  · rintro ⟨x, hx, hx'⟩
    obtain ⟨r, hr, hxr⟩ := (h.ram_cover x).mpr hx
    obtain ⟨m, hm, hxm⟩ := (h.mmio_cover x).mpr hx'
    exact ⟨r, hr, m, hm, PhysRegion.overlaps_iff.mpr ⟨x, hxr, hxm⟩⟩
  · rintro ⟨r, hr, m, hm, hov⟩
    obtain ⟨x, hxr, hxm⟩ := PhysRegion.overlaps_iff.mp hov
    exact ⟨x, (h.ram_cover x).mp ⟨r, hr, hxr⟩, (h.mmio_cover x).mp ⟨m, hm, hxm⟩⟩

theorem Session.Tracks.usableExact (h : s.Tracks)
    {usable : FixedList PhysRegion maxUsableRamRegions}
    (husable : usable.entries = usableOf s.map.ram.entries s.map.permanentReserved.entries) :
    UsableExact { s.map with usableRam := usable } s.inserted := by
  refine ⟨?_, ?_, ?_⟩
  · intro x
    show x ∈ cover usable.entries ↔ _
    rw [husable, mem_cover_usableOf h.reserved, h.ram_cover, h.reserved_cover]
  · show Separated usable.entries
    rw [husable]
    exact separated_usableOf h.ram
  · show ∀ u ∈ usable.entries, _
    rw [husable]
    intro u hu
    obtain ⟨r, hr, h1, h2⟩ := usableOf_within _ _ u hu
    exact ⟨r, hr, by simp [PhysRegion.containsRegion, h1, h2]⟩

/-- What a successful `finalize` says about the session before it. -/
theorem Session.Tracks.finalize_ok (h : s.Tracks) {map : MemoryMap}
    (hok : MemoryMap.finalize.run s.map = .ok () map) :
    ¬ s.inserted.Conflict ∧ UsableExact map s.inserted := by
  rcases finalize_run s.map h.ram with ⟨r, -, m, -, -, hrun⟩ | ⟨hnone, usable, husable, hrun⟩
  · rw [hrun] at hok
    cases hok
  · rw [hrun] at hok
    cases hok
    refine ⟨?_, h.usableExact husable⟩
    rw [h.conflict_iff]
    rintro ⟨r, hr, m, hm, hov⟩
    rw [hnone r hr m hm] at hov
    cases hov

/-- After any session, `finalize` either finds the conflict there is and returns the map as it was,
or there is none and the result is exact and a fixed point. -/
theorem finalize_exact (map : MemoryMap) (calls : List Call) :
    ((session map calls).inserted.Conflict ∧
      ∃ ram mmio, finalize.run (session map calls).map =
        .error (.ramMmioConflict ram mmio) (session map calls).map) ∨
    (¬ (session map calls).inserted.Conflict ∧
      ∃ map', finalize.run (session map calls).map = .ok () map' ∧
        UsableExact map' (session map calls).inserted ∧
        finalize.run map' = .ok () map') := by
  have h := session_tracks map calls
  generalize session map calls = s at h
  rcases finalize_run s.map h.ram with ⟨r, hr, m, hm, hov, hrun⟩ | ⟨hnone, usable, husable, hrun⟩
  · exact .inl ⟨h.conflict_iff.mpr ⟨r, hr, m, hm, hov⟩, r, m, hrun⟩
  · obtain ⟨hfree, hexact⟩ := h.finalize_ok hrun
    refine .inr ⟨hfree, { s.map with usableRam := usable }, hrun, hexact, ?_⟩
    -- A second run starts from the same three input lists.
    rcases finalize_run { s.map with usableRam := usable } h.ram with
      ⟨r, hr, m, hm, hov, -⟩ | ⟨-, usable', husable', hrun'⟩
    · rw [hnone r hr m hm] at hov
      cases hov
    · have : usable' = usable := FixedList.ext (husable'.trans husable.symm)
      rw [hrun', this]

end MemoryMap

end Tvisor
