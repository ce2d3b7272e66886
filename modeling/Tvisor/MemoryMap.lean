/-
# Tvisor.MemoryMap -- the physical memory map, built in place

`tvisor_util/memory_map.rs`. RAM, permanent reservations and MMIO windows are inserted one region at
a time into sorted, merged, fixed-capacity lists; `finalize` rejects a RAM region that meets an MMIO
window and then rebuilds `usable_ram` as RAM minus every reservation.

The list surgery of `insert_sorted_merged` works on indices. `insertSortedMerged_run` says once what
it does in terms of `Intervals.place`, and `subtractAll_run` does the same for the cursor sweep and
`Intervals.gaps`; nothing after these two lemmas unfolds the loops.
-/
import Tvisor.SystemInfo

namespace Tvisor

open SystemInfo Fallible Intervals

def maxRamRegions : Nat := 8
def maxMmioRegions : Nat := 64
def maxNormalizedReservedRegions : Nat := 192
def maxUsableRamRegions : Nat := maxRamRegions + maxNormalizedReservedRegions

/-- Why a map is refused. -/
inductive MemoryMapError where
  | capacity (capacity : Nat)
  | invalidRegion (error : RegionError)
  | ramMmioConflict (ram mmio : PhysRegion)
  deriving DecidableEq, Repr

/-- Three sorted lists, and the RAM that is left for use. -/
structure MemoryMap where
  ram : FixedList PhysRegion maxRamRegions
  permanentReserved : FixedList PhysRegion maxNormalizedReservedRegions
  mmio : FixedList PhysRegion maxMmioRegions
  usableRam : FixedList PhysRegion maxUsableRamRegions
  deriving DecidableEq, Repr

namespace MemoryMap

/-! ## Sorted, merged insertion -/

section Insertion

variable {n : Nat}

/-- The smallest region that holds both. -/
def mergeRegions (a b : PhysRegion) : Except MemoryMapError PhysRegion :=
  let start := if a.start < b.start then a.start else b.start
  let stop := if a.endAddr > b.endAddr then a.endAddr else b.endAddr
  (PhysRegion.fromBounds start stop).mapError .invalidRegion

/-- The loop both merging branches end with: as long as the entry at `index` touches the one before
it, merge it into that one and remove it. Each round removes an entry, so the length is fuel
enough. -/
def mergeFollowing : (fuel index : Nat) → EStateM MemoryMapError (FixedList PhysRegion n) Unit
  | 0, _ => pure ()
  | fuel + 1, index => do
      let list ← get
      match list.get (index - 1), list.get index with
      | some previous, some current =>
          if previous.overlaps current || previous.isAdjacent current then do
            let merged ← lift (mergeRegions previous current)
            set ((list.set (index - 1) merged).remove index).2
            mergeFollowing fuel index
          else pure ()
      | _, _ => pure ()

/-- Does the entry at `index` exist and overlap or adjoin `region`? -/
def touchesAt (list : FixedList PhysRegion n) (index : Nat) (region : PhysRegion) : Bool :=
  (list.get index).any fun entry => entry.overlaps region || entry.isAdjacent region

/-- Merge `region` into the entry at `index`, then into whatever follows. -/
def mergeAt (index : Nat) (region : PhysRegion) :
    EStateM MemoryMapError (FixedList PhysRegion n) Unit := do
  let list ← get
  match list.get index with
  | some entry => do
      let merged ← lift (mergeRegions entry region)
      set (list.set index merged)
      mergeFollowing list.len (index + 1)
  | none => pure ()

/-- The opening loop: the number of leading entries that start before the region. -/
def seek (region : PhysRegion) (entries : List PhysRegion) : Nat :=
  entries.findIdx fun entry => !decide (entry.start < region.start)

/-- Keeps the list sorted, and its regions apart. -/
def insertSortedMerged (region : PhysRegion) :
    EStateM MemoryMapError (FixedList PhysRegion n) Unit := do
  let list ← get
  let index := seek region list.entries
  if 0 < index && touchesAt list (index - 1) region then mergeAt (index - 1) region
  else if touchesAt list index region then mergeAt index region
  else match list.insert index region with
    | .ok list' => set list'
    | .error _ => throw (.capacity n)

/-! ### What the insertion loops compute -/

theorem mergeRegions_eq (a b : PhysRegion) : mergeRegions a b = .ok (Span.join a b) := by
  have ha := a.start_lt_endAddr
  have hb := b.start_lt_endAddr
  have hstart : (if a.start < b.start then a.start else b.start) = min a.start b.start := by
    split <;> omega
  have hstop : (if a.endAddr > b.endAddr then a.endAddr else b.endAddr) =
      max a.endAddr b.endAddr := by
    split <;> omega
  have hlt : min a.start b.start < max a.endAddr b.endAddr := by omega
  simp only [mergeRegions, hstart, hstop]
  rw [PhysRegion.fromBounds_of_lt hlt (max_lt a.endAddr_lt b.endAddr_lt)]
  rfl

theorem mergeFollowing_run (fuel : Nat) (pre : List PhysRegion) (m : PhysRegion)
    (rest : List PhysRegion) (list : FixedList PhysRegion n)
    (hlist : list.entries = pre ++ m :: rest) (hfuel : rest.length ≤ fuel) :
    ∃ list', (mergeFollowing fuel (pre.length + 1)).run list = .ok () list' ∧
      list'.entries = pre ++ coalesce m rest := by
  induction rest generalizing fuel m list with
  | nil =>
    refine ⟨list, ?_, by rw [hlist]; rfl⟩
    cases fuel with
    | zero => rfl
    | succ fuel =>
      have hnone : list.get (pre.length + 1) = none := by
        simp [FixedList.get, hlist]
      simp [mergeFollowing, hnone]
  | cons c rest ih =>
    obtain ⟨fuel, rfl⟩ : ∃ k, fuel = k + 1 := ⟨fuel - 1, by simp at hfuel; omega⟩
    have hprev : list.get (pre.length + 1 - 1) = some m := by simp [FixedList.get, hlist]
    have hcur : list.get (pre.length + 1) = some c := by
      simp [FixedList.get, hlist]
    simp only [mergeFollowing, EStateM.run_bind, EStateM.run_get, hprev, hcur,
      PhysRegion.overlaps_or_isAdjacent]
    by_cases ht : Touches m c
    · have hnext : ((list.set (pre.length + 1 - 1) (Span.join m c)).remove
          (pre.length + 1)).2.entries = pre ++ Span.join m c :: rest := by
        rw [FixedList.entries_remove, FixedList.entries_set, hlist]
        simp [List.eraseIdx_append_of_length_le]
      obtain ⟨list', hrun, hentries⟩ := ih fuel (Span.join m c) _ hnext (by simpa using hfuel)
      refine ⟨list', ?_, ?_⟩
      · simp only [if_pos ht, EStateM.run_bind, mergeRegions_eq, run_lift_ok, EStateM.run_set]
        exact hrun
      · rw [hentries, coalesce, if_pos ht]
    · refine ⟨list, ?_, ?_⟩
      · simp only [if_neg ht, EStateM.run_pure]
      · rw [hlist, coalesce, if_neg ht]

theorem mergeAt_run (pre : List PhysRegion) (entry region : PhysRegion) (rest : List PhysRegion)
    (list : FixedList PhysRegion n) (hlist : list.entries = pre ++ entry :: rest) :
    ∃ list', (mergeAt pre.length region).run list = .ok () list' ∧
      list'.entries = pre ++ coalesce (Span.join entry region) rest := by
  have hentry : list.get pre.length = some entry := by simp [FixedList.get, hlist]
  have hset : (list.set pre.length (Span.join entry region)).entries =
      pre ++ Span.join entry region :: rest := by
    rw [FixedList.entries_set, hlist]
    simp
  have hfuel : rest.length ≤ list.len := by
    rw [FixedList.len, hlist]
    simp
    omega
  obtain ⟨list', hrun, hentries⟩ := mergeFollowing_run list.len pre _ rest _ hset hfuel
  refine ⟨list', ?_, hentries⟩
  simp only [mergeAt, EStateM.run_bind, EStateM.run_get, hentry, mergeRegions_eq, run_lift_ok,
    EStateM.run_set]
  exact hrun

theorem insertIdx_length_append (before after : List PhysRegion) (region : PhysRegion) :
    (before ++ after).insertIdx before.length region = before ++ region :: after := by
  induction before with
  | nil => rfl
  | cons b rest ih => simp [List.insertIdx_succ_cons, ih]

theorem touchesAt_iff {list : FixedList PhysRegion n} {index : Nat} {region : PhysRegion} :
    touchesAt list index region = true ↔
      ∃ entry, list.entries[index]? = some entry ∧ Touches entry region := by
  simp [touchesAt, FixedList.get, Option.any_eq_true_iff_get, Option.eq_some_iff_get_eq,
    ← PhysRegion.overlaps_or_isAdjacent]

/-- No entry of the list overlaps or adjoins the region. -/
def Isolated (region : PhysRegion) (entries : List PhysRegion) : Prop :=
  ∀ entry ∈ entries, ¬ Touches entry region

instance (region : PhysRegion) (entries : List PhysRegion) : Decidable (Isolated region entries) :=
  inferInstanceAs (Decidable (∀ entry ∈ entries, ¬ Touches entry region))

/-- Seeking splits a separated list at the region's start. -/
theorem seek_split (region : PhysRegion) {entries : List PhysRegion} (hsep : Separated entries) :
    ∃ before after, entries = before ++ after ∧ before.length = seek region entries ∧
      (∀ a ∈ before, a.start < region.start) ∧ ∀ c ∈ after, region.start ≤ c.start := by
  have hle : seek region entries ≤ entries.length := List.findIdx_le_length
  refine ⟨entries.take (seek region entries), entries.drop (seek region entries),
    (List.take_append_drop _ _).symm, by rw [List.length_take]; omega, ?_, ?_⟩
  · intro a ha
    obtain ⟨i, hi, rfl⟩ := List.mem_iff_getElem.mp ha
    rw [List.length_take] at hi
    have := List.not_of_lt_findIdx (show i < seek region entries by omega)
    simpa using this
  · intro c hc
    cases hdrop : entries.drop (seek region entries) with
    | nil => rw [hdrop] at hc; exact absurd hc List.not_mem_nil
    | cons d rest =>
      have hlt : seek region entries < entries.length := by
        by_contra hge
        rw [List.drop_eq_nil_of_le (not_lt.mp hge)] at hdrop
        cases hdrop
      have hd : entries[seek region entries] = d := by
        rw [List.drop_eq_getElem_cons hlt] at hdrop
        exact (List.cons.inj hdrop).1
      have hstart : region.start ≤ d.start := by
        have := List.findIdx_getElem (w := hlt)
        rw [← hd]
        simp only [Bool.not_eq_true', decide_eq_false_iff_not, not_lt] at this
        exact this
      rw [hdrop] at hc
      rcases List.mem_cons.mp hc with rfl | hc
      · exact hstart
      · have hdropSep : Separated (d :: rest) := hdrop ▸ hsep.drop
        have := (separated_cons.mp hdropSep).1 c hc
        have := d.start_lt_endAddr
        simp only [PhysRegion.hi_eq, PhysRegion.lo_eq] at *
        omega

/-- The whole insertion, once and for all: the list splits into the entries that start before the
region and the others, and the result is `place`, unless the list is full and nothing can be merged,
in which case it is refused unchanged. -/
theorem insertSortedMerged_run (list : FixedList PhysRegion n) (region : PhysRegion)
    (hsep : Separated list.entries) :
    ∃ before after, list.entries = before ++ after ∧ (∀ a ∈ before, a.start < region.start) ∧
      (∀ c ∈ after, region.start ≤ c.start) ∧
      if list.len = n ∧ Isolated region list.entries then
        (insertSortedMerged region).run list = .error (.capacity n) list
      else ∃ list', (insertSortedMerged region).run list = .ok () list' ∧
        list'.entries = place region before after := by
  obtain ⟨before, after, hlist, hlen, hbefore, hafter⟩ := seek_split region hsep
  refine ⟨before, after, hlist, hbefore, hafter, ?_⟩
  have hrun : (insertSortedMerged region).run list =
      if 0 < before.length && touchesAt list (before.length - 1) region then
        (mergeAt (before.length - 1) region).run list
      else if touchesAt list before.length region then (mergeAt before.length region).run list
      else match list.insert before.length region with
        | .ok list' => .ok () list'
        | .error _ => .error (.capacity n) list := by
    rw [hlen]
    simp only [insertSortedMerged, EStateM.run_bind, EStateM.run_get, run_ite]
    cases list.insert (seek region list.entries) region <;> rfl
  have hleftAt : (0 < before.length && touchesAt list (before.length - 1) region) = true ↔
      ∃ p, before.getLast? = some p ∧ Touches p region := by
    rw [Bool.and_eq_true, decide_eq_true_eq, touchesAt_iff, hlist]
    rcases List.eq_nil_or_concat' before with rfl | ⟨init, p, rfl⟩
    · simp
    · simp
  have hrightAt : touchesAt list before.length region = true ↔
      ∃ c, after.head? = some c ∧ Touches c region := by
    rw [touchesAt_iff, hlist]
    cases after <;> simp
  by_cases hleft : ∃ p, before.getLast? = some p ∧ Touches p region
  · -- The region is merged into the last entry that starts before it.
    rw [if_pos (hleftAt.mpr hleft)] at hrun
    obtain ⟨p, hp, ht⟩ := hleft
    obtain ⟨init, rfl⟩ := List.getLast?_eq_some_iff.mp hp
    have hmem : p ∈ list.entries := by rw [hlist]; simp
    obtain ⟨list', hmerge, hentries⟩ :=
      mergeAt_run init p region after list (by rw [hlist, List.append_assoc]; rfl)
    rw [if_neg (fun h => h.2 p hmem ht)]
    refine ⟨list', ?_, hentries.trans (place_concat_of_touches ht).symm⟩
    rw [hrun]
    simpa using hmerge
  rw [if_neg (fun h => hleft (hleftAt.mp h))] at hrun
  have hplace : place region before after = before ++ placeRight region after :=
    place_of_not_touches fun p hp ht => hleft ⟨p, hp, ht⟩
  by_cases hright : ∃ c, after.head? = some c ∧ Touches c region
  · -- It is merged into the first entry that does not.
    rw [if_pos (hrightAt.mpr hright)] at hrun
    obtain ⟨c, hc, ht⟩ := hright
    obtain ⟨rest, rfl⟩ : ∃ rest, after = c :: rest := by
      cases after with
      | nil => cases hc
      | cons d rest => exact ⟨rest, by rw [List.head?_cons] at hc; cases hc; rfl⟩
    have hmem : c ∈ list.entries := by rw [hlist]; simp
    obtain ⟨list', hmerge, hentries⟩ := mergeAt_run before c region rest list hlist
    rw [if_neg (fun h => h.2 c hmem ht)]
    refine ⟨list', hrun.trans hmerge, ?_⟩
    rw [hentries, hplace, placeRight, if_pos ht]
  · -- Nothing to merge with: a plain insertion, which needs a free slot.
    rw [if_neg (fun h => hright (hrightAt.mp h))] at hrun
    have hiso : Isolated region list.entries := by
      rw [hlist] at hsep ⊢
      exact not_touches_of_neighbours hsep hbefore hafter
        (fun p hp ht => hleft ⟨p, hp, ht⟩) (fun c hc ht => hright ⟨c, hc, ht⟩)
    rw [placeRight_of_not_touches fun c hc ht => hright ⟨c, hc, ht⟩] at hplace
    by_cases hfull : list.len = n
    · rw [if_pos ⟨hfull, hiso⟩, hrun, FixedList.insert_of_full _ _ hfull]
    · have hroom : list.len < n := lt_of_le_of_ne list.len_le hfull
      obtain ⟨list', hinsert, hentries⟩ := FixedList.insert_of_lt before.length region
        hroom (by rw [FixedList.len, hlist]; simp)
      rw [if_neg (fun h => hfull h.1)]
      refine ⟨list', by rw [hrun, hinsert], ?_⟩
      rw [hentries, hplace, hlist]
      exact insertIdx_length_append before after region

end Insertion

/-! ## Subtracting the reservations -/

section Subtraction

variable {n : Nat}

/-- `output.push(PhysRegion::from_bounds(start, stop)?)?` with both errors translated. -/
def pushBounds (start stop : Nat) : EStateM MemoryMapError (FixedList PhysRegion n) Unit := do
  let region ← lift ((PhysRegion.fromBounds start stop).mapError .invalidRegion)
  let output ← get
  match output.push region with
  | .ok output' => set output'
  | .error _ => throw (.capacity output.capacity)

/-- The loop of `subtract_all` from one cursor position on. -/
def sweep (ram : PhysRegion) :
    (cursor : Nat) → List PhysRegion → EStateM MemoryMapError (FixedList PhysRegion n) Unit
  | cursor, [] => if cursor < ram.endAddr then pushBounds cursor ram.endAddr else pure ()
  | cursor, reservation :: rest =>
      if reservation.endAddr ≤ cursor ∨ ram.endAddr ≤ reservation.start then sweep ram cursor rest
      else do
        (if cursor < reservation.start then pushBounds cursor reservation.start else pure ())
        (if ram.endAddr ≤ reservation.endAddr then pure () else sweep ram reservation.endAddr rest)

/-- What the reservations leave of a RAM region. -/
def subtractAll (ram : PhysRegion)
    (reserved : FixedList PhysRegion maxNormalizedReservedRegions) :
    EStateM MemoryMapError (FixedList PhysRegion n) Unit :=
  sweep ram ram.start reserved.entries

/-- The piece of a RAM region between two addresses. -/
def piece (ram : PhysRegion) (a b : Nat) (h : a < b) (hb : b ≤ ram.endAddr) : PhysRegion :=
  PhysRegion.ofBounds a b h (lt_of_le_of_lt hb ram.endAddr_lt)

theorem pushBounds_run {output : FixedList PhysRegion n} {a b : Nat} (ram : PhysRegion) (h : a < b)
    (hb : b ≤ ram.endAddr) (hroom : output.len < n) :
    ∃ output', (pushBounds a b).run output = .ok () output' ∧
      output'.entries = output.entries ++ [piece ram a b h hb] := by
  obtain ⟨output', hpush, hentries⟩ := FixedList.push_of_lt (piece ram a b h hb) hroom
  refine ⟨output', ?_, hentries⟩
  have hbounds : PhysRegion.fromBounds a b = .ok (piece ram a b h hb) :=
    PhysRegion.fromBounds_of_lt h _
  have hmap : (Except.ok (piece ram a b h hb) : Except RegionError PhysRegion).mapError
      MemoryMapError.invalidRegion = .ok (piece ram a b h hb) := rfl
  simp only [pushBounds, hbounds, hmap, EStateM.run_bind, run_lift_ok, EStateM.run_get, hpush,
    EStateM.run_set]

/-- With room for all of them, the sweep appends exactly the gaps. -/
theorem sweep_run (ram : PhysRegion) (cursor : Nat) (reserved : List PhysRegion)
    (output : FixedList PhysRegion n)
    (hroom : output.len + (gaps (piece ram) cursor reserved).length ≤ n) :
    ∃ output', (sweep ram cursor reserved).run output = .ok () output' ∧
      output'.entries = output.entries ++ gaps (piece ram) cursor reserved := by
  induction reserved generalizing cursor output with
  | nil =>
    unfold sweep gaps at *
    by_cases h : cursor < ram.endAddr
    · rw [if_pos h]
      rw [dif_pos h, List.length_singleton] at hroom
      rw [dif_pos h]
      exact pushBounds_run ram h le_rfl hroom
    · rw [if_neg h, dif_neg h]
      exact ⟨output, rfl, (List.append_nil _).symm⟩
  | cons r rest ih =>
    unfold sweep
    rw [gaps] at hroom ⊢
    simp only [PhysRegion.hi_eq, PhysRegion.lo_eq] at hroom ⊢
    by_cases hskip : r.endAddr ≤ cursor ∨ ram.endAddr ≤ r.start
    · rw [if_pos hskip]
      rw [dif_pos hskip] at hroom ⊢
      exact ih cursor output hroom
    · rw [if_neg hskip]
      rw [dif_neg hskip] at hroom ⊢
      rw [List.length_append] at hroom
      -- First the piece before the reservation, when there is one.
      obtain ⟨mid, hmid, hmidEntries⟩ : ∃ mid,
          ((if cursor < r.start then pushBounds cursor r.start else pure ()) :
            EStateM MemoryMapError (FixedList PhysRegion n) Unit).run output = .ok () mid ∧
          mid.entries = output.entries ++ if hc : cursor < r.start then
            [piece ram cursor r.start hc (not_le.mp (not_or.mp hskip).2).le] else [] := by
        by_cases hc : cursor < r.start
        · rw [if_pos hc, dif_pos hc]
          rw [dif_pos hc, List.length_singleton] at hroom
          exact pushBounds_run ram hc _ (by omega)
        · rw [if_neg hc, dif_neg hc]
          exact ⟨output, rfl, (List.append_nil _).symm⟩
      rw [EStateM.run_bind, hmid]
      dsimp only
      have hmidLen : mid.len = output.len + (if hc : cursor < r.start then
          [piece ram cursor r.start hc (not_le.mp (not_or.mp hskip).2).le] else []).length := by
        rw [FixedList.len, hmidEntries, List.length_append, FixedList.len]
      -- Then the rest, unless the reservation reaches the end of RAM.
      by_cases hend : ram.endAddr ≤ r.endAddr
      · rw [if_pos hend, if_pos hend, List.append_nil]
        exact ⟨mid, rfl, hmidEntries⟩
      · rw [if_neg hend] at hroom ⊢
        rw [if_neg hend]
        obtain ⟨output', hrun, hentries⟩ := ih r.endAddr mid (by omega)
        exact ⟨output', hrun, by rw [hentries, hmidEntries, List.append_assoc]⟩

end Subtraction

/-! ## The map -/

def empty : MemoryMap := ⟨.empty, .empty, .empty, .empty⟩

def clear (map : MemoryMap) : MemoryMap :=
  ⟨map.ram.clear, map.permanentReserved.clear, map.mmio.clear, map.usableRam.clear⟩

/-- More RAM. -/
def insertRam (region : PhysRegion) : EStateM MemoryMapError MemoryMap Unit :=
  zoom ram (fun map list => { map with ram := list }) (insertSortedMerged region)

/-- Memory that is never given out. -/
def insertReserved (region : PhysRegion) : EStateM MemoryMapError MemoryMap Unit :=
  zoom permanentReserved (fun map list => { map with permanentReserved := list })
    (insertSortedMerged region)

/-- Device registers. -/
def insertMmio (region : PhysRegion) : EStateM MemoryMapError MemoryMap Unit :=
  zoom mmio (fun map list => { map with mmio := list }) (insertSortedMerged region)

/-- The double loop that opens `finalize`. -/
def rejectConflicts (ram mmio : List PhysRegion) : EStateM MemoryMapError MemoryMap Unit :=
  ram.forM fun r => mmio.forM fun m =>
    if r.overlaps m then throw (.ramMmioConflict r m) else pure ()

/-- The usable RAM, if no device lies in RAM. -/
def finalize : EStateM MemoryMapError MemoryMap Unit := do
  let map ← get
  rejectConflicts map.ram.entries map.mmio.entries
  modify fun map => { map with usableRam := map.usableRam.clear }
  map.ram.entries.forM fun ram =>
    zoom usableRam (fun map list => { map with usableRam := list })
      (subtractAll ram map.permanentReserved)

end MemoryMap

end Tvisor
