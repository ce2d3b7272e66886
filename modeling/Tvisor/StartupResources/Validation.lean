/-
# Tvisor.StartupResources.Validation -- what the validated tables say about every byte

`validate_resources` and `validate_stacks` look at one address in 4096 and at the last byte of a
range. That is enough for all bytes, whatever the tables hold: the entries a walk reads depend on
the page of the address only, and the bits of the address below the page are copied into the
result.
-/
import Tvisor.StartupResources

namespace Tvisor.StartupResources

open SystemInfo El2Stage1 Pcpu Fallible Page Words

variable {n : Nat} {t : TableSet n} {writable executable : Bool}

/-! ## The source -/

/-- `size_of::<[PcpuSlot<()>; MAX_CPUS]>()` -/
def pcpuSlotsSize : Nat := CpuTopology.maxCpus * 384

/-- `size_of::<PcpuContext<()>>()` -/
def pcpuContextSize : Nat := 64

/-- `size_of::<HostEl2ConfigStorage>()` -/
def configStorageSize : Nat := 128

/-- One sample of `validate_range`. -/
def validateAddress (tables : TableSet n) (writable executable : Bool) (address : Nat) :
    Except ResourceError Unit :=
  match tables.walk address with
  | .error _ => .error .mapping
  | .ok none => .error .mapping
  | .ok (some m) =>
      if m.pa ≠ address ∨ m.memoryType ≠ .normal ∨ m.writable ≠ writable ∨
          m.executable ≠ executable then .error .mapping
      else .ok ()

def validateRange (tables : TableSet n) (region : PhysRegion) (writable executable : Bool) :
    Except ResourceError Unit :=
  (stepPages region.start region.endAddr ++ [region.endAddr - 1]).forM
    (validateAddress tables writable executable)

/-- `result.map_err(|_| e)?` -/
def orElse {ε α : Type} (e : ResourceError) : Except ε α → Except ResourceError α
  | .error _ => .error e
  | .ok a => .ok a

/-- `stack.guard_start < other.top && other.guard_start < stack.top` -/
def stacksMeet (stack other : StackLayout) : Bool :=
  stack.guardStart < other.top && other.guardStart < stack.top

def validateStacks {c : Nat} (tables : TableSet n) (layouts : FixedList StackLayout c) :
    Except ResourceError Unit := do
  layouts.entries.zipIdx.forM fun (stack, i) =>
    if (stackLayout stack.guardStart).toOption ≠ some stack ∨
        (layouts.entries.take i).any (stacksMeet stack) then throw .layout
    else pure ()
  layouts.entries.forM fun stack => orElse .mapping (validateStack tables stack)

def Resources.sections (r : Resources) : List PhysRegion :=
  [r.code, r.vectors, r.rodata, r.writable, r.tables, r.releasePage]

/-- The loop over the sections: each is made of pages and meets none of the later ones. -/
def validateSections : List PhysRegion → Except ResourceError Unit
  | [] => .ok ()
  | a :: later =>
      if a.start &&& 4095 ≠ 0 ∨ a.size &&& 4095 ≠ 0 then .error .layout
      else if later.any a.overlaps then .error .layout
      else validateSections later

/-- The second check of `validate_resources`, up to the layout of the stack. -/
def Resources.BadLayout (r : Resources) : Prop :=
  r.entry &&& 3 ≠ 0 ∨ r.code.containsAddress r.entry = false ∨ r.vectors.size < 2048 ∨
  r.writable.containsRegion r.slots = false ∨ r.writable.containsRegion r.context = false ∨
  r.slots.start &&& 63 ≠ 0 ∨ r.context.start &&& 63 ≠ 0 ∨ r.slots.size ≠ pcpuSlotsSize ∨
  r.context.size ≠ pcpuContextSize ∨ r.slots.containsRegion r.context = false ∨
  r.writable.containsRegion r.config = false ∨ r.config.start &&& 63 ≠ 0 ∨
  r.config.size ≠ configStorageSize ∨ r.config.overlaps r.slots = true

instance (r : Resources) : Decidable r.BadLayout := by
  unfold Resources.BadLayout
  infer_instance

/-- The check of the root. -/
def Resources.BadRoot (r : Resources) (tables : TableSet n) : Prop :=
  r.root ≠ tables.basePa ∨ r.tables.containsAddress r.root = false ∨ r.tables.start ≠ r.root ∨
    r.tables.size < wrappingMul n pageSize

instance (r : Resources) (tables : TableSet n) : Decidable (r.BadRoot tables) := by
  unfold Resources.BadRoot
  infer_instance

/-- The ranges that are walked, with the permissions they must have: writable, executable. -/
def Resources.ranges (r : Resources) : List (PhysRegion × Bool × Bool) :=
  [(r.code, false, true), (r.vectors, false, true), (r.rodata, false, false),
    (r.writable, true, false), (r.tables, true, false), (r.slots, true, false),
    (r.config, true, false), (r.context, true, false), (r.releasePage, true, false)]

def validateResources (tables : TableSet n) (r : Resources) : Except ResourceError Unit := do
  validateSections r.sections
  (if r.BadLayout then throw .layout else pure ())
  (if (← orElse .layout (stackLayout r.stack.guardStart)) ≠ r.stack then throw .layout else pure ())
  let allocation ← orElse .layout (PhysRegion.fromBounds r.stack.guardStart r.stack.top)
  (if r.sections.any (·.overlaps allocation) then throw .layout else pure ())
  (if r.BadRoot tables then throw .root else pure ())
  r.ranges.forM fun (region, writable, executable) =>
    validateRange tables region writable executable
  orElse .mapping (validateStack tables r.stack)

/-! ## One address of a page is enough -/

/-- The same translation, seen from another address of the page. -/
def moveWithin (va va' : Nat) (tr : Translation) : Translation :=
  { tr with pa := tr.pa - va % 4096 + va' % 4096 }

theorem indexFor_samePage {va va' : Nat} (h : va' / 4096 = va / 4096) (level : Nat) :
    indexFor level va' = indexFor level va := by
  apply Fin.ext
  rw [indexFor_val, indexFor_val]
  have hshift : shiftOf level = 30 ∨ shiftOf level = 21 ∨ shiftOf level = 12 := by
    unfold shiftOf
    split <;> simp [l1Shift, l2Shift, l3Shift]
  rcases hshift with hs | hs | hs
  · rw [hs]
    omega
  · rw [hs]
    omega
  · rw [hs]
    omega

/-- The address bits of a leaf and the low bits of the address do not overlap. -/
theorem leaf_pa_samePage {va va' level : Nat} (h : va' / 4096 = va / 4096) (hl : IsLevel level)
    (w : Nat) :
    (w &&& outputMask level) ||| (va' &&& (levelSize level - 1)) =
      ((w &&& outputMask level) ||| (va &&& (levelSize level - 1))) - va % 4096 + va' % 4096 := by
  have hbase : (w &&& outputMask level) % 2 ^ shiftOf level = 0 := by
    rw [land_outputMask hl, levelSize_eq]
    exact Nat.mul_mod_left _ _
  have hjoin : ∀ x, (w &&& outputMask level) ||| (x &&& (levelSize level - 1)) =
      (w &&& outputMask level) + x % 2 ^ shiftOf level := by
    intro x
    rw [levelSize_eq, Nat.and_two_pow_sub_one_eq_mod,
      lor_eq_add _ hbase (Nat.mod_lt _ (Nat.two_pow_pos _))]
  rw [hjoin, hjoin]
  generalize w &&& outputMask level = base
  have hlow : va' % 2 ^ shiftOf level = va % 2 ^ shiftOf level - va % 4096 + va' % 4096 ∧
      va % 4096 ≤ va % 2 ^ shiftOf level := by
    rcases hl with rfl | rfl | rfl
    · show va' % 2 ^ 30 = va % 2 ^ 30 - va % 4096 + va' % 4096 ∧ va % 4096 ≤ va % 2 ^ 30
      omega
    · show va' % 2 ^ 21 = va % 2 ^ 21 - va % 4096 + va' % 4096 ∧ va % 4096 ≤ va % 2 ^ 21
      omega
    · show va' % 2 ^ 12 = va % 2 ^ 12 - va % 4096 + va' % 4096 ∧ va % 4096 ≤ va % 2 ^ 12
      omega
  omega

theorem walkFrom_samePage (t : TableSet n) {va va' : Nat} (h : va' / 4096 = va / 4096) :
    ∀ (levels : List Nat) (table : Nat), (∀ level ∈ levels, IsLevel level) →
      t.walkFrom va' levels table =
        (t.walkFrom va levels table).map (Option.map (moveWithin va va')) := by
  intro levels
  induction levels with
  | nil =>
    intro table _
    rfl
  | cons level rest ih =>
    intro table hlevels
    obtain ⟨hl, hrest⟩ := List.forall_mem_cons.mp hlevels
    rw [TableSet.walkFrom, TableSet.walkFrom, indexFor_samePage h]
    generalize t.storage table (indexFor level va) = w
    split
    · rfl
    split
    · cases t.tableIndex (w &&& addressMask) with
      | error e => rfl
      | ok child => exact ih child hrest
    split
    · rfl
    cases TableSet.memoryTypeOf ((w >>> attrIndexShift) &&& 0b111) with
    | error e => rfl
    | ok memoryType =>
      rw [leaf_pa_samePage h hl]
      rfl

/-- Whatever the tables hold, a walk is the same all over a page. -/
theorem walk_samePage (t : TableSet n) {va va' : Nat} (h : va' / 4096 = va / 4096) :
    t.walk va' = (t.walk va).map (Option.map (moveWithin va va')) := by
  have hrange : va' ≥ 1 <<< vaBits ↔ va ≥ 1 <<< vaBits := by
    show 2 ^ 39 ≤ va' ↔ 2 ^ 39 ≤ va
    omega
  unfold TableSet.walk
  by_cases hva : va ≥ 1 <<< vaBits
  · rw [if_pos hva, if_pos (hrange.mpr hva)]
    rfl
  · rw [if_neg hva, if_neg (fun hva' => hva (hrange.mp hva'))]
    apply walkFrom_samePage t h
    unfold IsLevel
    simp

/-! ## Ranges -/

/-- The address translates to itself, with these permissions. -/
def MapsToSelf (t : TableSet n) (writable executable : Bool) (address : Nat) : Prop :=
  ∃ m, t.walk address = .ok (some m) ∧ m.pa = address ∧ m.memoryType = .normal ∧
    m.writable = writable ∧ m.executable = executable

theorem MapsToSelf.samePage {va va' : Nat} (h : MapsToSelf t writable executable va)
    (hpage : va' / 4096 = va / 4096) :
    MapsToSelf t writable executable va' := by
  obtain ⟨m, hwalk, hpa, hrest⟩ := h
  refine ⟨moveWithin va va' m, ?_, ?_, hrest⟩
  · rw [walk_samePage t hpage, hwalk]
    rfl
  · show m.pa - va % 4096 + va' % 4096 = va'
    rw [hpa]
    omega

/-- Every byte of the range does. -/
def RangeMapsToSelf (t : TableSet n) (start stop : Nat) (writable executable : Bool) : Prop :=
  ∀ address, start ≤ address → address < stop → MapsToSelf t writable executable address

theorem rangeMapsToSelf_of_samples {start stop : Nat}
    (h : ∀ b ∈ stepPages start stop ++ [stop - 1], MapsToSelf t writable executable b) :
    RangeMapsToSelf t start stop writable executable := by
  intro address hlo hhi
  obtain ⟨b, hb, hpage⟩ := exists_samePage hlo hhi
  exact (h b hb).samePage hpage.symm

theorem validateAddress_eq_ok {address : Nat} :
    validateAddress t writable executable address = .ok () ↔
      MapsToSelf t writable executable address := by
  unfold validateAddress MapsToSelf
  rcases t.walk address with e | _ | m
  · simp
  · simp
  · simp [not_or]

theorem validateRange_ok {region : PhysRegion}
    (h : validateRange t region writable executable = .ok ()) :
    RangeMapsToSelf t region.start region.endAddr writable executable := by
  apply rangeMapsToSelf_of_samples
  intro b hb
  exact validateAddress_eq_ok.mp (forM_eq_ok.mp h b hb)

/-! ## Stacks -/

/-- No byte of the range translates. -/
def Unmapped (t : TableSet n) (start stop : Nat) : Prop :=
  ∀ address, start ≤ address → address < stop → t.walk address = .ok none

/-- What is known of a stack that passed: its guard is unmapped and the stack maps to itself. -/
structure ValidStack (t : TableSet n) (stack : StackLayout) : Prop where
  guard : Unmapped t stack.guardStart stack.bottom
  mapped : RangeMapsToSelf t stack.bottom stack.top true false

theorem validateStack_ok {stack : StackLayout} (hguard : stack.guardStart % 4096 = 0)
    (hbottom : stack.bottom = stack.guardStart + 4096) (h : validateStack t stack = .ok ()) :
    ValidStack t stack := by
  obtain ⟨⟨⟩, hfree, hmapped⟩ := bind_eq_ok.mp h
  constructor
  case guard =>
    intro address hlo hhi
    -- The guard is one page, and the sample in it is its first byte.
    have hsample : stack.guardStart ∈ stepPages stack.guardStart stack.bottom :=
      mem_stepPages.mpr ⟨0, by omega, by omega⟩
    obtain ⟨found, hwalk, hnone⟩ := bind_eq_ok.mp (forM_eq_ok.mp hfree _ hsample)
    have hnone := ite_throw_eq_ok.mp hnone
    rw [walk_samePage t (show address / 4096 = stack.guardStart / 4096 by omega), hwalk]
    rcases found with _ | m
    · rfl
    · exact absurd rfl hnone
  case mapped =>
    apply rangeMapsToSelf_of_samples
    intro b hb
    obtain ⟨found, hwalk, hcheck⟩ := bind_eq_ok.mp (forM_eq_ok.mp hmapped b hb)
    rcases found with _ | m
    · cases hcheck
    · have hcheck := ite_throw_eq_ok.mp hcheck
      simp only [not_or, ne_eq, not_not, Bool.not_eq_false, Bool.not_eq_true] at hcheck
      obtain ⟨hpa, hwrite, hexec, htype⟩ := hcheck
      exact ⟨m, hwalk, hpa, htype, hwrite, hexec⟩

/-! ## Disjointness -/

variable {regions : List PhysRegion}

/-- Two ranges, from a first byte to the byte after the last, have no byte in common. -/
def ShareNoByte (a b : Nat × Nat) : Prop :=
  ∀ x, ¬ (a.1 ≤ x ∧ x < a.2 ∧ b.1 ≤ x ∧ x < b.2)

/-- A stack with its guard. -/
def wholeStack (stack : StackLayout) : Nat × Nat := (stack.guardStart, stack.top)

def wholeRegion (region : PhysRegion) : Nat × Nat := (region.start, region.endAddr)

theorem fromBounds_whole {start stop : Nat} {region : PhysRegion}
    (h : PhysRegion.fromBounds start stop = .ok region) : wholeRegion region = (start, stop) := by
  unfold PhysRegion.fromBounds at h
  split at h
  · cases h
  rename_i hle
  split at h
  · cases h
  obtain ⟨hstart, hsize⟩ := PhysRegion.new_eq_ok h
  show (region.start, region.start + region.size) = (start, stop)
  rw [hstart, hsize, Nat.add_sub_cancel' (not_lt.mp hle)]

theorem shareNoByte_of_not_overlaps {a b : PhysRegion} (h : ¬ a.overlaps b = true) :
    ShareNoByte (wholeRegion a) (wholeRegion b) := by
  rintro x ⟨hlo, hhi, hlo', hhi'⟩
  exact h (PhysRegion.overlaps_iff.mpr ⟨x, ⟨hlo, hhi⟩, hlo', hhi'⟩)

theorem shareNoByte_of_not_meet {stack other : StackLayout} (h : ¬ stacksMeet stack other = true) :
    ShareNoByte (wholeStack stack) (wholeStack other) := by
  rintro x ⟨hlo, hhi, hlo', hhi'⟩
  apply h
  unfold stacksMeet
  unfold wholeStack at hlo hhi hlo' hhi'
  simp only [Bool.and_eq_true, decide_eq_true_eq]
  omega

theorem validateSections_ok (h : validateSections regions = .ok ()) :
    (regions.map wholeRegion).Pairwise ShareNoByte := by
  induction regions with
  | nil => exact List.Pairwise.nil
  | cons a later ih =>
    rw [validateSections] at h
    split at h
    · cases h
    split at h
    · cases h
    rename_i hnone
    rw [List.map_cons, List.pairwise_cons]
    refine ⟨?_, ih h⟩
    intro range hrange
    obtain ⟨b, hb, rfl⟩ := List.mem_map.mp hrange
    exact shareNoByte_of_not_overlaps fun hmeet => hnone (List.any_eq_true.mpr ⟨b, hb, hmeet⟩)

theorem validateSections_aligned (h : validateSections regions = .ok ()) :
    ∀ region ∈ regions, region.start % 4096 = 0 ∧ region.endAddr % 4096 = 0 := by
  induction regions with
  | nil => nofun
  | cons a later ih =>
    rw [validateSections] at h
    split at h
    · cases h
    rename_i haligned
    split at h
    · cases h
    rw [not_or, not_not, not_not] at haligned
    have hmod : ∀ x, x &&& 4095 = x % 2 ^ 12 := fun x => Nat.and_two_pow_sub_one_eq_mod x 12
    rw [hmod, hmod] at haligned
    refine List.forall_mem_cons.mpr ⟨⟨by omega, ?_⟩, ih h⟩
    unfold PhysRegion.endAddr
    omega

/-- A list in which no entry is related to an earlier one. -/
theorem pairwise_of_zipIdx {α : Type} {R : α → α → Prop} {items : List α}
    (h : ∀ p ∈ items.zipIdx, ∀ b ∈ items.take p.2, R p.1 b) : items.Pairwise fun a b => R b a := by
  rw [List.pairwise_iff_getElem]
  intro i j hi hj hij
  refine h (items[j], j) ?_ items[i] ?_
  · exact List.mem_zipIdx_iff_getElem?.mpr (List.getElem?_eq_getElem hj)
  · apply List.mem_iff_getElem.mpr
    refine ⟨i, ?_, List.getElem_take⟩
    rw [List.length_take]
    omega

theorem validateStacks_ok {c : Nat} {layouts : FixedList StackLayout c}
    (h : validateStacks t layouts = .ok ()) :
    (∀ stack ∈ layouts.entries, ValidStack t stack) ∧
      (layouts.entries.map wholeStack).Pairwise ShareNoByte := by
  obtain ⟨⟨⟩, hlayouts, hstacks⟩ := bind_eq_ok.mp h
  have hpassed := fun p hp => not_or.mp (ite_throw_eq_ok.mp (forM_eq_ok.mp hlayouts p hp))
  constructor
  · intro stack hstack
    obtain ⟨i, hi⟩ := List.mem_iff_getElem?.mp hstack
    have hlayout := not_not.mp (hpassed (stack, i) (List.mem_zipIdx_iff_getElem?.mpr hi)).1
    have hok : stackLayout stack.guardStart = .ok stack := by
      rcases hrun : stackLayout stack.guardStart with e | s
      · rw [hrun] at hlayout
        cases hlayout
      · rw [hrun] at hlayout
        cases hlayout
        rfl
    obtain ⟨haligned, -, hstackEq⟩ := stackLayout_eq_ok hok
    apply validateStack_ok haligned (congrArg StackLayout.bottom hstackEq)
    have hvalid := forM_eq_ok.mp hstacks stack hstack
    rcases hrun : validateStack t stack with e | ⟨⟩
    · rw [hrun] at hvalid
      cases hvalid
    · rfl
  · rw [List.pairwise_map]
    apply pairwise_of_zipIdx (R := fun a b => ShareNoByte (wholeStack b) (wholeStack a))
    intro p hp other hother
    have hnone : ¬ stacksMeet p.1 other = true := fun hmeet =>
      (hpassed p hp).2 (List.any_eq_true.mpr ⟨other, hother, hmeet⟩)
    rintro x ⟨hlo, hhi, hlo', hhi'⟩
    exact shareNoByte_of_not_meet hnone x ⟨hlo', hhi', hlo, hhi⟩

/-! ## The resources -/

variable {r : Resources}

theorem orElse_eq_ok {ε α : Type} {e : ResourceError} {x : Except ε α} {a : α} :
    orElse e x = .ok a ↔ x = .ok a := by
  cases x with
  | ok b =>
    show (Except.ok b : Except ResourceError α) = .ok a ↔ _
    rw [Except.ok.injEq, Except.ok.injEq]
  | error e' =>
    constructor
    · intro h
      cases h
    · intro h
      cases h

/-- What the two validators establish, byte by byte. -/
structure EveryByte (t : TableSet n) (r : Resources) (layouts : List StackLayout) : Prop where
  code : ∀ region ∈ [r.code, r.vectors], RangeMapsToSelf t region.start region.endAddr false true
  rodata : RangeMapsToSelf t r.rodata.start r.rodata.endAddr false false
  data : ∀ region ∈ [r.writable, r.tables, r.slots, r.config, r.context, r.releasePage],
    RangeMapsToSelf t region.start region.endAddr true false
  validStacks : ∀ stack ∈ r.stack :: layouts, ValidStack t stack
  sections : (r.sections.map wholeRegion ++ [wholeStack r.stack]).Pairwise ShareNoByte
  layouts : (layouts.map wholeStack).Pairwise ShareNoByte
  root : r.root = t.basePa
  arena : ∀ x, t.basePa ≤ x → x < t.basePa + 4096 * n →
    r.tables.start ≤ x ∧ x < r.tables.endAddr

/-- The arena of a constructed table set fits the address space. -/
theorem arena_size {storage : Arena} {basePa paBits : Nat}
    (hnew : TableSet.new storage basePa paBits = .ok t) : wrappingMul n pageSize = 4096 * n := by
  obtain ⟨-, -, -, -, hend⟩ := TableSet.new_ok hnew
  have hbound : wordBound = 2 ^ 64 := rfl
  show n * 4096 % wordBound = 4096 * n
  rw [Nat.mod_eq_of_lt (by omega), Nat.mul_comm]

/-- The checks that accepted resources have passed. -/
structure Accepted (t : TableSet n) (r : Resources) : Prop where
  sections : validateSections r.sections = .ok ()
  layout : ¬ r.BadLayout
  stack : stackLayout r.stack.guardStart = .ok r.stack
  apart : ∃ allocation, PhysRegion.fromBounds r.stack.guardStart r.stack.top = .ok allocation ∧
    ¬ r.sections.any (·.overlaps allocation) = true
  root : ¬ r.BadRoot t
  ranges : ∀ entry ∈ r.ranges, validateRange t entry.1 entry.2.1 entry.2.2 = .ok ()
  mapped : validateStack t r.stack = .ok ()

theorem validateResources_accepted (h : validateResources t r = .ok ()) :
    Accepted t r := by
  obtain ⟨⟨⟩, hsections, h⟩ := bind_eq_ok.mp h
  obtain ⟨⟨⟩, hlayout, h⟩ := bind_eq_ok.mp h
  obtain ⟨stack, hstack, h⟩ := bind_eq_ok.mp h
  obtain ⟨⟨⟩, hsame, h⟩ := bind_eq_ok.mp h
  obtain ⟨allocation, hallocation, h⟩ := bind_eq_ok.mp h
  obtain ⟨⟨⟩, hapart, h⟩ := bind_eq_ok.mp h
  obtain ⟨⟨⟩, hroot, h⟩ := bind_eq_ok.mp h
  obtain ⟨⟨⟩, hranges, hmapped⟩ := bind_eq_ok.mp h
  have hsame := not_not.mp (ite_throw_eq_ok.mp hsame)
  subst hsame
  exact ⟨hsections, ite_throw_eq_ok.mp hlayout, orElse_eq_ok.mp hstack,
    ⟨allocation, orElse_eq_ok.mp hallocation, ite_throw_eq_ok.mp hapart⟩,
    ite_throw_eq_ok.mp hroot, fun entry hentry => forM_eq_ok.mp hranges entry hentry,
    orElse_eq_ok.mp hmapped⟩

/-- The sections and the stack of accepted resources, with its guard, have no byte in common. -/
theorem Accepted.pairwise (h : Accepted t r) :
    (r.sections.map wholeRegion ++ [wholeStack r.stack]).Pairwise ShareNoByte := by
  obtain ⟨allocation, hallocation, hapart⟩ := h.apart
  rw [List.pairwise_append]
  refine ⟨validateSections_ok h.sections, List.pairwise_singleton _ _, ?_⟩
  intro range hrange other hother
  obtain ⟨region, hregion, rfl⟩ := List.mem_map.mp hrange
  rw [List.mem_singleton.mp hother]
  have hnone : ¬ region.overlaps allocation = true := fun hmeet =>
    hapart (List.any_eq_true.mpr ⟨region, hregion, hmeet⟩)
  have hwhole : wholeRegion allocation = wholeStack r.stack := fromBounds_whole hallocation
  rw [← hwhole]
  exact shareNoByte_of_not_overlaps hnone

theorem Accepted.validStack (h : Accepted t r) :
    ValidStack t r.stack := by
  obtain ⟨haligned, -, hstackEq⟩ := stackLayout_eq_ok h.stack
  exact validateStack_ok haligned (congrArg StackLayout.bottom hstackEq) h.mapped

theorem Accepted.mapsToSelf (h : Accepted t r) :
    ∀ entry ∈ r.ranges, RangeMapsToSelf t entry.1.start entry.1.endAddr entry.2.1 entry.2.2 :=
  fun entry hentry => validateRange_ok (h.ranges entry hentry)

/-- Startup validation is sound for every byte. The tables may hold anything; of their construction
only the size of the arena matters. -/
theorem validation_sound {storage : Arena} {basePa paBits : Nat} {t₀ : TableSet n}
    (hnew : TableSet.new storage basePa paBits = .ok t₀) {t : TableSet n} {r : Resources} {c : Nat}
    {layouts : FixedList StackLayout c}
    (hresources : validateResources t r = .ok ()) (hlayouts : validateStacks t layouts = .ok ()) :
    EveryByte t r layouts.entries := by
  have haccepted := validateResources_accepted hresources
  have hranges := haccepted.mapsToSelf
  have hroot := haccepted.root
  obtain ⟨hstacks, hapart⟩ := validateStacks_ok hlayouts
  unfold Resources.BadRoot at hroot
  simp only [not_or, not_not, ne_eq, not_lt, arena_size hnew] at hroot
  obtain ⟨hactive, -, hstart, hsize⟩ := hroot
  constructor
  case code =>
    intro region hregion
    simp only [List.mem_cons, List.not_mem_nil, or_false] at hregion
    rcases hregion with rfl | rfl
    · exact hranges (r.code, false, true) (by simp [Resources.ranges])
    · exact hranges (r.vectors, false, true) (by simp [Resources.ranges])
  case rodata => exact hranges (r.rodata, false, false) (by simp [Resources.ranges])
  case data =>
    intro region hregion
    apply hranges (region, true, false)
    simp only [List.mem_cons, List.not_mem_nil, or_false] at hregion
    rcases hregion with rfl | rfl | rfl | rfl | rfl | rfl <;> simp [Resources.ranges]
  case validStacks => exact List.forall_mem_cons.mpr ⟨haccepted.validStack, hstacks⟩
  case sections => exact haccepted.pairwise
  case layouts => exact hapart
  case root => exact hactive
  case arena =>
    intro x hlo hhi
    unfold PhysRegion.endAddr
    omega

/-- A 2 MiB block onto itself. -/
def block (index : Nat) (writable executable : Bool) : Nat :=
  leafDescriptor 2 (index * l2Size) ⟨0, 0, 0, .normal, writable, executable⟩

/-- Two table pages at 0xa00000, in which whole blocks are mapped. -/
def blockTables : TableSet 2 where
  storage := fun page index =>
    if page = 0 then if index = 0 then 0xa01003 else 0
    else if index = 1 ∨ index = 2 then block index false true
    else if index = 3 then block 3 false false
    else if index = 4 ∨ index = 5 ∨ index = 6 ∨ index = 8 then block index true false
    else 0
  used := 2
  basePa := 0xa00000
  paBits := 44

/-- One page of each block. The guard of the stack is the last page of a block that is not there. -/
def blockResources : Resources where
  code := .ofBounds 0x200000 0x201000 (by decide) (by decide)
  vectors := .ofBounds 0x400000 0x401000 (by decide) (by decide)
  rodata := .ofBounds 0x600000 0x601000 (by decide) (by decide)
  writable := .ofBounds 0x800000 0x801000 (by decide) (by decide)
  tables := .ofBounds 0xa00000 0xa02000 (by decide) (by decide)
  slots := .ofBounds 0x800000 0x800600 (by decide) (by decide)
  config := .ofBounds 0x800600 0x800680 (by decide) (by decide)
  context := .ofBounds 0x800040 0x800080 (by decide) (by decide)
  releasePage := .ofBounds 0xc00000 0xc01000 (by decide) (by decide)
  stack := ⟨0xfff000, 0x1000000, 0x1010000⟩
  entry := 0x200000
  root := 0xa00000

theorem validation_sound_blockTables :
    validateResources blockTables blockResources = .ok () ∧
      validateStacks blockTables (⟨[blockResources.stack], le_rfl⟩ : FixedList StackLayout 1) =
        .ok () ∧
      EveryByte blockTables blockResources [blockResources.stack] := by
  have hnew : TableSet.new (fun _ _ => 0) 0xa00000 44 =
      .ok (TableSet.withPage (n := 2) ⟨fun _ _ => 0, 0, 0xa00000, 44⟩) := rfl
  have hresources : validateResources blockTables blockResources = .ok () := by decide +kernel
  have hlayouts : validateStacks blockTables
      (⟨[blockResources.stack], le_rfl⟩ : FixedList StackLayout 1) = .ok () := by decide +kernel
  exact ⟨hresources, hlayouts, validation_sound hnew hresources hlayouts⟩

end Tvisor.StartupResources
