/-
# Tvisor.El2Stage1 -- the EL2 stage-1 translation tables

`tvisor_util/el2_stage1_translation.rs`. A 39-bit virtual address selects one of 512 entries at each
of three levels; levels 1 and 2 may end a walk with a 1 GiB or a 2 MiB block, level 3 ends it with a
4 KiB page. The tables live in an arena of `n` pages and link each other by physical address.

A table page is a function from its 512 indices to words, and the arena a function from page numbers
to table pages; the source's bounds are the invariant `used ≤ n` and the fact that every page number
it forms is below `used`, both proved in the next module. Levels are 1, 2 and 3: the source's
`unreachable!()` arms are folded into level 3.

`replace_data_page` hands the stored entry to a callback after each store. The callback may look at
the tables, so the model returns, next to the result, the tables as each callback saw them; what the
callbacks answer is a parameter.
-/
import Tvisor.Lib.Fallible
import Tvisor.Lib.Radix
import Tvisor.Page

namespace Tvisor.El2Stage1

open Fallible Page Words

/-- `VA_BITS`: three levels of nine bits above the page offset. -/
def vaBits : Nat := 39

/-- Where the index of each level begins. -/
def l1Shift : Nat := 30
def l2Shift : Nat := 21
def l3Shift : Nat := 12
/-- The bytes below one entry of level 1. -/
def l1Size : Nat := 1 <<< l1Shift
def l2Size : Nat := 1 <<< l2Shift
/-- The output address of a descriptor. -/
def addressMask : Nat := 0x0000_ffff_ffff_f000

/-- The entry is in use. -/
def valid : Nat := 1 <<< 0
/-- At levels 1 and 2 a table, at level 3 a page. -/
def tableOrPage : Nat := 1 <<< 1
def attrIndexShift : Nat := 2
/-- Writes are denied. -/
def apReadOnly : Nat := 1 <<< 7
def shInner : Nat := 0b11 <<< 8
/-- Without it the first access would fault. -/
def accessFlag : Nat := 1 <<< 10
/-- Execution is denied. -/
def xn : Nat := 1 <<< 54

/-- Places in `MAIR_EL2`. -/
def mairIndexNormalWbWa : Nat := 0
def mairIndexDeviceNgnre : Nat := 1

/-- Normal write-back memory or a device. -/
inductive MemoryType where
  | normal
  | device
  deriving DecidableEq, Repr

/-- Its place in `MAIR_EL2`. -/
def MemoryType.attrIndex : MemoryType → Nat
  | .normal => mairIndexNormalWbWa
  | .device => mairIndexDeviceNgnre

/-- A request: an aligned range and how it may be used. -/
structure Mapping where
  va : Nat
  pa : Nat
  size : Nat
  memoryType : MemoryType
  writable : Bool
  executable : Bool
  deriving DecidableEq, Repr

/-- Why a request or a walk fails. -/
inductive TranslationError where
  | invalidTableBase
  | invalidPaBits
  | emptyMapping
  | unalignedMapping
  | addressOverflow
  | virtualAddressOutOfRange
  | physicalAddressOutOfRange
  | tableExhausted
  | conflictingEntry
  | corruptTable
  | invalidateParameter
  | unexpected
  deriving DecidableEq, Repr

/-- The end of a walk, at the level of its leaf. -/
structure Translation where
  pa : Nat
  memoryType : MemoryType
  writable : Bool
  executable : Bool
  level : Nat
  deriving DecidableEq, Repr

/-- `storage.pages[page].entries[index]` -/
abbrev Arena := Nat → Fin 512 → Nat

/-- The first `used` pages are tables, the first of them the root. -/
structure TableSet (n : Nat) where
  storage : Arena
  used : Nat
  basePa : Nat
  paBits : Nat

/-! ## Descriptors -/

def shiftOf : Nat → Nat
  | 1 => l1Shift
  | 2 => l2Shift
  | _ => l3Shift

/-- The entry of a table that an address selects. -/
def indexFor (level va : Nat) : Fin 512 :=
  ⟨(va >>> shiftOf level) &&& 0x1ff, Nat.lt_of_le_of_lt Nat.and_le_right (by decide)⟩

/-- The bytes that one leaf of a level maps. -/
def levelSize : Nat → Nat
  | 1 => l1Size
  | 2 => l2Size
  | _ => pageSize

/-- The address bits of a leaf at a level. -/
def outputMask (level : Nat) : Nat := addressMask &&& bitNot (levelSize level - 1)

/-- Both addresses are multiples of the size, a power of two. -/
def alignedFor (va pa size : Nat) : Bool := ((va ||| pa) &&& (size - 1)) == 0

/-- A block at levels 1 and 2, a page at level 3. -/
def leafDescriptor (level pa : Nat) (mapping : Mapping) : Nat :=
  let descriptor := (pa &&& outputMask level) ||| valid ||| accessFlag |||
    (mapping.memoryType.attrIndex <<< attrIndexShift)
  let descriptor := if level = 3 then descriptor ||| tableOrPage else descriptor
  let descriptor := if mapping.memoryType = .normal then descriptor ||| shInner else descriptor
  let descriptor := if !mapping.writable then descriptor ||| apReadOnly else descriptor
  if !mapping.executable then descriptor ||| xn else descriptor

/-! ## The table set -/

namespace TableSet

variable {n : Nat}

/-- The physical address of a table page. -/
def tablePa (t : TableSet n) (index : Nat) : Nat := t.basePa + index * pageSize

/-- The table page at an address, if it is one in use. -/
def tableIndex (t : TableSet n) (pa : Nat) : Except TranslationError Nat :=
  match checkedSub pa t.basePa with
  | none => .error .corruptTable
  | some offset =>
      if !isPageAligned offset then .error .corruptTable
      else if offset / pageSize ≥ t.used then .error .corruptTable
      else .ok (offset / pageSize)

/-- `self.storage.pages[table].entries[index] = word` -/
def setEntry (t : TableSet n) (table : Nat) (index : Fin 512) (word : Nat) : TableSet n :=
  { t with storage := Radix.set t.storage table index word }

/-- The first unused page, cleared. -/
def allocatePage : EStateM TranslationError (TableSet n) Nat := do
  let t ← get
  if t.used = n then throw .tableExhausted
  else do
    set ({ t with
      storage := fun page => if page = t.used then fun _ => 0 else t.storage page
      used := t.used + 1 } : TableSet n)
    pure t.used

/-- Tables with an empty root, in storage that lies below the physical limit. -/
def new (storage : Arena) (basePa paBits : Nat) : Except TranslationError (TableSet n) :=
  if ¬ (32 ≤ paBits ∧ paBits ≤ 48) then .error .invalidPaBits
  else if !isPageAligned basePa then .error .invalidTableBase
  else if basePa ≥ 1 <<< paBits then .error .invalidTableBase
  else if n = 0 then .error .tableExhausted
  else match checkedMul n pageSize with
    | none => .error .addressOverflow
    | some byteLen =>
        match checkedAdd basePa byteLen with
        | none => .error .addressOverflow
        | some stop =>
            if stop > 1 <<< paBits then .error .physicalAddressOutOfRange
            else match allocatePage.run ⟨storage, 0, basePa, paBits⟩ with
              | .ok _ t => .ok t
              | .error e _ => .error e

def usedPages (t : TableSet n) : Nat := t.used

/-- Whole pages inside both address spaces. -/
def validateMapping (t : TableSet n) (mapping : Mapping) : Except TranslationError Unit :=
  if mapping.size = 0 then .error .emptyMapping
  else if !isPageAligned (mapping.va ||| mapping.pa ||| mapping.size) then .error .unalignedMapping
  else match checkedAdd mapping.va mapping.size, checkedAdd mapping.pa mapping.size with
    | none, _ => .error .addressOverflow
    | _, none => .error .addressOverflow
    | some vaEnd, some paEnd =>
        if vaEnd > 1 <<< vaBits then .error .virtualAddressOutOfRange
        else if paEnd > 1 <<< t.paBits then .error .physicalAddressOutOfRange
        else .ok ()

/-- One iteration of the descent in `map_leaf`: the child table, allocated if there is none. -/
def descend (va currentLevel table : Nat) : EStateM TranslationError (TableSet n) Nat := do
  let t ← get
  let index := indexFor currentLevel va
  let descriptor := t.storage table index
  if descriptor = 0 then do
    let child ← allocatePage
    modify fun t => t.setEntry table index (t.tablePa child ||| valid ||| tableOrPage)
    pure child
  else if descriptor &&& (valid ||| tableOrPage) = (valid ||| tableOrPage) then
    lift (t.tableIndex (descriptor &&& addressMask))
  else throw .conflictingEntry

/-- Writes one leaf, and the tables above it where they are missing. -/
def mapLeaf (level va pa : Nat) (mapping : Mapping) : EStateM TranslationError (TableSet n) Unit :=
  do
  let table ← (List.range' 1 (level - 1)).foldlM (fun table current => descend va current table) 0
  let t ← get
  let index := indexFor level va
  let descriptor := leafDescriptor level pa mapping
  let entry := t.storage table index
  if entry ≠ 0 ∧ entry ≠ descriptor then throw .conflictingEntry
  else set (t.setEntry table index descriptor)

/-- The level and the size of the next leaf of `map`. -/
def chunkOf (va pa remaining : Nat) : Nat × Nat :=
  if alignedFor va pa l1Size ∧ remaining ≥ l1Size then (1, l1Size)
  else if alignedFor va pa l2Size ∧ remaining ≥ l2Size then (2, l2Size)
  else (3, pageSize)

/-- `while remaining != 0`. Every leaf takes at least one page off `remaining`, so fuel `remaining`
is never used up. -/
def mapLoop (mapping : Mapping) : Nat → Nat → Nat → Nat → EStateM TranslationError (TableSet n) Unit
  | 0, _, _, _ => pure ()
  | fuel + 1, va, pa, remaining =>
      if remaining ≠ 0 then do
        let (level, chunk) := chunkOf va pa remaining
        mapLeaf level va pa mapping
        mapLoop mapping fuel (va + chunk) (pa + chunk) (remaining - chunk)
      else pure ()

/-- Maps a range with the largest leaves that fit; an error leaves those already written. -/
def map (mapping : Mapping) : EStateM TranslationError (TableSet n) Unit := do
  let t ← get
  lift (t.validateMapping mapping)
  mapLoop mapping mapping.size mapping.va mapping.pa mapping.size

/-- The memory type at a place of `MAIR_EL2`. -/
def memoryTypeOf : Nat → Except TranslationError MemoryType
  | 0 => .ok .normal
  | 1 => .ok .device
  | _ => .error .corruptTable

/-- The loop of `walk` over the remaining levels. -/
def walkFrom (t : TableSet n) (va : Nat) : List Nat → Nat →
    Except TranslationError (Option Translation)
  | [], _ => .error .corruptTable
  | level :: rest, table =>
      let descriptor := t.storage table (indexFor level va)
      if descriptor &&& valid = 0 then .ok none
      else if level < 3 ∧ descriptor &&& tableOrPage ≠ 0 then
        match t.tableIndex (descriptor &&& addressMask) with
        | .error e => .error e
        | .ok table => walkFrom t va rest table
      else if level = 3 ∧ descriptor &&& tableOrPage = 0 then .error .corruptTable
      else
        match memoryTypeOf ((descriptor >>> attrIndexShift) &&& 0b111) with
        | .error e => .error e
        | .ok memoryType =>
            .ok (some {
              pa := (descriptor &&& outputMask level) ||| (va &&& (levelSize level - 1))
              memoryType := memoryType
              writable := descriptor &&& apReadOnly == 0
              executable := descriptor &&& xn == 0
              level := level })

/-- The translation of an address, or none. -/
def walk (t : TableSet n) (va : Nat) : Except TranslationError (Option Translation) :=
  if va ≥ 1 <<< vaBits then .error .virtualAddressOutOfRange
  else t.walkFrom va [1, 2, 3] 0

/-- The descent of `replace_data_page` to the level-3 table. -/
def existingTable (t : TableSet n) (va : Nat) : List Nat → Nat → Except TranslationError Nat
  | [], table => .ok table
  | level :: rest, table =>
      let d := t.storage table (indexFor level va)
      if d &&& (valid ||| tableOrPage) ≠ (valid ||| tableOrPage) then .error .conflictingEntry
      else match t.tableIndex (d &&& addressMask) with
        | .error e => .error e
        | .ok table => existingTable t va rest table

/-- The mapping that `replace_data_page` installs. -/
def dataPage (va pa : Nat) : Mapping where
  va := va
  pa := pa
  size := pageSize
  memoryType := .normal
  writable := true
  executable := false

/-- Everything `replace_data_page` checks before its first store, and the entry it then writes. -/
def replaceTarget (t : TableSet n) (va oldPa newPa : Nat) :
    Except TranslationError (Nat × Fin 512) := do
  t.validateMapping (dataPage va newPa)
  t.validateMapping (dataPage va oldPa)
  (if !isPageAligned oldPa ∨ oldPa = newPa then throw .invalidateParameter else pure ())
  let table ← t.existingTable va [1, 2] 0
  let index := indexFor 3 va
  (if t.storage table index ≠ leafDescriptor 3 oldPa (dataPage va oldPa) then
    throw .conflictingEntry else pure ())
  pure (table, index)

/-- `replace_data_page` with the answers of the two callbacks. It returns its result, the tables it
leaves, and the tables at each callback. -/
def replaceDataPage (t : TableSet n) (va oldPa newPa : Nat)
    (first second : Except TranslationError Unit) :
    Except TranslationError Unit × TableSet n × List (TableSet n) :=
  match t.replaceTarget va oldPa newPa with
  | .error e => (.error e, t, [])
  | .ok (table, index) =>
      let broken := t.setEntry table index 0
      match first with
      | .error e => (.error e, broken, [broken])
      | .ok () =>
          let made := broken.setEntry table index (leafDescriptor 3 newPa (dataPage va newPa))
          (second, made, [broken, made])

end TableSet

/-! ## Descriptors as sums

The fields of a descriptor do not overlap, so joining them adds them, and masking one out is a
division and a remainder. -/

variable {x level pa : Nat}

theorem land_bit (x k : Nat) : x &&& (1 <<< k) = x / 2 ^ k % 2 * 2 ^ k := by
  rw [Nat.shiftLeft_eq]
  exact land_field x 1 k

theorem land_bit_eq_zero {k : Nat} : x &&& (1 <<< k) = 0 ↔ x / 2 ^ k % 2 = 0 := by
  rw [land_bit, Nat.mul_eq_zero]
  constructor
  · rintro (h | h)
    · exact h
    · exact absurd h (Nat.two_pow_pos k).ne'
  · exact Or.inl

theorem land_valid : x &&& valid = 0 ↔ x % 2 = 0 := by
  have h : x &&& valid = 0 ↔ x / 2 ^ 0 % 2 = 0 := land_bit_eq_zero
  rw [h, pow_zero, Nat.div_one]

theorem land_tableOrPage : x &&& tableOrPage = 0 ↔ x / 2 % 2 = 0 :=
  land_bit_eq_zero (k := 1)

theorem land_apReadOnly : x &&& apReadOnly = 0 ↔ x / 128 % 2 = 0 :=
  land_bit_eq_zero (k := 7)

theorem land_xn : x &&& xn = 0 ↔ x / 2 ^ 54 % 2 = 0 := land_bit_eq_zero

/-- Both type bits are set exactly when the word is 3 modulo 4. -/
theorem land_link : x &&& (valid ||| tableOrPage) = (valid ||| tableOrPage) ↔
    x % 4 = 3 := by
  have h : x &&& (valid ||| tableOrPage) = x % 2 ^ 2 := Nat.and_two_pow_sub_one_eq_mod x 2
  rw [h]
  exact Iff.rfl

theorem land_addressMask (x : Nat) : x &&& addressMask = x / 2 ^ 12 % 2 ^ 36 * 2 ^ 12 :=
  land_field x 36 12

theorem attr_eq (x : Nat) : (x >>> attrIndexShift) &&& 0b111 = x / 4 % 8 := by
  rw [Nat.shiftRight_eq_div_pow]
  exact Nat.and_two_pow_sub_one_eq_mod (x / 4) 3

theorem indexFor_val (level va : Nat) : (indexFor level va).val = va / 2 ^ shiftOf level % 512 := by
  show (va >>> shiftOf level) &&& 0x1ff = _
  rw [Nat.shiftRight_eq_div_pow]
  exact Nat.and_two_pow_sub_one_eq_mod _ 9

/-- The levels there are. -/
def IsLevel (level : Nat) : Prop := level = 1 ∨ level = 2 ∨ level = 3

theorem levelSize_eq : levelSize level = 2 ^ shiftOf level := by
  unfold levelSize shiftOf
  split <;> rfl

/-- The address bits of a leaf. -/
theorem land_outputMask (hl : IsLevel level) (x : Nat) :
    x &&& outputMask level =
      x / levelSize level % (2 ^ 48 / levelSize level) * levelSize level := by
  rcases hl with rfl | rfl | rfl
  · exact land_field x 18 30
  · exact land_field x 27 21
  · exact land_field x 36 12

/-- The attribute bits below the address. -/
def lowBits (level : Nat) (mapping : Mapping) : Nat :=
  1 + 1024 + 4 * mapping.memoryType.attrIndex + (if level = 3 then 2 else 0) +
    (if mapping.memoryType = .normal then 768 else 0) + (if mapping.writable then 0 else 128)

/-- The execute-never bit above it. -/
def highBits (mapping : Mapping) : Nat := if mapping.executable then 0 else 2 ^ 54

/-- Whatever the order in which the source joins them, the fields are one address, one block of
attributes below it and one bit above it. -/
theorem leafDescriptor_join (level pa : Nat) (mapping : Mapping) :
    leafDescriptor level pa mapping =
      (pa &&& outputMask level) ||| (lowBits level mapping ||| highBits mapping) := by
  obtain ⟨_, _, _, memoryType, writable, executable⟩ := mapping
  unfold leafDescriptor lowBits highBits
  generalize pa &&& outputMask level = address
  by_cases hl : level = 3 <;> cases memoryType <;> cases writable <;> cases executable <;>
    simp only [hl, Nat.lor_assoc, if_true, if_false, Bool.not_true, Bool.not_false,
      Bool.false_eq_true, reduceCtorEq] <;> rfl

theorem lowBits_lt (level : Nat) (mapping : Mapping) : lowBits level mapping < 2 ^ 12 := by
  have hattr : mapping.memoryType.attrIndex ≤ 1 := by
    cases mapping.memoryType <;> decide
  unfold lowBits
  split <;> split <;> split <;> omega

/-- A leaf at a level maps a whole number of that level's units, so page-aligned at least. -/
theorem page_of_aligned (hl : IsLevel level) (halign : pa % levelSize level = 0) :
    pa % 2 ^ 12 = 0 := by
  rcases hl with rfl | rfl | rfl
  · have h : pa % 2 ^ 30 = 0 := halign
    omega
  · have h : pa % 2 ^ 21 = 0 := halign
    omega
  · exact halign

theorem land_outputMask_of_aligned (hl : IsLevel level) (halign : pa % levelSize level = 0)
    (hpa : pa < 2 ^ 48) (hx : x < 2 ^ 12) (k : Nat) :
    (pa + x + k * 2 ^ 54) &&& outputMask level = pa := by
  rw [land_outputMask hl]
  rcases hl with rfl | rfl | rfl
  · have h : levelSize 1 = 2 ^ 30 := rfl
    rw [h] at halign ⊢
    omega
  · have h : levelSize 2 = 2 ^ 21 := rfl
    rw [h] at halign ⊢
    omega
  · have h : levelSize 3 = 2 ^ 12 := rfl
    rw [h] at halign ⊢
    omega

theorem leafDescriptor_eq {mapping : Mapping} (hl : IsLevel level)
    (halign : pa % levelSize level = 0) (hpa : pa < 2 ^ 48) :
    leafDescriptor level pa mapping = pa + lowBits level mapping + highBits mapping := by
  have hmask : pa &&& outputMask level = pa := land_outputMask_of_aligned hl halign hpa
    (x := 0) (by decide) 0
  have hlow := lowBits_lt level mapping
  have hpage := page_of_aligned hl halign
  rw [leafDescriptor_join, hmask, ← Nat.lor_assoc, lor_eq_add 12 hpage hlow]
  unfold highBits
  split
  · rw [Nat.or_zero, Nat.add_zero]
  · rw [Nat.lor_comm, lor_eq_add 54 (by decide) (by omega), Nat.add_comm]

end Tvisor.El2Stage1
