/-
# Tvisor.GuestStage2 -- stage-2 descriptors and the memory they live in

`tvisor_util/guest_stage2_translation.rs`, and the raw table pages that `vmctl.rs` reaches through
pointers. The guest's tables are not an arena: each is a page of physical memory named by its
address, with whatever the memory held before. `Memory` is that memory as one word per address, and
`Memory.tables` reads it as an array of pages of 512 words, which is the form the radix tables of
`Radix` are about.
-/
import Tvisor.El2Stage1.Builder

namespace Tvisor.GuestStage2

open Words Page
open El2Stage1 (route)

/-- The size of a guest address. -/
def ipaBits : Nat := 39

def l1Shift : Nat := 30
def l2Shift : Nat := 21
def l3Shift : Nat := 12
/-- The output address of a descriptor. -/
def addressMask : Nat := 0x0000_ffff_ffff_f000

/-- The entry is in use. -/
def valid : Nat := 1 <<< 0
/-- A table, or at level 3 a page. -/
def tableOrPage : Nat := 1 <<< 1
/-- The memory attributes of a leaf. -/
def memAttrNormalWbWa : Nat := 0b1111 <<< 2
def memAttrDeviceNgnre : Nat := 0b0001 <<< 2
/-- What the guest may do, apart from execution. -/
def s2apNone : Nat := 0b00 <<< 6
def s2apReadOnly : Nat := 0b01 <<< 6
def s2apWriteOnly : Nat := 0b10 <<< 6
def s2apReadWrite : Nat := 0b11 <<< 6
def shNone : Nat := 0b00 <<< 8
def shInner : Nat := 0b11 <<< 8
def accessFlag : Nat := 1 <<< 10
/-- Whether the guest may execute. -/
def xnExec : Nat := 0b00 <<< 53
def xnNonExec : Nat := 0b10 <<< 53

/-- Normal write-back memory or a device. -/
inductive GuestStage2MemoryType where
  | normalWbWa
  | deviceNgNre
  deriving DecidableEq, Repr

/-- The four access permissions. -/
inductive GuestStage2Access where
  | none
  | readOnly
  | writeOnly
  | readWrite
  deriving DecidableEq, Repr

/-- Execution has a field of its own. -/
inductive GuestStage2Exec where
  | executable
  | executeNever
  deriving DecidableEq, Repr

/-- Every field of a leaf but the address. -/
def leafAttributes (memType : GuestStage2MemoryType) (access : GuestStage2Access)
    (exec : GuestStage2Exec) : Nat :=
  let memAttr := match memType with
    | .normalWbWa => memAttrNormalWbWa
    | .deviceNgNre => memAttrDeviceNgnre
  let s2ap := match access with
    | .none => s2apNone
    | .readOnly => s2apReadOnly
    | .writeOnly => s2apWriteOnly
    | .readWrite => s2apReadWrite
  let sh := match memType with
    | .normalWbWa => shInner
    | .deviceNgNre => shNone
  let xn := match exec with
    | .executable => xnExec
    | .executeNever => xnNonExec
  valid ||| tableOrPage ||| memAttr ||| s2ap ||| sh ||| accessFlag ||| xn

/-- A page leaf. -/
def encodeL3PageDescriptor (pa : Nat) (memType : GuestStage2MemoryType)
    (access : GuestStage2Access) (exec : GuestStage2Exec) : Nat :=
  leafAttributes memType access exec ||| (pa &&& addressMask)

/-! ## Fields of a descriptor -/

theorem address_of_page {pa : Nat} (halign : pa % 4096 = 0) (hpa : pa < 2 ^ 48) :
    pa &&& addressMask = pa := by
  rw [show pa &&& addressMask = pa / 2 ^ 12 % 2 ^ 36 * 2 ^ 12 from land_field pa 36 12]
  omega

theorem leafAttributes_fields (memType : GuestStage2MemoryType) (access : GuestStage2Access)
    (exec : GuestStage2Exec) :
    leafAttributes memType access exec &&& valid = valid ∧
      leafAttributes memType access exec &&& addressMask = 0 := by
  rcases memType with _ | _ <;> rcases access with _ | _ | _ | _ <;> rcases exec with _ | _ <;>
    decide

/-- A leaf is valid and gives back the page it was made for. -/
theorem encodeL3PageDescriptor_fields {pa : Nat} (halign : pa % 4096 = 0) (hpa : pa < 2 ^ 48)
    (memType : GuestStage2MemoryType) (access : GuestStage2Access) (exec : GuestStage2Exec) :
    encodeL3PageDescriptor pa memType access exec &&& valid ≠ 0 ∧
      encodeL3PageDescriptor pa memType access exec &&& addressMask = pa := by
  obtain ⟨hvalid, haddress⟩ := leafAttributes_fields memType access exec
  have hpage := address_of_page halign hpa
  unfold encodeL3PageDescriptor
  rw [hpage, Nat.and_or_distrib_right, Nat.and_or_distrib_right, hvalid, haddress, hpage,
    Nat.zero_or]
  refine ⟨?_, rfl⟩
  intro hzero
  exact absurd (Nat.or_eq_zero_iff.mp hzero).1 (by decide)

/-! ## Physical memory -/

/-- The 64-bit word at each aligned address. -/
def Memory := Nat → Nat

namespace Memory

/-- `table.entries()[index]` for the page at a table's address. -/
def entry (m : Memory) (table : Nat) (index : Fin 512) : Nat := m (table + 8 * index)

/-- `table.entries_mut()[index] = word` -/
def setEntry (m : Memory) (table : Nat) (index : Fin 512) (word : Nat) : Memory :=
  fun address => if address = table + 8 * index then word else m address

/-- `write_bytes(start, 0, size)` -/
def writeZeros (m : Memory) (start size : Nat) : Memory :=
  fun address => if start ≤ address ∧ address < start + size then 0 else m address

/-- The memory as pages of table words. -/
def tables (m : Memory) (page : Nat) (index : Fin 512) : Nat := m.entry (4096 * page) index

theorem tables_setEntry (m : Memory) (page : Nat) (index : Fin 512) (word : Nat) :
    (m.setEntry (4096 * page) index word).tables = Radix.set m.tables page index word := by
  funext q j
  unfold tables entry setEntry Radix.set
  have hiff : 4096 * q + 8 * j.val = 4096 * page + 8 * index.val ↔ q = page ∧ j = index := by
    rw [Fin.ext_iff]
    omega
  simp only [hiff]

theorem tables_writeZeros (m : Memory) (first count : Nat) (page : Nat) (index : Fin 512) :
    (m.writeZeros (4096 * first) (4096 * count)).tables page index =
      if first ≤ page ∧ page < first + count then 0 else m.tables page index := by
  unfold tables entry writeZeros
  have hiff : (4096 * first ≤ 4096 * page + 8 * index.val ∧
      4096 * page + 8 * index.val < 4096 * first + 4096 * count) ↔
      first ≤ page ∧ page < first + count := by omega
  simp only [hiff]

end Memory

/-! ## Tables -/

/-- The meaning of a stage-2 word. Tables stand on levels 1 and 2, pages on level 3. -/
def decode (d w : Nat) : Radix.Entry Nat Nat :=
  if w &&& valid = 0 then .empty
  else if d < 2 then
    if w &&& tableOrPage = 0 then .bad else .table ((w &&& addressMask) / 4096)
  else .leaf w

theorem decode_zero (d : Nat) : decode d 0 = .empty := rfl

/-- The word that links a table page. -/
def tableDescriptor (pa : Nat) : Nat := valid ||| tableOrPage ||| (pa &&& addressMask)

theorem decode_tableDescriptor {d page : Nat} (hd : d < 2) (hpage : page < 2 ^ 36) :
    decode d (tableDescriptor (4096 * page)) = .table page := by
  have haddress : 4096 * page &&& addressMask = 4096 * page :=
    address_of_page (by omega) (by omega)
  have hword : tableDescriptor (4096 * page) = 4096 * page + 3 := by
    unfold tableDescriptor
    rw [haddress, Nat.lor_comm, lor_eq_add 12 (by omega) (by decide)]
    rfl
  have hvalid : (4096 * page + 3) &&& valid ≠ 0 := by
    intro hzero
    have := El2Stage1.land_valid.mp hzero
    omega
  have htype : (4096 * page + 3) &&& tableOrPage ≠ 0 := by
    intro hzero
    have := El2Stage1.land_tableOrPage.mp hzero
    omega
  have hmask : (4096 * page + 3) &&& addressMask = 4096 * page := by
    rw [show (4096 * page + 3) &&& addressMask = _ from land_field _ 36 12]
    omega
  rw [hword]
  unfold decode
  rw [if_neg hvalid, if_pos hd, if_neg htype, hmask, Nat.mul_div_cancel_left page (by decide)]

theorem decode_leaf {w : Nat} (hvalid : w &&& valid ≠ 0) : decode 2 w = .leaf w := by
  unfold decode
  rw [if_neg hvalid, if_neg (by decide)]

theorem decode_eq_leaf {d w v : Nat} (h : decode d w = .leaf v) :
    2 ≤ d ∧ w = v ∧ v &&& valid ≠ 0 := by
  unfold decode at h
  split_ifs at h with hvalid hd
  cases h
  exact ⟨Nat.le_of_not_lt hd, rfl, hvalid⟩

/-- Nothing is linked below level 3. -/
theorem decode_two_ne_table (w c : Nat) : decode 2 w ≠ .table c := by
  unfold decode
  rw [if_neg (show ¬ 2 < 2 by decide)]
  split
  · exact nofun
  · exact nofun

/-- `((ipa >> shift) & 0x1ff) as usize` -/
def tableIndex (shift ipa : Nat) : Fin 512 :=
  ⟨(ipa >>> shift) &&& 0x1ff, Nat.lt_of_le_of_lt Nat.and_le_right (by decide)⟩

theorem route_eq (ipa : Nat) :
    route 3 ipa = [tableIndex l1Shift ipa, tableIndex l2Shift ipa, tableIndex l3Shift ipa] := rfl

end Tvisor.GuestStage2
