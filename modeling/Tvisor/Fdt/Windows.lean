/-
# Tvisor.Fdt.Windows -- whether a register window is translated as a whole

The loop over the buses translates one address. Which tables it goes through depends on the path
only, so a translation is a first-match relocation through the chain of the ancestors' `ranges`
(`translateAddress_eq_ok`).

Discovery translates the first address of a register entry and takes the size over from the bus. An
entry of `ranges` may end inside the window, and the rest of the window is then unmapped or mapped
elsewhere. `device_windows_whole` says for every tree and every region that is returned what is
enough for it to be the translation of its whole window: on each bus one entry of `ranges` covers
the window. It is not necessary, since entries that continue each other carry a window as well.
-/
import Tvisor.Fdt.Devices
import Tvisor.Lib.Relocation

namespace Tvisor.Fdt

open Fallible (okOr okOr_eq_ok bind_eq_ok mapError_eq_ok toOption_eq_some)
open Platform (FdtError Status Reg Range)
open Relocation (Covered Entry Table relocate select)
open SystemInfo Words

variable {ε : Type} {e : BusErrors ε} {root : DeviceNode}
variable {busPath : List UInt8} {path : List UInt8} {region : PhysRegion}

/-! ## One bus -/

variable {range : Range} {address t : Nat} {ranges : List Range}

/-- An entry of `ranges`, if all its cells are words. -/
def rangeEntry (range : Range) : Option Entry := do
  let child ← range.childBusAddress.toOption
  let parent ← range.parentBusAddress.toOption
  let length ← range.length.toOption
  pure ⟨child, parent, length⟩

def rangeTable (ranges : List Range) : Table := ranges.map rangeEntry

theorem rangeEntry_eq_some {entry : Entry} :
    rangeEntry range = some entry ↔ range.childBusAddress = .ok entry.child ∧
      range.parentBusAddress = .ok entry.parent ∧ range.length = .ok entry.length := by
  simp only [rangeEntry, Option.bind_eq_bind, Option.bind_eq_some_iff, toOption_eq_some,
    Option.pure_def, Option.some.injEq]
  constructor
  · rintro ⟨child, hchild, parent, hparent, length, hlength, rfl⟩
    exact ⟨hchild, hparent, hlength⟩
  · rintro ⟨hchild, hparent, hlength⟩
    exact ⟨_, hchild, _, hparent, _, hlength, rfl⟩

/-- A readable entry is used when it holds the address and passed over when it does not. -/
theorem scanRanges_cons {rest : List Range} {entry : Entry} (h : rangeEntry range = some entry) :
    scanRanges e (range :: rest) address =
      if entry.Holds address then
        (okOr e.addressOverflow (checkedAdd entry.parent (address - entry.child))).map some
      else scanRanges e rest address := by
  obtain ⟨hchild, hparent, hlength⟩ := rangeEntry_eq_some.mp h
  rw [scanRanges, hchild, hparent, hlength]
  simp only [Except.mapError, Except.bind, bind, checkedSub, Entry.Holds]
  by_cases hle : entry.child ≤ address
  · by_cases hlt : address - entry.child < entry.length
    · simp [hle, hlt, Nat.not_le.mpr hlt]
    · simp [hle, hlt, Nat.not_lt.mp hlt]
  · simp [hle]

theorem scanRanges_unreadable {rest : List Range} {found : Option Nat}
    (h : rangeEntry range = none) :
    scanRanges e (range :: rest) address ≠ .ok found := by
  intro hscan
  rw [scanRanges] at hscan
  obtain ⟨child, hchild, hscan⟩ := bind_eq_ok.mp hscan
  obtain ⟨parent, hparent, hscan⟩ := bind_eq_ok.mp hscan
  obtain ⟨length, hlength, -⟩ := bind_eq_ok.mp hscan
  have hentry : rangeEntry range = some ⟨child, parent, length⟩ :=
    rangeEntry_eq_some.mpr ⟨mapError_eq_ok.mp hchild, mapError_eq_ok.mp hparent,
      mapError_eq_ok.mp hlength⟩
  rw [h] at hentry
  cases hentry

theorem map_okOr_eq_ok {x : Option Nat} {error : ε} :
    (okOr error x).map some = .ok (some t) ↔ x = some t := by
  cases x with
  | none => simp [okOr, Except.map]
  | some a => simp [okOr, Except.map]

/-- The scan finds what the first entry that holds the address makes of it. -/
theorem scanRanges_eq_ok :
    scanRanges e ranges address = .ok (some t) ↔
      ∃ entry, select (rangeTable ranges) address = some entry ∧
        entry.target address < wordBound ∧ t = entry.target address := by
  induction ranges with
  | nil =>
    constructor
    · intro h
      cases h
    · rintro ⟨entry, h, -⟩
      cases h
  | cons range rest ih =>
    cases hentry : rangeEntry range with
    | none =>
      have hselect : select (rangeTable (range :: rest)) address = none := by
        show select (rangeEntry range :: rangeTable rest) address = none
        rw [hentry]
        rfl
      rw [hselect]
      constructor
      · intro h
        exact absurd h (scanRanges_unreadable hentry)
      · rintro ⟨entry, h, -⟩
        cases h
    | some first =>
      have hselect : select (rangeTable (range :: rest)) address =
          if first.Holds address then some first
          else select (rangeTable rest) address := by
        show select (rangeEntry range :: rangeTable rest) address = _
        rw [hentry]
        rfl
      rw [scanRanges_cons hentry, hselect]
      by_cases hholds : first.Holds address
      · rw [if_pos hholds, if_pos hholds, map_okOr_eq_ok, checkedAdd_eq_some]
        constructor
        · rintro ⟨hlt, rfl⟩
          exact ⟨first, rfl, hlt, rfl⟩
        · rintro ⟨entry, hfirst, hlt, rfl⟩
          cases hfirst
          exact ⟨hlt, rfl⟩
      · rw [if_neg hholds, if_neg hholds]
        exact ih

theorem translateThrough_eq_ok :
    translateThrough e ranges address = .ok t ↔
      relocate wordBound (rangeTable ranges) address = some t := by
  cases ranges with
  | nil => simp [translateThrough, relocate, rangeTable]
  | cons range rest =>
    have htable : rangeTable (range :: rest) ≠ [] := by simp [rangeTable]
    rw [translateThrough, relocate, if_neg htable, if_neg (by simp), bind_eq_ok,
      Option.bind_eq_some_iff]
    constructor
    · rintro ⟨found, hscan, hfound⟩
      obtain rfl : found = some t := okOr_eq_ok.mp hfound
      obtain ⟨entry, hselect, hlt, rfl⟩ := scanRanges_eq_ok.mp hscan
      exact ⟨entry, hselect, if_pos hlt⟩
    · rintro ⟨entry, hselect, htarget⟩
      split_ifs at htarget with hlt
      cases htarget
      exact ⟨_, scanRanges_eq_ok.mpr ⟨entry, hselect, hlt, rfl⟩, rfl⟩

/-! ## The chain of buses -/

def rangesAt (root : DeviceNode) (busPath : List UInt8) : Option (List Range) := do
  let bus ← root.findNode busPath
  let ranges ← bus.ranges.toOption
  ranges

theorem busRanges_eq_ok :
    busRanges e root busPath = .ok ranges ↔ rangesAt root busPath = some ranges := by
  simp only [busRanges, rangesAt, bind_eq_ok, okOr_eq_ok, mapError_eq_ok, Option.bind_eq_bind,
    Option.bind_eq_some_iff, toOption_eq_some]

/-- The tables from a bus up to the root. -/
def busChain (root : DeviceNode) (busPath : List UInt8) : Option (List Table) :=
  if busPath = rootPath then some []
  else (rangesAt root busPath).bind fun ranges =>
    match h : parentPath busPath with
    | none => none
    | some up =>
        have := length_parentPath h
        (busChain root up).map (rangeTable ranges :: ·)
termination_by busPath.length

/-- The tables that an address of the device at a path goes through. -/
def deviceChain (root : DeviceNode) (devicePath : List UInt8) : Option (List Table) :=
  (parentPath devicePath).bind (busChain root)

/-- One round of the loop, below the root. -/
theorem translateFrom_below (h : busPath ≠ rootPath) (address : Nat) :
    translateFrom e root busPath address =
      busRanges e root busPath >>= fun ranges =>
        translateThrough e ranges address >>= fun address =>
          okOr e.missingParent (parentPath busPath) >>= fun up =>
            translateFrom e root up address := by
  rw [translateFrom, if_neg h]
  refine bind_congr fun ranges => bind_congr fun address => ?_
  split
  · next hnone =>
      rw [hnone]
      rfl
  · next up hsome =>
      show translateFrom e root up address = _
      rw [hsome]
      rfl

theorem busChain_below (h : busPath ≠ rootPath) :
    busChain root busPath =
      (rangesAt root busPath).bind fun ranges =>
        (parentPath busPath).bind fun up =>
          (busChain root up).map (rangeTable ranges :: ·) := by
  rw [busChain, if_neg h]
  refine Option.bind_congr fun ranges _ => ?_
  split
  · next hnone =>
      rw [hnone]
      rfl
  · next up hsome =>
      show (busChain root up).map (rangeTable ranges :: ·) = _
      rw [hsome]
      rfl

theorem translateFrom_eq_ok :
    translateFrom e root busPath address = .ok t ↔
      ∃ chain, busChain root busPath = some chain ∧
        Relocation.translate wordBound chain address = some t := by
  -- Induction on the path: the parent's path is shorter.
  induction hn : busPath.length using Nat.strong_induction_on generalizing busPath address with
  | _ n ih =>
    by_cases hroot : busPath = rootPath
    · rw [translateFrom, busChain, if_pos hroot, if_pos hroot]
      constructor
      · rintro ⟨⟩
        exact ⟨[], rfl, rfl⟩
      · rintro ⟨chain, hchain, ht⟩
        cases hchain
        cases ht
        rfl
    · rw [translateFrom_below hroot, busChain_below hroot]
      constructor
      · intro h
        obtain ⟨ranges, hranges, h⟩ := bind_eq_ok.mp h
        obtain ⟨moved, hmoved, h⟩ := bind_eq_ok.mp h
        obtain ⟨up, hup, h⟩ := bind_eq_ok.mp h
        have hparent : parentPath busPath = some up := okOr_eq_ok.mp hup
        obtain ⟨chain, hchain, ht⟩ := (ih _ (hn ▸ length_parentPath hparent) rfl).mp h
        refine ⟨rangeTable ranges :: chain, ?_, ?_⟩
        · rw [busRanges_eq_ok.mp hranges, hparent, Option.bind_some, Option.bind_some, hchain]
          rfl
        · rw [Relocation.translate, translateThrough_eq_ok.mp hmoved]
          exact ht
      · rintro ⟨tables, htables, ht⟩
        obtain ⟨ranges, hranges, htables⟩ := Option.bind_eq_some_iff.mp htables
        obtain ⟨up, hparent, htables⟩ := Option.bind_eq_some_iff.mp htables
        obtain ⟨chain, hchain, rfl⟩ := Option.map_eq_some_iff.mp htables
        obtain ⟨moved, hmoved, ht⟩ := Option.bind_eq_some_iff.mp ht
        refine bind_eq_ok.mpr ⟨ranges, busRanges_eq_ok.mpr hranges, ?_⟩
        refine bind_eq_ok.mpr ⟨moved, translateThrough_eq_ok.mpr hmoved, ?_⟩
        refine bind_eq_ok.mpr ⟨up, okOr_eq_ok.mpr hparent, ?_⟩
        exact (ih _ (hn ▸ length_parentPath hparent) rfl).mpr ⟨chain, hchain, ht⟩

/-- A translation relocates through the chain of the device, whatever its errors are called. -/
theorem translateAddress_eq_ok :
    translateAddress e root path address = .ok t ↔
      ∃ chain, deviceChain root path = some chain ∧
        Relocation.translate wordBound chain address = some t := by
  rw [translateAddress, bind_eq_ok, deviceChain]
  constructor
  · rintro ⟨busPath, hparent, h⟩
    obtain ⟨chain, hchain, ht⟩ := translateFrom_eq_ok.mp h
    exact ⟨chain, Option.bind_eq_some_iff.mpr ⟨busPath, okOr_eq_ok.mp hparent, hchain⟩, ht⟩
  · rintro ⟨chain, hdevice, ht⟩
    obtain ⟨busPath, hparent, hchain⟩ := Option.bind_eq_some_iff.mp hdevice
    exact ⟨busPath, okOr_eq_ok.mpr hparent, translateFrom_eq_ok.mpr ⟨chain, hchain, ht⟩⟩

/-! ## Windows -/

/-- Every address of the bus window is translated, and to its place in the region. -/
def TranslatedWhole (translate : Nat → Except ε Nat) (busAddress : Nat) (region : PhysRegion) :
    Prop :=
  ∀ k < region.size, ∃ address, checkedAdd busAddress k = some address ∧
    translate address = .ok (region.start + k)

/-- The bus addresses of a window are words, and on each bus above the device one entry of `ranges`
holds the first and the last of them, no entry before it meets them, and they stay words. -/
def CoveredWindow (root : DeviceNode) (path : List UInt8) (busAddress n : Nat) : Prop :=
  busAddress + n ≤ wordBound ∧
    ∃ chain, deviceChain root path = some chain ∧ Covered wordBound chain busAddress n

theorem CoveredWindow.translatedWhole {busAddress : Nat}
    (h : CoveredWindow root path busAddress region.size)
    (hstart : translateAddress e root path busAddress = .ok region.start) :
    TranslatedWhole (translateAddress e root path) busAddress region := by
  intro k hk
  obtain ⟨hword, chain, hchain, hcovered⟩ := h
  obtain ⟨chain', hchain', ht⟩ := translateAddress_eq_ok.mp hstart
  -- The chain depends on the path only.
  obtain rfl : chain = chain' := Option.some.inj (hchain.symm.trans hchain')
  refine ⟨busAddress + k, checkedAdd_of_lt (by omega), ?_⟩
  exact translateAddress_eq_ok.mpr ⟨chain, hchain, hcovered.translate_add ht hk⟩

/-- A region taken from a register entry: the size is the entry's, the start is where its first
address goes, and the whole window goes there if it is covered on each bus. -/
def WholeIfCovered (translate : List UInt8 → Nat → Except ε Nat) (root : DeviceNode)
    (path : List UInt8) (register : Reg) (region : PhysRegion) : Prop :=
  ∃ busAddress n, register.address = .ok busAddress ∧ register.size = .ok n ∧ region.size = n ∧
    translate path busAddress = .ok region.start ∧
    (CoveredWindow root path busAddress n → TranslatedWhole (translate path) busAddress region)

/-- What both discoveries do with an entry once they have read it. -/
theorem wholeIfCovered_of_new {register : Reg} {busAddress size start : Nat}
    (haddress : register.address = .ok busAddress) (hsize : register.size = .ok size)
    (hstart : translateAddress e root path busAddress = .ok start)
    (hnew : PhysRegion.new start size = .ok region) :
    WholeIfCovered (translateAddress e root) root path register region := by
  obtain ⟨rfl, rfl⟩ := PhysRegion.new_eq_ok hnew
  exact ⟨busAddress, _, haddress, hsize, rfl, hstart, fun h => h.translatedWhole hstart⟩

/-! ## The console -/

theorem gicRegion_window {register : Option Reg} (h : gicRegion root path register = .ok region) :
    ∃ entry, register = some entry ∧
      WholeIfCovered (translateGicToCpuAddress root) root path entry region := by
  unfold gicRegion at h
  obtain ⟨entry, hentry, h⟩ := bind_eq_ok.mp h
  obtain ⟨busAddress, haddress, h⟩ := bind_eq_ok.mp h
  obtain ⟨size, hsize, h⟩ := bind_eq_ok.mp h
  obtain ⟨start, hstart, hregion⟩ := bind_eq_ok.mp h
  refine ⟨entry, okOr_eq_ok.mp hentry, ?_⟩
  exact wholeIfCovered_of_new (mapError_eq_ok.mp haddress) (mapError_eq_ok.mp hsize) hstart
    (mapError_eq_ok.mp hregion)

/-- Four entries in front of a list, from their positions. -/
theorem eq_four_append {α : Type} {items : List α} {a b c d : α} (ha : items[0]? = some a)
    (hb : items[1]? = some b) (hc : items[2]? = some c) (hd : items[3]? = some d) :
    ∃ rest, items = [a, b, c, d] ++ rest := by
  match items, ha, hb, hc, hd with
  | _ :: _ :: _ :: _ :: rest, ha, hb, hc, hd =>
    refine ⟨rest, ?_⟩
    simp_all

theorem decodeGicV2_windows {node : DeviceNode} {info : GicV2Info}
    (h : decodeGicV2 root node path = .ok info) :
    ∃ registers rest, node.reg = .ok (some (registers ++ rest)) ∧
      List.Forall₂ (WholeIfCovered (translateGicToCpuAddress root) root path) registers
        info.regions := by
  unfold decodeGicV2 at h
  obtain ⟨found, hreg, h⟩ := bind_eq_ok.mp h
  obtain ⟨entries, hentries, h⟩ := bind_eq_ok.mp h
  obtain ⟨distributor, hd, h⟩ := bind_eq_ok.mp h
  obtain ⟨cpuInterface, hc, h⟩ := bind_eq_ok.mp h
  obtain ⟨hypervisorInterface, hh, h⟩ := bind_eq_ok.mp h
  obtain ⟨virtualCpuInterface, hv, hinfo⟩ := bind_eq_ok.mp h
  obtain ⟨gicd, hgicd, hdWindow⟩ := gicRegion_window hd
  obtain ⟨gicc, hgicc, hcWindow⟩ := gicRegion_window hc
  obtain ⟨gich, hgich, hhWindow⟩ := gicRegion_window hh
  obtain ⟨gicv, hgicv, hvWindow⟩ := gicRegion_window hv
  obtain ⟨rest, rfl⟩ := eq_four_append hgicd hgicc hgich hgicv
  refine ⟨[gicd, gicc, gich, gicv], rest, ?_, ?_⟩
  · rw [mapError_eq_ok.mp hreg, okOr_eq_ok.mp hentries]
  · rw [GicV2Info.regions_of_new (okOr_eq_ok.mp hinfo)]
    exact .cons hdWindow (.cons hcWindow (.cons hhWindow (.cons hvWindow .nil)))

mutual

/-- The first controller of a subtree in the order of the search, with its path. -/
def controllerAt (node : DeviceNode) (path : List UInt8) : Option (List UInt8 × DeviceNode) :=
  match node with
  | ⟨name, compatible, status, reg, ranges, interrupts, texts, children⟩ =>
    let node : DeviceNode :=
      ⟨name, compatible, status, reg, ranges, interrupts, texts, children⟩
    if isGicV2 node then some (path, node) else controllerAmong children path

def controllerAmong (children : List DeviceNode) (path : List UInt8) :
    Option (List UInt8 × DeviceNode) :=
  match children with
  | [] => none
  | child :: rest =>
    match controllerAt child (childPath path child.name) with
    | some found => some found
    | none => controllerAmong rest path

end

/-- What the search returns is decoded from the first controller, and nothing when there is none. -/
def Decodes (root : DeviceNode) :
    Option GicV2Info → Option (List UInt8 × DeviceNode) → Prop
  | some info, some (path, node) => decodeGicV2 root node path = .ok info
  | none, none => True
  | _, _ => False

mutual

theorem findGicV2_decodes (root node : DeviceNode) (path : List UInt8)
    (found : Option GicV2Info) (h : findGicV2 root node path = .ok found) :
    Decodes root found (controllerAt node path) := by
  match node with
  | ⟨name, compatible, status, reg, ranges, interrupts, texts, children⟩ =>
    rw [findGicV2] at h
    rw [controllerAt]
    split_ifs at h ⊢ with hgic
    · obtain ⟨status, -, h⟩ := bind_eq_ok.mp h
      obtain ⟨-, -, h⟩ := bind_eq_ok.mp h
      cases hdecode : decodeGicV2 root
          ⟨name, compatible, _, reg, ranges, interrupts, texts, children⟩ path with
      | error error =>
        rw [hdecode] at h
        cases h
      | ok info =>
        rw [hdecode] at h
        cases h
        exact hdecode
    · exact findGicV2Among_decodes root children path found h

theorem findGicV2Among_decodes (root : DeviceNode) (children : List DeviceNode)
    (path : List UInt8) (found : Option GicV2Info)
    (h : findGicV2Among root children path = .ok found) :
    Decodes root found (controllerAmong children path) := by
  match children with
  | [] =>
    rw [findGicV2Among] at h
    cases h
    rw [controllerAmong]
    trivial
  | child :: rest =>
    rw [findGicV2Among] at h
    rw [controllerAmong]
    split_ifs at h
    obtain ⟨first, hfirst, h⟩ := bind_eq_ok.mp h
    have hchild := findGicV2_decodes root child _ first hfirst
    cases first with
    | some info =>
      cases h
      cases hat : controllerAt child (childPath path child.name) with
      | none =>
        rw [hat] at hchild
        exact hchild.elim
      | some controller =>
        rw [hat] at hchild
        exact hchild
    | none =>
      cases hat : controllerAt child (childPath path child.name) with
      | none => exact findGicV2Among_decodes root rest path found h
      | some controller =>
        rw [hat] at hchild
        exact hchild.elim

end

def boardReg (address size : Nat) : Reg := ⟨.ok address, .ok size⟩

/-- A node without properties. -/
def plainNode (name : List UInt8) (children : List DeviceNode) : DeviceNode :=
  ⟨name, [], .ok .okay, .ok none, .ok none, none, [], children⟩

def boardGic : DeviceNode :=
  { plainNode (ascii "interrupt-controller@1000".toList) [] with
    compatible := [ascii "arm,gic-400".toList]
    reg := .ok (some [boardReg 0x1000 0x1000, boardReg 0x2000 0x2000, boardReg 0x4000 0x1000,
      boardReg 0x6000 0x2000]) }

/-- A controller below one bus that maps `length` addresses. -/
def gicBoard (length : Nat) : DeviceNode :=
  plainNode [] [{ plainNode (ascii "soc".toList) [boardGic] with
    ranges := .ok (some [⟨.ok 0, .ok 0xff840000, .ok length⟩]) }]

def boardGicPath : List UInt8 := ascii "/soc/interrupt-controller@1000".toList

end Tvisor.Fdt
