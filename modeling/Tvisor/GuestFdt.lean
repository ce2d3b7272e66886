/-
# Tvisor.GuestFdt -- the device tree that the guest is given

`tvisor_util/guest_fdt.rs`: a configuration is validated and turned into a tree, which the library
writes to bytes. The parsers of this repository are written independently of that writer. What they
read in the tree is what was configured (`guest_tree_says_config`), with one exception: the path of
the console is written without the leading slash and without an alias, so `resolve_stdout_path`
finds nothing (`stdout_path_resolves_iff`).

A panic is a result of `build_tree`: it indexes the memory regions and subtracts the first SPI from
an interrupt number.
-/
import Mathlib.Data.Nat.Digits.Lemmas
import Tvisor.Fdt.Tree

namespace Tvisor.GuestFdt

open Cells Fallible Words
open Fdt (ascii atSign slash DeviceTreeNode DeviceTreeProperty DeviceNode)
open Platform (Reg)

/-! ## Configurations -/

/-- Why no tree is written. -/
inductive GuestFdtError where
  | bufferTooSmall
  | invalidConfiguration
  | nameTooLong
  | propertyTooLarge
  deriving DecidableEq, Repr

/-- RAM in guest addresses. -/
structure GuestMemoryRegion where
  base : UInt64
  size : UInt64
  deriving DecidableEq, Repr

/-- The UART window, its clock and its interrupt. -/
structure GuestPl011 where
  base : UInt64
  size : UInt64
  clockHz : UInt32
  interrupt : UInt32
  deriving DecidableEq, Repr

/-- The two interfaces that the guest sees. -/
structure GuestGicV2 where
  distributorBase : UInt64
  distributorSize : UInt64
  cpuInterfaceBase : UInt64
  cpuInterfaceSize : UInt64
  deriving DecidableEq, Repr

def gicPhandle : UInt32 := 2
def gicSpiBase : UInt32 := 32
def maxGuestMemoryRegions : Nat := 4

/-- What the guest is told of its machine. -/
structure GuestFdtConfig where
  memoryRegions : List GuestMemoryRegion
  bootargs : Option (List UInt8)
  pl011 : Option GuestPl011
  gicv2 : Option GuestGicV2
  deriving DecidableEq, Repr

/-- `base.checked_add(size).is_none()` -/
def leavesWord (base size : UInt64) : Prop := checkedAdd base.toNat size.toNat = none

instance (base size : UInt64) : Decidable (leavesWord base size) :=
  inferInstanceAs (Decidable (_ = _))

/-- Whole pages, at least one, below the end of the address space. -/
def validateRegion (region : GuestMemoryRegion) : Except GuestFdtError Unit :=
  if region.size = 0 ∨ region.size &&& 0xfff ≠ 0 ∨ region.base &&& 0xfff ≠ 0 ∨
      leavesWord region.base region.size then throw .invalidConfiguration
  else pure ()

/-- With a controller, the interrupt is an SPI. -/
def validatePl011 (gicv2 : Option GuestGicV2) (pl011 : GuestPl011) : Except GuestFdtError Unit :=
  if pl011.size = 0 ∨ pl011.base &&& 0xfff ≠ 0 ∨ pl011.size &&& 0xfff ≠ 0 ∨
      leavesWord pl011.base pl011.size ∨ pl011.clockHz = 0 ∨
      (gicv2.isSome ∧ pl011.interrupt < gicSpiBase) then throw .invalidConfiguration
  else pure ()

/-- Both interfaces start at a page and are not empty. -/
def validateGicV2 (gic : GuestGicV2) : Except GuestFdtError Unit :=
  if gic.distributorSize = 0 ∨ gic.cpuInterfaceSize = 0 ∨ gic.distributorBase &&& 0xfff ≠ 0 ∨
      gic.cpuInterfaceBase &&& 0xfff ≠ 0 ∨ leavesWord gic.distributorBase gic.distributorSize ∨
      leavesWord gic.cpuInterfaceBase gic.cpuInterfaceSize then throw .invalidConfiguration
  else pure ()

variable (config : GuestFdtConfig)

/-- Checked before anything is written. -/
def validateConfig : Except GuestFdtError Unit := do
  (if config.memoryRegions.isEmpty ∨ maxGuestMemoryRegions < config.memoryRegions.length then
    throw .invalidConfiguration else pure ())
  config.memoryRegions.forM validateRegion
  (match config.pl011 with
    | some pl011 => validatePl011 config.gicv2 pl011
    | none => pure ())
  (match config.gicv2 with
    | some gic => validateGicV2 gic
    | none => pure ())
  if config.bootargs.any fun bootargs => 128 ≤ bootargs.length then throw .propertyTooLarge
  else pure ()

/-! ## Values -/

/-- A property under a constant name. -/
def property (name : String) (value : List UInt8) : DeviceTreeProperty := ⟨ascii name.toList, value⟩

/-- A text ends with a zero byte. -/
def stringValue (value : List UInt8) : List UInt8 := value ++ [0]

/-- Texts one after the other. -/
def stringListValue (values : List (List UInt8)) : List UInt8 := values.flatMap stringValue

/-- A constant of the source. -/
def text (value : String) : List UInt8 := ascii value.toList

/-- `u32::to_be_bytes` -/
def be32 (value : UInt32) : List UInt8 := encodeBe 4 value.toNat

/-- `u64::to_be_bytes` -/
def be64 (value : UInt64) : List UInt8 := encodeBe 8 value.toNat

/-- The ASCII byte of a digit, in lower case. -/
def hexDigit (digit : Nat) : UInt8 :=
  if digit < 10 then UInt8.ofNat (48 + digit) else UInt8.ofNat (87 + digit)

/-- `{:x}` -/
def lowerHex (value : Nat) : List UInt8 :=
  if value = 0 then [hexDigit 0] else (Nat.digits 16 value).reverse.map hexDigit

/-- `name@{:x}` -/
def unitName (name : String) (base : UInt64) : List UInt8 :=
  text name ++ atSign :: lowerHex base.toNat

/-! ## Nodes -/

/-- The root before its children are added. -/
def emptyRoot : DeviceTreeNode := (DeviceTreeNode.new []).addProperties [
  property "#address-cells" (be32 2),
  property "#size-cells" (be32 2),
  property "model" (stringValue (text "tvisor-virt-v1")),
  property "compatible" (stringListValue [text "tvisor,virt", text "linux,dummy-virt"])]

/-- The console and the command line. -/
def chosen : DeviceTreeNode :=
  let chosen := DeviceTreeNode.new (text "chosen")
  let chosen := match config.pl011 with
    | some pl011 =>
        chosen.addProperty (property "stdout-path" (stringValue (unitName "serial" pl011.base)))
    | none => chosen
  match config.bootargs with
  | some bootargs => chosen.addProperty (property "bootargs" (stringValue bootargs))
  | none => chosen

/-- The only vCPU. -/
def cpu : DeviceTreeNode := (DeviceTreeNode.new (text "cpu@0")).addProperties [
  property "device_type" (stringValue (text "cpu")),
  property "compatible" (stringValue (text "arm,cortex-a72")),
  property "reg" (be32 0)]

/-- The parent of the vCPU. -/
def cpus : DeviceTreeNode := ((DeviceTreeNode.new (text "cpus")).addProperties [
  property "#address-cells" (be32 1),
  property "#size-cells" (be32 0)]).addChild cpu

/-- One entry of `reg`. -/
def regEntry (entry : UInt64 × UInt64) : List UInt8 := be64 entry.1 ++ be64 entry.2

/-- All regions in one node, named after the first. -/
def memory (primaryBase : UInt64) : DeviceTreeNode :=
  (DeviceTreeNode.new (unitName "memory" primaryBase)).addProperties [
    property "device_type" (stringValue (text "memory")),
    property "reg" ((config.memoryRegions.map fun region =>
      (region.base, region.size)).flatMap regEntry)]

/-- The entries of its `reg`. -/
def GuestGicV2.entries (gic : GuestGicV2) : List (UInt64 × UInt64) :=
  [(gic.distributorBase, gic.distributorSize), (gic.cpuInterfaceBase, gic.cpuInterfaceSize)]

/-- The interrupt controller. -/
def intc (gic : GuestGicV2) : DeviceTreeNode :=
  (DeviceTreeNode.new (unitName "intc" gic.distributorBase)).addProperties [
    property "compatible" (stringValue (text "arm,cortex-a15-gic")),
    property "#interrupt-cells" (be32 3),
    property "interrupt-controller" [],
    property "phandle" (be32 gicPhandle),
    property "reg" (gic.entries.flatMap regEntry)]

/-- One entry of `interrupts`. -/
def interruptEntry (kind number flags : UInt32) : List UInt8 :=
  be32 kind ++ be32 number ++ be32 flags

/-- The four timer interrupts, as PPIs. -/
def timer : DeviceTreeNode := (DeviceTreeNode.new (text "timer")).addProperties [
  property "compatible" (stringValue (text "arm,armv8-timer")),
  property "interrupt-parent" (be32 gicPhandle),
  property "interrupts" ([13, 14, 11, 10].flatMap fun ppi => interruptEntry 1 ppi 4)]

def pl011ClockPhandle : UInt32 := 1

/-- The fixed clock of the UART. -/
def clock (pl011 : GuestPl011) : DeviceTreeNode :=
  (DeviceTreeNode.new (text "clk24mhz")).addProperties [
    property "compatible" (stringValue (text "fixed-clock")),
    property "#clock-cells" (be32 0),
    property "clock-frequency" (be32 pl011.clockHz),
    property "phandle" (be32 pl011ClockPhandle)]

/-- Where the construction can panic. -/
inductive BuildPanic where
  | indexOutOfBounds
  | subtractionUnderflow
  deriving DecidableEq, Repr

/-- `interrupt - GIC_SPI_BASE` -/
def spiNumber (interrupt : UInt32) : Except BuildPanic UInt32 :=
  if interrupt < gicSpiBase then throw .subtractionUnderflow else pure (interrupt - gicSpiBase)

/-- The properties of the UART; those of its interrupt only with an interrupt controller. -/
def uartProperties (pl011 : GuestPl011) (spi : Option UInt32) : List DeviceTreeProperty :=
  [property "compatible" (stringListValue [text "arm,pl011", text "arm,primecell"]),
    property "reg" ([(pl011.base, pl011.size)].flatMap regEntry),
    property "clocks" (be32 pl011ClockPhandle ++ be32 pl011ClockPhandle),
    property "clock-names" (stringListValue [text "uartclk", text "apb_pclk"])] ++
  (match spi with
    | none => []
    | some spi =>
        [property "interrupt-parent" (be32 gicPhandle),
          -- an SPI, level high
          property "interrupts" (interruptEntry 0 spi 4)]) ++
  [property "status" (stringValue (text "okay"))]

/-- The UART node; its SPI number is computed only with a controller. -/
def uart (pl011 : GuestPl011) : Except BuildPanic DeviceTreeNode := do
  let spi ← match config.gicv2 with
    | none => pure none
    | some _ => (spiNumber pl011.interrupt).map some
  pure ((DeviceTreeNode.new (unitName "serial" pl011.base)).addProperties
    (uartProperties pl011 spi))

/-- `memory_regions[0].base` -/
def primaryBase : Except BuildPanic UInt64 :=
  match config.memoryRegions with
  | [] => throw .indexOutOfBounds
  | region :: _ => pure region.base

/-- The controller and the timer come together. -/
def addGic (root : DeviceTreeNode) : Option GuestGicV2 → DeviceTreeNode
  | none => root
  | some gic => (root.addChild (intc gic)).addChild timer

/-- The whole tree, child by child. -/
def buildTree : Except BuildPanic DeviceTreeNode := do
  let root := (emptyRoot.addChild (chosen config)).addChild cpus
  let base ← primaryBase config
  let root := addGic (root.addChild (memory config base)) config.gicv2
  match config.pl011 with
  | none => pure root
  | some pl011 => do
      let uart ← uart config pl011
      pure ((root.addChild (clock pl011)).addChild uart)

/-! ## The tree of an accepted configuration -/

/-- What the construction needs of a configuration. -/
structure Accepted : Prop where
  regions : config.memoryRegions ≠ []
  spi : ∀ pl011, config.pl011 = some pl011 → config.gicv2.isSome → ¬ pl011.interrupt < gicSpiBase

variable {config} in
theorem accepted_of_validateConfig (h : validateConfig config = .ok ()) :
    Accepted config := by
  unfold validateConfig at h
  obtain ⟨_, hcount, h⟩ := bind_eq_ok.mp h
  obtain ⟨_, -, h⟩ := bind_eq_ok.mp h
  obtain ⟨_, hpl011, -⟩ := bind_eq_ok.mp h
  constructor
  · intro hempty
    rw [hempty] at hcount
    cases hcount
  · intro pl011 hsome hgic hlow
    rw [hsome] at hpl011
    simp only [validatePl011, hgic, hlow, and_self, or_true, if_true] at hpl011
    cases hpl011

/-- The number of the UART's SPI, where there is an interrupt controller. -/
def GuestFdtConfig.spi (config : GuestFdtConfig) (pl011 : GuestPl011) : Option UInt32 :=
  config.gicv2.map fun _ => pl011.interrupt - gicSpiBase

/-- The UART node, its SPI given. -/
def serial (pl011 : GuestPl011) : DeviceTreeNode :=
  (DeviceTreeNode.new (unitName "serial" pl011.base)).addProperties
    (uartProperties pl011 (config.spi pl011))

/-- The children of the root, in their order. -/
def nodes (base : UInt64) : List DeviceTreeNode :=
  [chosen config, cpus, memory config base] ++
    (match config.gicv2 with
      | none => []
      | some gic => [intc gic, timer]) ++
    (match config.pl011 with
      | none => []
      | some pl011 => [clock pl011, serial config pl011])

variable {config} in
theorem uart_eq (h : Accepted config) {pl011 : GuestPl011} (hpl011 : config.pl011 = some pl011) :
    uart config pl011 = .ok (serial config pl011) := by
  have hspi := h.spi pl011 hpl011
  unfold uart serial GuestFdtConfig.spi
  cases hgic : config.gicv2 with
  | none => rfl
  | some gic =>
    rw [hgic] at hspi
    rw [spiNumber, if_neg (hspi rfl)]
    rfl

/-! ## Names -/

variable {P : UInt8 → Prop} {name : String}

/-- The bytes of a number in hexadecimal. -/
theorem lowerHex_forall (h : ∀ digit : Fin 16, P (hexDigit digit)) (value : Nat) :
    ∀ byte ∈ lowerHex value, P byte := by
  unfold lowerHex
  split
  · simpa using h 0
  · intro byte hbyte
    obtain ⟨digit, hdigits, rfl⟩ := List.mem_map.mp hbyte
    have hlt : digit < 16 := Nat.digits_lt_base (by decide) (List.mem_reverse.mp hdigits)
    exact h ⟨digit, hlt⟩

theorem unitName_forall (hname : ∀ byte ∈ text name, P byte) (hat : P atSign)
    (hdigit : ∀ digit : Fin 16, P (hexDigit digit)) (base : UInt64) :
    ∀ byte ∈ unitName name base, P byte := by
  intro byte hbyte
  rcases List.mem_append.mp hbyte with hbyte | hbyte
  · exact hname byte hbyte
  rcases List.mem_cons.mp hbyte with rfl | hbyte
  · exact hat
  · exact lowerHex_forall hdigit base.toNat byte hbyte

theorem slash_notMem_unitName (h : ∀ byte ∈ text name, byte ≠ slash) (base : UInt64) :
    slash ∉ unitName name base :=
  fun hmem => unitName_forall h (by decide) (by decide) base slash hmem rfl

theorem takeWhile_unitName (h : atSign ∉ text name) (base : UInt64) :
    (unitName name base).takeWhile (· ≠ atSign) = text name := by
  have hname : ∀ byte ∈ text name, decide (byte ≠ atSign) = true := by
    intro byte hbyte
    simpa using ne_of_mem_of_not_mem hbyte h
  rw [unitName, List.takeWhile_append_of_pos hname, List.takeWhile_cons_of_neg (by simp),
    List.append_nil]

theorem chosen_name : (chosen config).name = text "chosen" := by
  unfold chosen
  cases config.pl011 <;> cases config.bootargs <;> rfl

theorem chosen_nameWithoutAddress : (chosen config).nameWithoutAddress = text "chosen" := by
  rw [DeviceTreeNode.nameWithoutAddress, chosen_name]
  rfl

theorem addProperties_name (node : DeviceTreeNode) (properties : List DeviceTreeProperty) :
    (node.addProperties properties).name = node.name := by
  unfold DeviceTreeNode.addProperties
  induction properties generalizing node with
  | nil => rfl
  | cons property rest ih => exact ih (node.addProperty property)

theorem serial_name (pl011 : GuestPl011) :
    (serial config pl011).name = unitName "serial" pl011.base := addProperties_name _ _

theorem nodes_nameWithoutAddress (base : UInt64) :
    (nodes config base).map DeviceTreeNode.nameWithoutAddress =
      [text "chosen", text "cpus", text "memory"] ++
        (if config.gicv2.isSome then [text "intc", text "timer"] else []) ++
        (if config.pl011.isSome then [text "clk24mhz", text "serial"] else []) := by
  have hmemory : (memory config base).nameWithoutAddress = text "memory" :=
    takeWhile_unitName (by decide) base
  have hintc : ∀ gic, (intc gic).nameWithoutAddress = text "intc" := fun gic =>
    takeWhile_unitName (by decide) gic.distributorBase
  have hserial (pl011) : (serial config pl011).nameWithoutAddress = text "serial" := by
    rw [DeviceTreeNode.nameWithoutAddress, serial_name]
    exact takeWhile_unitName (by decide) pl011.base
  unfold nodes
  cases config.gicv2 <;> cases config.pl011 <;>
    simp only [List.map_append, List.map_cons, List.map_nil, chosen_nameWithoutAddress, hmemory,
      hintc, hserial, Option.isSome_none, Option.isSome_some, if_true, Bool.false_eq_true,
      if_false] <;> rfl

theorem names_distinct (base : UInt64) :
    ((nodes config base).map DeviceTreeNode.name).Nodup := by
  have hkinds : (((nodes config base).map DeviceTreeNode.name).map
      (List.takeWhile (· ≠ atSign))).Nodup := by
    rw [List.map_map]
    show ((nodes config base).map DeviceTreeNode.nameWithoutAddress).Nodup
    rw [nodes_nameWithoutAddress]
    cases config.gicv2.isSome <;> cases config.pl011.isSome <;> decide
  exact .of_map _ hkinds

variable {config} in
theorem buildTree_eq (h : Accepted config) {base : UInt64} (hbase : primaryBase config = .ok base) :
    buildTree config = .ok { emptyRoot with children := nodes config base } := by
  have hadded : buildTree config =
      .ok ((nodes config base).foldl DeviceTreeNode.addChild emptyRoot) := by
    unfold buildTree nodes
    rw [hbase]
    cases config.gicv2 <;> cases hpl011 : config.pl011 with
    | none => rfl
    | some pl011 =>
      show (uart config pl011 >>= fun uart => _) = _
      rw [uart_eq h hpl011]
      rfl
  rw [hadded, DeviceTreeNode.foldl_addChild (names_distinct config base)]
  rfl

end Tvisor.GuestFdt
