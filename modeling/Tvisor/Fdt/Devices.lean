/-
# Tvisor.Fdt.Devices -- the console and the interrupt controller of the device tree

`discover_console` follows `/chosen/stdout-path` to the console, `discover_gic_v2` looks through the
whole tree for the interrupt controller. Both take bus addresses from `reg` and translate them
through the `ranges` of every bus on the path of the device.

The tree is what the device-tree library gives out: nodes with their names, their decoded properties
and their children. Texts are their UTF-8 bytes. `findNode` resolves a path as the library does, a
component without unit address matching any. The two translations of the source differ in their
errors only; `BusErrors` holds them.
-/
import Tvisor.Fdt.UbootArgs
import Tvisor.Lib.Cells
import Tvisor.Platform

namespace Tvisor.Fdt

open Cells (decodeBe)
open Fallible (okOr)
open Platform (FdtError Status Reg Range)
open SystemInfo Words

/-! ## The tree -/

/-- What the source asks of a node. -/
structure DeviceNode where
  name : List UInt8
  compatible : List (List UInt8)
  status : Except FdtError Status
  reg : Except FdtError (Option (List Reg))
  ranges : Except FdtError (Option (List Range))
  /-- The value of `interrupts`. -/
  interrupts : Option (List UInt8)
  /-- The properties that are read as texts. -/
  texts : List (List UInt8 × Except FdtError (List UInt8))
  children : List DeviceNode

def slash : UInt8 := '/'.toUInt8
def atSign : UInt8 := '@'.toUInt8
def colon : UInt8 := ':'.toUInt8

/-- The path of the root. -/
def rootPath : List UInt8 := [slash]

namespace DeviceNode

/-- One of the compatible strings is the filter. -/
def isCompatible (node : DeviceNode) (filter : List UInt8) : Bool := node.compatible.contains filter

/-- The name up to the unit address. -/
def nameWithoutAddress (node : DeviceNode) : List UInt8 := node.name.takeWhile (· ≠ atSign)

/-- `property(name)` and then `as_str` -/
def text (node : DeviceNode) (name : List UInt8) : Option (Except FdtError (List UInt8)) :=
  node.texts.lookup name

/-- A name without a unit address finds a child with any. -/
def child (node : DeviceNode) (name : List UInt8) : Option DeviceNode :=
  node.children.find? fun child =>
    if name.contains atSign then child.name == name else child.nameWithoutAddress == name

/-- `Fdt::find_node`, from the root. -/
def findNode (root : DeviceNode) (path : List UInt8) : Option DeviceNode :=
  if path.head? ≠ some slash then none
  else ((path.splitOn slash).filter (· ≠ [])).foldlM child root

end DeviceNode

/-! ## Paths and buses -/

/-- The path up to its last slash; the root has no parent. -/
def parentPath (path : List UInt8) : Option (List UInt8) :=
  if path = rootPath ∨ path.head? ≠ some slash then none
  else match (path.reverse.dropWhile (· ≠ slash)).tail.reverse with
    | [] => some rootPath
    | before => some before

theorem length_parentPath {path up : List UInt8} (h : parentPath path = some up) :
    up.length < path.length := by
  unfold parentPath at h
  split_ifs at h with hroot
  obtain ⟨hne, hhead⟩ := not_or.mp hroot
  have hdrop : (path.reverse.dropWhile (· ≠ slash)).length ≤ path.length := by
    simpa using (List.dropWhile_suffix (l := path.reverse) (· ≠ slash)).length_le
  obtain ⟨rest, rfl⟩ : ∃ rest, path = slash :: rest := by
    cases path with
    | nil => simp at hhead
    | cons first rest =>
      have hfirst : first = slash := by simpa using hhead
      exact ⟨rest, by rw [hfirst]⟩
  split at h
  · cases h
    cases rest with
    | nil => exact absurd rfl hne
    | cons second rest => simp [rootPath]
  · next hnil =>
      cases h
      rw [List.length_reverse, List.length_tail, List.length_cons] at *
      omega

/-- The errors of one translation. -/
structure BusErrors (ε : Type) where
  missingParent : ε
  missingRanges : ε
  addressNotMapped : ε
  addressOverflow : ε

variable {ε : Type}

/-- The loop over the entries of `ranges`. -/
def scanRanges (e : BusErrors ε) : List Range → Nat → Except ε (Option Nat)
  | [], _ => .ok none
  | range :: rest, address => do
      let child ← range.childBusAddress.mapError fun _ => e.addressOverflow
      let parent ← range.parentBusAddress.mapError fun _ => e.addressOverflow
      let length ← range.length.mapError fun _ => e.addressOverflow
      match checkedSub address child with
      | none => scanRanges e rest address
      | some offset =>
          if length ≤ offset then scanRanges e rest address
          else (okOr e.addressOverflow (checkedAdd parent offset)).map some

/-- One bus: an empty `ranges` keeps the address. -/
def translateThrough (e : BusErrors ε) (ranges : List Range) (address : Nat) : Except ε Nat :=
  if ranges.isEmpty then .ok address
  else do
    let translated ← scanRanges e ranges address
    okOr e.addressNotMapped translated

/-- The entries of `ranges` of the bus at a path. -/
def busRanges (e : BusErrors ε) (root : DeviceNode) (busPath : List UInt8) :
    Except ε (List Range) := do
  let bus ← okOr e.missingParent (root.findNode busPath)
  let ranges ← bus.ranges.mapError fun _ => e.missingRanges
  okOr e.missingRanges ranges

/-- `while bus_path != "/"` -/
def translateFrom (e : BusErrors ε) (root : DeviceNode) (busPath : List UInt8) (address : Nat) :
    Except ε Nat :=
  if busPath = rootPath then .ok address
  else do
    let ranges ← busRanges e root busPath
    let address ← translateThrough e ranges address
    match h : parentPath busPath with
    | none => .error e.missingParent
    | some up =>
        have := length_parentPath h
        translateFrom e root up address
termination_by busPath.length

/-- From the bus of a device up to the CPU. -/
def translateAddress (e : BusErrors ε) (root : DeviceNode) (devicePath : List UInt8)
    (address : Nat) : Except ε Nat := do
  let busPath ← okOr e.missingParent (parentPath devicePath)
  translateFrom e root busPath address

/-! ## The console -/

/-- Why there is no console. -/
inductive ConsoleDiscoveryError where
  | missingChosen
  | missingStdoutPath
  | invalidStdoutPath
  | missingAliases
  | missingAlias
  | missingConsoleNode
  | consoleDisabled
  | unsupportedConsole
  | missingRegister
  | invalidRegister
  | missingInterrupt
  | invalidInterrupt
  | missingParent
  | missingRanges
  | addressNotMapped
  | addressOverflow
  deriving DecidableEq, Repr

namespace ConsoleKind

end ConsoleKind

/-- A level-high SPI, as its GIC number. -/
def decodeConsoleGicSpi (interrupts : List UInt8) : Except ConsoleDiscoveryError Nat := do
  (if interrupts.length < 12 then throw .missingInterrupt else pure ())
  let interruptType := decodeBe (interrupts.take 4)
  let interruptNumber := decodeBe ((interrupts.drop 4).take 4)
  let interruptFlags := decodeBe ((interrupts.drop 8).take 4)
  (if interruptType ≠ 0 ∨ interruptFlags ≠ 4 then throw .invalidInterrupt else pure ())
  -- An addition that leaves 32 bits is not below 1020 either.
  if interruptNumber + 32 < 1020 then pure (interruptNumber + 32) else throw .invalidInterrupt

/-- The path in `stdout-path`, or the one that its alias stands for. -/
def resolveStdoutPath (root : DeviceNode) : Except ConsoleDiscoveryError (List UInt8) := do
  let chosen ← okOr .missingChosen (root.findNode (ascii "/chosen".toList))
  let stdoutPath ← okOr .missingStdoutPath (chosen.text (ascii "stdout-path".toList))
  let stdoutPath ← stdoutPath.mapError fun _ => .invalidStdoutPath
  let selector := stdoutPath.takeWhile (· ≠ colon)
  (if selector = [] then throw .invalidStdoutPath else pure ())
  if selector.head? = some slash then pure selector
  else do
    let aliases ← okOr .missingAliases (root.findNode (ascii "/aliases".toList))
    let value ← okOr .missingAlias (aliases.text selector)
    value.mapError fun _ => .missingAlias

/-- What the driver uses of each interface. -/
def requiredGicdSize : Nat := 0xf04
def requiredGiccSize : Nat := 0x1004
def requiredGichSize : Nat := 0x108
def requiredGicvSize : Nat := 0x1004

/-- The interfaces in the order of `reg`, each of the size that is needed. -/
structure GicV2Info where
  distributor : PhysRegion
  cpuInterface : PhysRegion
  hypervisorInterface : PhysRegion
  virtualCpuInterface : PhysRegion
  distributor_size : requiredGicdSize ≤ distributor.size
  cpuInterface_size : requiredGiccSize ≤ cpuInterface.size
  hypervisorInterface_size : requiredGichSize ≤ hypervisorInterface.size
  virtualCpuInterface_size : requiredGicvSize ≤ virtualCpuInterface.size

namespace GicV2Info

/-- Refuses an interface that is too small. -/
def new (distributor cpuInterface hypervisorInterface virtualCpuInterface : PhysRegion) :
    Option GicV2Info :=
  if h : requiredGicdSize ≤ distributor.size ∧ requiredGiccSize ≤ cpuInterface.size ∧
      requiredGichSize ≤ hypervisorInterface.size ∧
      requiredGicvSize ≤ virtualCpuInterface.size then
    some ⟨distributor, cpuInterface, hypervisorInterface, virtualCpuInterface, h.1, h.2.1,
      h.2.2.1, h.2.2.2⟩
  else none

/-- The four interfaces. -/
def regions (info : GicV2Info) : List PhysRegion :=
  [info.distributor, info.cpuInterface, info.hypervisorInterface, info.virtualCpuInterface]

theorem regions_of_new {d c h v : PhysRegion} {info : GicV2Info} (hnew : new d c h v = some info) :
    info.regions = [d, c, h, v] := by
  unfold new at hnew
  split_ifs at hnew
  cases hnew
  rfl

end GicV2Info

/-- Why there is no interrupt controller. -/
inductive GicV2DiscoveryError where
  | missingController
  | disabledController
  | invalidRegister
  | missingRegister
  | invalidRegion
  | missingParent
  | missingRanges
  | addressNotMapped
  | addressOverflow
  | pathTooLong
  deriving DecidableEq, Repr

/-- The path buffer of the search. -/
def maxFdtPath : Nat := 256

/-- The bus errors as errors of the controller. -/
def gicErrors : BusErrors GicV2DiscoveryError where
  missingParent := .missingParent
  missingRanges := .missingRanges
  addressNotMapped := .addressNotMapped
  addressOverflow := .addressOverflow

/-- `translate_address` of the controller. -/
def translateGicToCpuAddress : DeviceNode → List UInt8 → Nat → Except GicV2DiscoveryError Nat :=
  translateAddress gicErrors

/-- One round of the loop over the four interfaces. -/
def gicRegion (root : DeviceNode) (path : List UInt8) (register : Option Reg) :
    Except GicV2DiscoveryError PhysRegion := do
  let register ← okOr .missingRegister register
  let address ← register.address.mapError fun _ => .invalidRegister
  let size ← register.size.mapError fun _ => .invalidRegister
  let address ← translateGicToCpuAddress root path address
  (PhysRegion.new address size).mapError fun _ => .invalidRegion

/-- The four interfaces of a controller, in the order of `reg`. -/
def decodeGicV2 (root node : DeviceNode) (path : List UInt8) :
    Except GicV2DiscoveryError GicV2Info := do
  let registers ← node.reg.mapError fun _ => .invalidRegister
  let registers ← okOr .missingRegister registers
  let distributor ← gicRegion root path registers[0]?
  let cpuInterface ← gicRegion root path registers[1]?
  let hypervisorInterface ← gicRegion root path registers[2]?
  let virtualCpuInterface ← gicRegion root path registers[3]?
  okOr .invalidRegion
    (GicV2Info.new distributor cpuInterface hypervisorInterface virtualCpuInterface)

/-- Either of the strings that the driver knows. -/
def isGicV2 (node : DeviceNode) : Bool :=
  node.isCompatible (ascii "arm,gic-400".toList) ||
    node.isCompatible (ascii "arm,cortex-a15-gic".toList)

/-- The path of a child; that of the root has its slash already. -/
def childPath (path name : List UInt8) : List UInt8 :=
  if path.length = 1 then path ++ name else path ++ slash :: name

mutual

/-- The first controller in depth-first order; it decides, even if it is disabled. -/
def findGicV2 (root : DeviceNode) (node : DeviceNode) (path : List UInt8) :
    Except GicV2DiscoveryError (Option GicV2Info) :=
  match node with
  | ⟨name, compatible, status, reg, ranges, interrupts, texts, children⟩ =>
    let node : DeviceNode :=
      ⟨name, compatible, status, reg, ranges, interrupts, texts, children⟩
    if isGicV2 node then do
      let status ← status.mapError fun _ => .disabledController
      (if status ≠ .okay then throw .disabledController else pure ())
      (decodeGicV2 root node path).map some
    else findGicV2Among root children path

/-- `for child in node.children()` -/
def findGicV2Among (root : DeviceNode) (children : List DeviceNode) (path : List UInt8) :
    Except GicV2DiscoveryError (Option GicV2Info) :=
  match children with
  | [] => .ok none
  | child :: rest =>
    if maxFdtPath < (childPath path child.name).length then .error .pathTooLong
    else do
      match ← findGicV2 root child (childPath path child.name) with
      | some info => pure (some info)
      | none => findGicV2Among root rest path

end

/-- The search from the root. -/
def discoverGicV2 (root : DeviceNode) : Except GicV2DiscoveryError GicV2Info := do
  let found ← findGicV2 root root rootPath
  okOr .missingController found

end Tvisor.Fdt
