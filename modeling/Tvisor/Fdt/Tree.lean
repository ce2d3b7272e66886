/-
# Tvisor.Fdt.Tree -- device trees that are built and read back

The device-tree library of the source has two sides. Its mutable model keeps the properties and the
children of a node in the order of their insertion, each under its name. Its reader gives the values
of properties through accessors: a word, a text, a list of texts, an array of records whose fields
are counted in cells.

Here both sides are about one kind of tree. That writing a tree to bytes and parsing them gives the
tree back is taken for granted, so the readers of the source see the tree that was built, through
the accessors: `view` is the tree of `discover_console` and `discover_gic_v2`, `cpuTree` that of
`discover_cpu_topology`. Names and texts are UTF-8 bytes, as in the rest of this directory.
-/
import Tvisor.CpuTopology.Discovery
import Tvisor.Fdt.Devices
import Tvisor.Lib.Cells

namespace Tvisor.Fdt

open Cells
open CpuTopology (CpuTree CpusNode CpuNode CpuReg RootChild)
open Platform (FdtError Status Reg Range)

/-! ## The mutable model -/

structure DeviceTreeProperty where
  name : List UInt8
  value : List UInt8
  deriving DecidableEq, Repr

structure DeviceTreeNode where
  name : List UInt8
  properties : List DeviceTreeProperty
  children : List DeviceTreeNode

/-- `IndexMap::insert`: a value under the same name is replaced where it stands. -/
def insertNamed {α : Type} (name : α → List UInt8) (x : α) : List α → List α
  | [] => [x]
  | y :: ys => if name y = name x then x :: ys else y :: insertNamed name x ys

theorem insertNamed_of_new {α : Type} {name : α → List UInt8} {x : α} {xs : List α}
    (h : name x ∉ xs.map name) : insertNamed name x xs = xs ++ [x] := by
  induction xs with
  | nil => rfl
  | cons y ys ih =>
    obtain ⟨hy, hys⟩ := not_or.mp (mt List.mem_cons.mpr h)
    rw [insertNamed, if_neg (Ne.symm hy), ih hys, List.cons_append]

namespace DeviceTreeNode

/-- `new_unchecked` -/
def new (name : List UInt8) : DeviceTreeNode := ⟨name, [], []⟩

def addProperty (node : DeviceTreeNode) (property : DeviceTreeProperty) : DeviceTreeNode :=
  { node with properties := insertNamed DeviceTreeProperty.name property node.properties }

/-- Properties added in this order. -/
def addProperties (node : DeviceTreeNode) (properties : List DeviceTreeProperty) : DeviceTreeNode :=
  properties.foldl addProperty node

def addChild (node child : DeviceTreeNode) : DeviceTreeNode :=
  { node with children := insertNamed DeviceTreeNode.name child node.children }

/-- Children with distinct names stand in the order of their insertion. -/
theorem foldl_addChild {node : DeviceTreeNode} {children : List DeviceTreeNode}
    (h : ((node.children ++ children).map DeviceTreeNode.name).Nodup) :
    children.foldl addChild node = { node with children := node.children ++ children } := by
  induction children generalizing node with
  | nil =>
    rcases node with ⟨name, properties, children⟩
    simp
  | cons child rest ih =>
    have hnew : child.name ∉ node.children.map DeviceTreeNode.name := by
      rw [List.map_append, List.map_cons] at h
      exact fun hmem => List.disjoint_of_nodup_append h hmem List.mem_cons_self
    have hadd : node.addChild child = { node with children := node.children ++ [child] } := by
      rw [addChild, insertNamed_of_new hnew]
    rw [List.foldl_cons, hadd, ih (by simpa using h)]
    simp

/-- The value of a property. -/
def property (node : DeviceTreeNode) (name : List UInt8) : Option (List UInt8) :=
  (node.properties.find? fun property => property.name = name).map DeviceTreeProperty.value

def nameWithoutAddress (node : DeviceTreeNode) : List UInt8 := node.name.takeWhile (· ≠ atSign)

end DeviceTreeNode

/-! ## Values -/

def asU32 (value : List UInt8) : Except FdtError UInt32 :=
  if value.length = 4 then .ok (UInt32.ofNat (decodeBe value)) else .error .malformed

def asU64 (value : List UInt8) : Except FdtError UInt64 :=
  if value.length = 8 then .ok (UInt64.ofNat (decodeBe value)) else .error .malformed

/-- `str::from_utf8` -/
def fromUtf8 (bytes : List UInt8) : Option String := String.fromUTF8? ⟨bytes.toArray⟩

/-- The bytes of a text. -/
def toBytes (text : String) : List UInt8 := text.toByteArray.data.toList

/-- One terminator, at the end. -/
def asStr (value : List UInt8) : Except FdtError String :=
  if value.getLast? = some 0 ∧ 0 ∉ value.dropLast then
    match fromUtf8 value.dropLast with
    | some text => .ok text
    | none => .error .malformed
  else .error .malformed

/-- Bytes below 128 are a text. -/
theorem fromUtf8_ascii {bytes : List UInt8} (h : ∀ byte ∈ bytes, byte < 128) :
    ∃ text, fromUtf8 bytes = some text ∧ toBytes text = bytes := by
  have hchar : ∀ byte : UInt8, byte < 128 → String.utf8EncodeChar (Char.ofUInt8 byte) = [byte] := by
    intro byte hbyte
    have hsize : (Char.ofUInt8 byte).utf8Size = 1 := by
      refine Char.utf8Size_eq_one_iff.mpr (UInt32.le_iff_toNat_le.mpr ?_)
      exact Nat.le_of_lt_succ (UInt8.lt_iff_toNat_lt.mp hbyte)
    rw [String.utf8EncodeChar_eq_singleton hsize]
    show [byte.toUInt32.toUInt8] = [byte]
    rw [UInt8.toUInt8_toUInt32]
  have hencode : (bytes.map Char.ofUInt8).flatMap String.utf8EncodeChar = bytes := by
    rw [List.flatMap_map, List.flatMap_congr fun byte hbyte => hchar byte (h byte hbyte)]
    simp
  have hvalid : ByteArray.IsValidUTF8 ⟨bytes.toArray⟩ := by
    refine .intro (bytes.map Char.ofUInt8) ?_
    rw [List.utf8Encode, hencode]
    exact ByteArray.ext List.data_toByteArray.symm
  exact ⟨String.fromUTF8 _ hvalid, dif_pos hvalid, rfl⟩

/-- A terminated text is read back. -/
theorem asStr_terminated {bytes : List UInt8} (h : ∀ byte ∈ bytes, byte ≠ 0 ∧ byte < 128) :
    (asStr (bytes ++ [0])).map toBytes = .ok bytes := by
  obtain ⟨text, htext, hbytes⟩ := fromUtf8_ascii fun byte hbyte => (h byte hbyte).2
  have hzero : 0 ∉ bytes := fun hmem => (h 0 hmem).1 rfl
  rw [asStr, List.dropLast_concat, List.getLast?_concat, if_pos ⟨rfl, hzero⟩, htext, ← hbytes]
  rfl

/-- The terminated parts of a value, from the bytes of the part that has begun. -/
def splitNul : List UInt8 → List UInt8 → List (List UInt8)
  | _, [] => []
  | begun, byte :: rest =>
      if byte = 0 then begun.reverse :: splitNul [] rest else splitNul (byte :: begun) rest

/-- A part that is no text ends the list. -/
def textsOf : List (List UInt8) → List String
  | [] => []
  | part :: rest =>
      match fromUtf8 part with
      | some text => text :: textsOf rest
      | none => []

def asStrList (value : List UInt8) : List String := textsOf (splitNul [] value)

/-- `Cells::to_int` for 64 bits. -/
def toInt (cells : List UInt8) : Except FdtError Nat :=
  if 8 < cells.length then .error .malformed
  else .ok ((chunks 4 (cells.length / 4) cells).foldl (fun value cell =>
    value <<< 32 ||| decodeBe cell) 0)

/-- The fields of a record, each a number of cells. -/
def splitFields : List Nat → List UInt8 → List (List UInt8)
  | [], _ => []
  | cells :: rest, bytes => bytes.take (4 * cells) :: splitFields rest (bytes.drop (4 * cells))

def asPropEncodedArray (fieldsCells : List Nat) (value : List UInt8) :
    Except FdtError (List (List (List UInt8))) :=
  let chunkCells := fieldsCells.sum
  let chunkBytes := chunkCells * 4
  if chunkCells = 0 ∨ value.length % chunkBytes ≠ 0 then .error .malformed
  else .ok ((chunks chunkBytes (value.length / chunkBytes) value).map (splitFields fieldsCells))

def parseStatus (text : String) : Except FdtError Status :=
  if text = "okay" then .ok .okay
  else if text = "disabled" then .ok .disabled
  else if text = "reserved" then .ok .reserved
  else if text = "fail" then .ok .fail
  else if text = "fail-sss" then .ok .failSss
  else .error .malformed

/-! ## The reader -/

/-- The cells that a node gives the `reg` of its children. -/
structure AddressSpace where
  addressCells : Nat
  sizeCells : Nat
  deriving DecidableEq, Repr

def defaultAddressSpace : AddressSpace := ⟨2, 1⟩

namespace DeviceTreeNode

def cellsOr (node : DeviceTreeNode) (name : List UInt8) (default : Nat) : Nat :=
  match node.property name with
  | none => default
  | some value =>
      match asU32 value with
      | .ok cells => cells.toNat
      | .error _ => default

def addressSpace (node : DeviceTreeNode) : AddressSpace where
  addressCells := node.cellsOr (ascii "#address-cells".toList) defaultAddressSpace.addressCells
  sizeCells := node.cellsOr (ascii "#size-cells".toList) defaultAddressSpace.sizeCells

def compatible (node : DeviceTreeNode) : List String :=
  match node.property (ascii "compatible".toList) with
  | none => []
  | some value => asStrList value

def status (node : DeviceTreeNode) : Except FdtError Status :=
  match node.property (ascii "status".toList) with
  | none => .ok .okay
  | some value => do parseStatus (← asStr value)

def regOf : List (List UInt8) → Reg
  | [address, size] => ⟨toInt address, toInt size⟩
  | _ => ⟨.error .malformed, .error .malformed⟩

def reg (parent : AddressSpace) (node : DeviceTreeNode) : Except FdtError (Option (List Reg)) :=
  match node.property (ascii "reg".toList) with
  | none => .ok none
  | some value => do
      let records ← asPropEncodedArray [parent.addressCells, parent.sizeCells] value
      return some (records.map regOf)

def rangeOf : List (List UInt8) → Range
  | [child, parent, length] => ⟨toInt child, toInt parent, toInt length⟩
  | _ => ⟨.error .malformed, .error .malformed, .error .malformed⟩

def ranges (parent : AddressSpace) (node : DeviceTreeNode) :
    Except FdtError (Option (List Range)) :=
  match node.property (ascii "ranges".toList) with
  | none => .ok none
  | some value => do
      let records ← asPropEncodedArray
        [node.addressSpace.addressCells, parent.addressCells, node.addressSpace.sizeCells] value
      return some (records.map rangeOf)

def texts (node : DeviceTreeNode) : List (List UInt8 × Except FdtError (List UInt8)) :=
  node.properties.map fun property => (property.name, (asStr property.value).map toBytes)

end DeviceTreeNode

mutual

/-- The node as the discovery of devices reads it. -/
def view (parent : AddressSpace) : DeviceTreeNode → DeviceNode
  | ⟨name, properties, children⟩ =>
      let node : DeviceTreeNode := ⟨name, properties, children⟩
      { name
        compatible := node.compatible.map toBytes
        status := node.status
        reg := node.reg parent
        ranges := node.ranges parent
        interrupts := node.property (ascii "interrupts".toList)
        texts := node.texts
        children := viewAll node.addressSpace children }

def viewAll (parent : AddressSpace) : List DeviceTreeNode → List DeviceNode
  | [] => []
  | child :: rest => view parent child :: viewAll parent rest

end

theorem viewAll_eq (parent : AddressSpace) (children : List DeviceTreeNode) :
    viewAll parent children = children.map (view parent) := by
  induction children with
  | nil => rfl
  | cons child rest ih => rw [viewAll, ih, List.map_cons]

@[simp] theorem view_name (parent : AddressSpace) (node : DeviceTreeNode) :
    (view parent node).name = node.name := by
  rcases node with ⟨name, properties, children⟩
  rfl

@[simp] theorem view_reg (parent : AddressSpace) (node : DeviceTreeNode) :
    (view parent node).reg = node.reg parent := by
  rcases node with ⟨name, properties, children⟩
  rfl

@[simp] theorem view_interrupts (parent : AddressSpace) (node : DeviceTreeNode) :
    (view parent node).interrupts = node.property (ascii "interrupts".toList) := by
  rcases node with ⟨name, properties, children⟩
  rfl

@[simp] theorem view_texts (parent : AddressSpace) (node : DeviceTreeNode) :
    (view parent node).texts = node.texts := by
  rcases node with ⟨name, properties, children⟩
  rfl

@[simp] theorem view_children (parent : AddressSpace) (node : DeviceTreeNode) :
    (view parent node).children = node.children.map (view node.addressSpace) := by
  rcases node with ⟨name, properties, children⟩
  exact viewAll_eq _ children

/-- Distinct names of siblings, at every node of a tree. -/
inductive DeviceTreeNode.Distinct : DeviceTreeNode → Prop
  | intro {node : DeviceTreeNode} (names : (node.children.map DeviceTreeNode.name).Nodup)
      (below : ∀ child ∈ node.children, Distinct child) : Distinct node

/-! ## Paths -/

/-- A path of one component is looked up among the children of the root. -/
theorem findNode_component (root : DeviceNode) {name : List UInt8} (hne : name ≠ [])
    (hslash : slash ∉ name) : root.findNode (slash :: name) = root.child name := by
  have hsingle : name.splitOn slash = [name] :=
    List.splitOnP_eq_singleton fun byte hbyte => beq_false_of_ne (ne_of_mem_of_not_mem hbyte hslash)
  have hsplit : (slash :: name).splitOn slash = [] :: [name] := by
    rw [← hsingle]
    exact List.splitOnP_append_cons [] name (beq_self_eq_true slash)
  rw [DeviceNode.findNode, if_neg (by simp), hsplit]
  simp [hne]

/-- A child is found under its own name, where that has a unit address. -/
theorem child_of_mem {root child : DeviceNode} (hmem : child ∈ root.children)
    (hnames : (root.children.map DeviceNode.name).Nodup) (haddress : atSign ∈ child.name) :
    root.child child.name = some child := by
  have hcontains : child.name.contains atSign = true := List.contains_iff_mem.mpr haddress
  simp only [DeviceNode.child, hcontains, if_true]
  cases hfound : root.children.find? (fun other => other.name == child.name) with
  | none => simpa using List.find?_eq_none.mp hfound child hmem
  | some other =>
    have hname : other.name = child.name := by simpa using List.find?_some hfound
    rw [List.inj_on_of_nodup_map hnames (List.mem_of_find?_eq_some hfound) hmem hname]

/-! ## The CPUs -/

/-- A name is a text. -/
def nameText (name : List UInt8) : String := (fromUtf8 name).getD ""

def cpuNode (node : DeviceTreeNode) : CpuNode where
  nameWithoutAddress := nameText node.nameWithoutAddress
  deviceType := (node.property (ascii "device_type".toList)).map asStr
  status := node.status
  reg := (node.property (ascii "reg".toList)).map fun value => ⟨asU32 value, asU64 value⟩
  enableMethod := (node.property (ascii "enable-method".toList)).map asStr
  cpuReleaseAddr := (node.property (ascii "cpu-release-addr".toList)).map asU64

def cpusNode (node : DeviceTreeNode) : CpusNode where
  status := node.status
  addressCells := (node.property (ascii "#address-cells".toList)).map asU32
  sizeCells := (node.property (ascii "#size-cells".toList)).map asU32
  children := node.children.map cpuNode

def rootChild (node : DeviceTreeNode) : RootChild where
  nameWithoutAddress := nameText node.nameWithoutAddress
  compatible := node.compatible
  status := node.status
  method := (node.property (ascii "method".toList)).map asStr
  cpuOn := (node.property (ascii "cpu_on".toList)).map asU32

/-- The tree as the discovery of CPUs reads it; `/cpus` is the first child with this name. -/
def cpuTree (root : DeviceTreeNode) : CpuTree where
  cpus := (root.children.find? fun child =>
    child.nameWithoutAddress = ascii "cpus".toList).map cpusNode
  children := root.children.map rootChild

end Tvisor.Fdt
