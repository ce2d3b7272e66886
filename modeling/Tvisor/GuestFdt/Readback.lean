/-
# Tvisor.GuestFdt.Readback -- the guest's tree as the parsers of this repository read it

The writer of the guest's tree and the parsers of the host's tree are separate code. Here the
parsers are given the guest's tree: the library's `reg` with the cells of the root, the decoder of
a console interrupt, the discovery of CPUs and the resolution of the console's path.

The first three read what was configured (`guest_tree_says_config`). The last does not: the path is
written as a bare name, which the resolver takes for an alias, and the tree has no aliases.
-/
import Tvisor.GuestFdt

namespace Tvisor.GuestFdt

open Cells Fallible Words
open Fdt (ascii atSign slash DeviceTreeNode DeviceTreeProperty DeviceNode view AddressSpace
  defaultAddressSpace asPropEncodedArray splitFields toInt)
open CpuTopology (CpuTree RootChild CpuDescriptor Topology)
open Platform (FdtError Reg)

/-! ## `reg` -/

variable {node : DeviceTreeNode}

/-- A word joined from its two cells. -/
theorem join_cells {value : Nat} (h : value < 2 ^ 64) :
    (value / 256 ^ 4 % 256 ^ 4) <<< 32 ||| value % 256 ^ 4 = value := by
  have hcell : (256 : Nat) ^ 4 = 2 ^ 32 := by norm_num
  have hhigh : value / 2 ^ 32 < 2 ^ 32 := Nat.div_lt_of_lt_mul (by rwa [← pow_add])
  rw [hcell, Nat.mod_eq_of_lt hhigh, Nat.shiftLeft_eq,
    lor_eq_add 32 (Nat.mul_mod_left _ _) (Nat.mod_lt _ (Nat.two_pow_pos 32)), Nat.div_add_mod']

theorem toInt_be64 (value : UInt64) : toInt (be64 value) = .ok value.toNat := by
  have hcells : be64 value = [value.toNat / 256 ^ 4, value.toNat].flatMap (encodeBe 4) := by
    rw [be64, encodeBe_add 4 4]
    simp
  have hchunks : chunks 4 2 (be64 value) =
      [value.toNat / 256 ^ 4, value.toNat].map (encodeBe 4) := by
    rw [hcells]
    exact chunks_flatMap (length_encodeBe 4) [value.toNat / 256 ^ 4, value.toNat]
  have hlength : (be64 value).length = 8 := length_encodeBe 8 _
  rw [toInt, if_neg (by omega), hlength, hchunks]
  simp only [List.map_cons, List.map_nil, List.foldl_cons, List.foldl_nil, decodeBe_encodeBe,
    Nat.zero_shiftLeft, Nat.zero_or]
  rw [join_cells value.toNat_lt]

theorem length_regEntry (entry : UInt64 × UInt64) : (regEntry entry).length = 16 := by
  simp [regEntry, be64]

/-- An array of entries with two cells for each number. -/
theorem asPropEncodedArray_entries (entries : List (UInt64 × UInt64)) :
    asPropEncodedArray [2, 2] (entries.flatMap regEntry) =
      .ok (entries.map fun entry => [be64 entry.1, be64 entry.2]) := by
  have hlength := length_flatMap length_regEntry entries
  have hfields : ∀ entry, splitFields [2, 2] (regEntry entry) = [be64 entry.1, be64 entry.2] := by
    intro entry
    have hfirst : (be64 entry.1).length = 8 := length_encodeBe 8 _
    have hsecond : (be64 entry.2).length = 8 := length_encodeBe 8 _
    simp only [splitFields, regEntry, List.take_left' hfirst, List.drop_left' hfirst]
    rw [List.take_of_length_le (by omega)]
  have hcount : 16 * entries.length / 16 = entries.length := by omega
  rw [asPropEncodedArray]
  simp only [List.sum_cons, List.sum_nil, hlength, Nat.reduceAdd, Nat.reduceMul, hcount,
    Nat.mul_mod_right, chunks_flatMap length_regEntry, List.map_map, Function.comp_def, hfields]
  rfl

/-- An entry as a reader sees it. -/
def regOfEntry (entry : UInt64 × UInt64) : Reg := ⟨.ok entry.1.toNat, .ok entry.2.toNat⟩

theorem reg_entries {entries : List (UInt64 × UInt64)}
    (h : node.property (text "reg") = some (entries.flatMap regEntry)) :
    node.reg ⟨2, 2⟩ = .ok (some (entries.map regOfEntry)) := by
  have hproperty : node.property (ascii "reg".toList) = some (entries.flatMap regEntry) := h
  have hregs : (entries.map fun entry => [be64 entry.1, be64 entry.2]).map DeviceTreeNode.regOf =
      entries.map regOfEntry := by
    rw [List.map_map]
    refine List.map_congr_left fun entry _ => ?_
    show (⟨toInt (be64 entry.1), toInt (be64 entry.2)⟩ : Reg) = regOfEntry entry
    rw [toInt_be64, toInt_be64, regOfEntry]
  simp only [DeviceTreeNode.reg, hproperty, asPropEncodedArray_entries]
  rw [← hregs]
  rfl

/-! ## The interrupt of the console -/

/-- An interrupt that is written as an SPI is decoded to its number. -/
theorem decodeConsoleGicSpi_entry {interrupt : UInt32} (hlow : ¬ interrupt < gicSpiBase)
    (hhigh : interrupt < 1020) :
    Fdt.decodeConsoleGicSpi (interruptEntry 0 (interrupt - gicSpiBase) 4) =
      .ok interrupt.toNat := by
  have hle : 32 ≤ interrupt.toNat := Nat.le_of_not_lt fun h => hlow (UInt32.lt_iff_toNat_lt.mpr h)
  have hlt : interrupt.toNat < 1020 := UInt32.lt_iff_toNat_lt.mp hhigh
  have hspi : (interrupt - gicSpiBase).toNat = interrupt.toNat - 32 :=
    UInt32.toNat_sub_of_le interrupt gicSpiBase (UInt32.le_iff_toNat_le.mpr hle)
  have hlength : ∀ value : UInt32, (be32 value).length = 4 := fun _ => length_encodeBe 4 _
  have hvalue : ∀ value : UInt32, decodeBe (be32 value) = value.toNat := by
    intro value
    have hvalue : value.toNat < 256 ^ 4 := value.toNat_lt
    rw [be32, decodeBe_encodeBe, Nat.mod_eq_of_lt hvalue]
  -- The entry is three cells: the kind, the number and the flags.
  have hkind : (interruptEntry 0 (interrupt - gicSpiBase) 4).take 4 = be32 0 := by
    rw [interruptEntry, List.append_assoc]
    exact List.take_left' (hlength 0)
  have hnumber : ((interruptEntry 0 (interrupt - gicSpiBase) 4).drop 4).take 4 =
      be32 (interrupt - gicSpiBase) := by
    rw [interruptEntry, List.append_assoc, List.drop_left' (hlength 0)]
    exact List.take_left' (hlength _)
  have hflags : ((interruptEntry 0 (interrupt - gicSpiBase) 4).drop 8).take 4 = be32 4 := by
    rw [interruptEntry, List.drop_left' (by rw [List.length_append, hlength, hlength]),
      List.take_of_length_le (hlength 4).le]
  have hwhole : ¬ (interruptEntry 0 (interrupt - gicSpiBase) 4).length < 12 := by
    rw [interruptEntry, List.length_append, List.length_append, hlength, hlength, hlength]
    decide
  unfold Fdt.decodeConsoleGicSpi
  rw [if_neg hwhole, hkind, hnumber, hflags, hvalue, hvalue, hvalue, hspi]
  show (if interrupt.toNat - 32 + 32 < 1020 then _ else _) = _
  rw [if_pos (by omega), Nat.sub_add_cancel hle]
  rfl

/-! ## The CPUs -/

variable {pl011 : GuestPl011}

/-- No child of the root is a PSCI node, so none is found. -/
theorem discoverPsci_eq_none {children : List RootChild}
    (h : ∀ child ∈ children, CpuTopology.psciBinding child = none ∧
      child.nameWithoutAddress ≠ "psci") : CpuTopology.discoverPsci children = .ok none := by
  unfold CpuTopology.discoverPsci
  induction children with
  | nil => rfl
  | cons child rest ih =>
    obtain ⟨hbinding, hname⟩ := h child List.mem_cons_self
    have hround : CpuTopology.addPsci none child = .ok none := by
      rw [CpuTopology.addPsci, hbinding]
      exact if_neg hname
    rw [List.foldlM_cons, hround]
    exact ih fun other hother => h other (List.mem_cons_of_mem child hother)

section Nodes

variable {config : GuestFdtConfig} {base : UInt64}

/-- What holds of every kind of node holds of the children of the root. -/
theorem forall_nodes {P : DeviceTreeNode → Prop} (hchosen : P (chosen config)) (hcpus : P cpus)
    (hmemory : P (memory config base)) (hintc : ∀ gic, P (intc gic)) (htimer : P timer)
    (hclock : ∀ pl011, P (clock pl011)) (hserial : ∀ pl011, P (serial config pl011)) :
    ∀ node ∈ nodes config base, P node := by
  unfold nodes
  intro node hnode
  rcases List.mem_append.mp hnode with hnode | hnode
  · rcases List.mem_append.mp hnode with hnode | hnode
    · simp only [List.mem_cons, List.not_mem_nil, or_false] at hnode
      rcases hnode with rfl | rfl | rfl
      exacts [hchosen, hcpus, hmemory]
    · split at hnode
      · cases hnode
      · simp only [List.mem_cons, List.not_mem_nil, or_false] at hnode
        rcases hnode with rfl | rfl
        exacts [hintc _, htimer]
  · split at hnode
    · cases hnode
    · simp only [List.mem_cons, List.not_mem_nil, or_false] at hnode
      rcases hnode with rfl | rfl
      exacts [hclock _, hserial _]

/-- Every name that the tree has below its root. -/
def nodeNames : List (List UInt8) :=
  [text "chosen", text "cpus", text "memory", text "intc", text "timer", text "clk24mhz",
    text "serial"]

theorem nameWithoutAddress_mem (h : node ∈ nodes config base) :
    node.nameWithoutAddress ∈ nodeNames := by
  have hsubset : ∀ gic uart : Bool, [text "chosen", text "cpus", text "memory"] ++
      (if gic then [text "intc", text "timer"] else []) ++
      (if uart then [text "clk24mhz", text "serial"] else []) ⊆ nodeNames := by decide
  have hmem := List.mem_map_of_mem (f := DeviceTreeNode.nameWithoutAddress) h
  rw [nodes_nameWithoutAddress] at hmem
  exact hsubset _ _ hmem

theorem nodes_not_psci : ∀ node ∈ nodes config base,
    CpuTopology.psciBinding (Fdt.rootChild node) = none := by
  apply forall_nodes
  · unfold chosen
    cases config.pl011 <;> cases config.bootargs <;> rfl
  · rfl
  · rfl
  · exact fun _ => rfl
  · rfl
  · exact fun _ => rfl
  · intro pl011
    unfold serial
    cases config.spi pl011 <;> rfl

theorem discoverPsci_nodes :
    CpuTopology.discoverPsci ((nodes config base).map Fdt.rootChild) = .ok none := by
  apply discoverPsci_eq_none
  rw [List.forall_mem_map]
  intro node hnode
  have hnames : ∀ name ∈ nodeNames, Fdt.nameText name ≠ "psci" := by decide
  exact ⟨nodes_not_psci node hnode, hnames _ (nameWithoutAddress_mem hnode)⟩

/-- The one CPU of the guest. -/
def guestCpu : CpuDescriptor := ⟨0, true, some 0, .missing⟩

theorem discoverCpuTopology_nodes {mpidr : Nat} (hboot : CpuTopology.bootAffinity mpidr = 0) :
    ∃ topology, CpuTopology.discoverCpuTopology
        (Fdt.cpuTree { emptyRoot with children := nodes config base }) mpidr = .ok topology ∧
      topology.cpus.entries = [guestCpu] := by
  have hfound : (nodes config base).find? (fun child =>
      child.nameWithoutAddress = ascii "cpus".toList) = some cpus := by
    show List.find? _ (chosen config :: cpus :: _) = _
    rw [List.find?_cons_of_neg (by rw [chosen_nameWithoutAddress]; decide),
      List.find?_cons_of_pos (by decide)]
  have htree : Fdt.cpuTree { emptyRoot with children := nodes config base } =
      ⟨some (Fdt.cpusNode cpus), (nodes config base).map Fdt.rootChild⟩ := by
    rw [Fdt.cpuTree]
    simp only [hfound, Option.map_some]
  -- What is read of `/cpus` is fixed, except for the search for PSCI among the other nodes.
  have hheader : CpuTopology.Header (Fdt.cpusNode cpus) ((nodes config base).map Fdt.rootChild)
      1 none := ⟨rfl, rfl, Or.inl rfl, rfl, discoverPsci_nodes⟩
  have hfirst : [(⟨0, true, none, .missing⟩ : CpuDescriptor)].findIdx? (fun cpu => cpu.enabled &&
      cpu.affinity == CpuTopology.bootAffinity mpidr) = some 0 := by
    rw [hboot]
    rfl
  rw [htree]
  exact ⟨_, CpuTopology.discoverCpus_eq_ok.mpr
    ⟨1, none, ⟨[⟨0, true, none, .missing⟩], by decide⟩, 0, hheader, rfl, hfirst, rfl⟩, rfl⟩

/-- The tree that is built, as the parsers of devices read it. -/
def parsed (config : GuestFdtConfig) (base : UInt64) : DeviceNode :=
  view defaultAddressSpace { emptyRoot with children := nodes config base }

theorem parsed_children (config : GuestFdtConfig) (base : UInt64) :
    (parsed config base).children = (nodes config base).map (view ⟨2, 2⟩) :=
  Fdt.view_children _ _

/-- A node with a unit address is found under its path and read with two and two cells. -/
theorem findNode_parsed (hmem : node ∈ nodes config base) {name : String} {address : UInt64}
    (hname : node.name = unitName name address) (hslash : ∀ byte ∈ text name, byte ≠ slash) :
    (parsed config base).findNode (slash :: unitName name address) = some (view ⟨2, 2⟩ node) := by
  have hnodup : ((parsed config base).children.map DeviceNode.name).Nodup := by
    rw [parsed_children, List.map_map]
    have hsame : DeviceNode.name ∘ view ⟨2, 2⟩ = DeviceTreeNode.name := funext fun _ =>
      Fdt.view_name _ _
    rw [hsame]
    exact names_distinct config base
  have hchild : view ⟨2, 2⟩ node ∈ (parsed config base).children := by
    rw [parsed_children]
    exact List.mem_map_of_mem hmem
  rw [Fdt.findNode_component _ (by simp [unitName]) (slash_notMem_unitName hslash address), ← hname,
    ← Fdt.view_name ⟨2, 2⟩ node]
  refine Fdt.child_of_mem hchild hnodup ?_
  rw [Fdt.view_name, hname]
  simp [unitName]

theorem memory_mem : memory config base ∈ nodes config base := by
  unfold nodes
  simp

theorem intc_mem {gic : GuestGicV2} (h : config.gicv2 = some gic) :
    intc gic ∈ nodes config base := by
  unfold nodes
  simp [h]

theorem serial_mem (h : config.pl011 = some pl011) :
    serial config pl011 ∈ nodes config base := by
  unfold nodes
  simp [h]

theorem serial_reg (config : GuestFdtConfig) (pl011 : GuestPl011) :
    (serial config pl011).property (text "reg") =
      some ([(pl011.base, pl011.size)].flatMap regEntry) := by
  unfold serial
  cases config.spi pl011 <;> rfl

theorem serial_interrupts {gic : GuestGicV2} (h : config.gicv2 = some gic) (pl011 : GuestPl011) :
    (serial config pl011).property (text "interrupts") =
      some (interruptEntry 0 (pl011.interrupt - gicSpiBase) 4) := by
  rw [serial, GuestFdtConfig.spi, h]
  rfl

theorem text_chosen (h : config.pl011 = some pl011) :
    (view ⟨2, 2⟩ (chosen config)).text (text "stdout-path") =
      some (.ok (unitName "serial" pl011.base)) := by
  have hterminated : (Fdt.asStr (stringValue (unitName "serial" pl011.base))).map Fdt.toBytes =
      .ok (unitName "serial" pl011.base) :=
    Fdt.asStr_terminated (unitName_forall (by decide +kernel) (by decide) (by decide) pl011.base)
  rw [← hterminated, DeviceNode.text, Fdt.view_texts, chosen, h]
  cases config.bootargs <;> rfl

/-- Siblings have distinct names at every node; only `/cpus` has children of its own. -/
theorem distinct_nodes :
    DeviceTreeNode.Distinct { emptyRoot with children := nodes config base } := by
  have hleaf : ∀ node : DeviceTreeNode, node.children = [] → node.Distinct := fun node h =>
    .intro (by rw [h]; exact List.nodup_nil) (by rw [h]; exact nofun)
  refine .intro (names_distinct config base) (forall_nodes ?_ ?_ ?_ ?_ ?_ ?_ ?_)
  · refine hleaf _ ?_
    unfold chosen
    cases config.pl011 <;> cases config.bootargs <;> rfl
  · refine .intro (List.nodup_singleton _) fun child hchild => ?_
    obtain rfl : child = cpu := List.mem_singleton.mp hchild
    exact hleaf cpu rfl
  · exact hleaf _ rfl
  · exact fun gic => hleaf _ rfl
  · exact hleaf _ rfl
  · exact fun pl011 => hleaf _ rfl
  · intro pl011
    refine hleaf _ ?_
    unfold serial
    cases config.spi pl011 <;> rfl

end Nodes

/-! ## The tree says what was configured -/

variable {config : GuestFdtConfig}

/-- What the parsers find in the tree of a configuration. -/
structure SaysConfig (config : GuestFdtConfig) (tree : DeviceTreeNode) : Prop where
  distinct : tree.Distinct
  cells : tree.addressSpace = ⟨2, 2⟩
  memory : ∃ primary rest node, config.memoryRegions = primary :: rest ∧
    (view defaultAddressSpace tree).findNode (slash :: unitName "memory" primary.base) = some node ∧
    node.reg = .ok (some (config.memoryRegions.map fun region =>
      ⟨.ok region.base.toNat, .ok region.size.toNat⟩))
  gic : ∀ gic, config.gicv2 = some gic → ∃ node,
    (view defaultAddressSpace tree).findNode (slash :: unitName "intc" gic.distributorBase) =
      some node ∧
    node.reg = .ok (some [⟨.ok gic.distributorBase.toNat, .ok gic.distributorSize.toNat⟩,
      ⟨.ok gic.cpuInterfaceBase.toNat, .ok gic.cpuInterfaceSize.toNat⟩])
  serial : ∀ pl011, config.pl011 = some pl011 → ∃ node,
    (view defaultAddressSpace tree).findNode (slash :: unitName "serial" pl011.base) = some node ∧
    node.reg = .ok (some [⟨.ok pl011.base.toNat, .ok pl011.size.toNat⟩]) ∧
    (config.gicv2.isSome → pl011.interrupt < 1020 → ∃ interrupts,
      node.interrupts = some interrupts ∧
      Fdt.decodeConsoleGicSpi interrupts = .ok pl011.interrupt.toNat)
  cpus : ∀ mpidr, CpuTopology.bootAffinity mpidr = 0 → ∃ topology,
    CpuTopology.discoverCpuTopology (Fdt.cpuTree tree) mpidr = .ok topology ∧
    (topology.cpus.entries.filter CpuDescriptor.enabled).length = 1

theorem saysConfig_nodes (h : Accepted config) {primary : GuestMemoryRegion}
    {rest : List GuestMemoryRegion} (hregions : config.memoryRegions = primary :: rest) :
    SaysConfig config { emptyRoot with children := nodes config primary.base } where
  distinct := distinct_nodes
  cells := rfl
  memory := by
    refine ⟨primary, rest, _, hregions, findNode_parsed memory_mem rfl (by decide +kernel), ?_⟩
    rw [Fdt.view_reg, reg_entries rfl, List.map_map]
    rfl
  gic := by
    intro gic hgic
    refine ⟨_, findNode_parsed (intc_mem hgic) rfl (by decide +kernel), ?_⟩
    rw [Fdt.view_reg, reg_entries rfl]
    rfl
  serial := by
    intro pl011 hpl011
    refine ⟨_, findNode_parsed (serial_mem hpl011) (serial_name config pl011) (by decide +kernel),
      ?_, ?_⟩
    · rw [Fdt.view_reg, reg_entries (serial_reg config pl011)]
      rfl
    · intro hgic hhigh
      obtain ⟨gic, hsome⟩ := Option.isSome_iff_exists.mp hgic
      refine ⟨_, ?_, decodeConsoleGicSpi_entry (h.spi pl011 hpl011 hgic) hhigh⟩
      rw [Fdt.view_interrupts]
      exact serial_interrupts hsome pl011
  cpus := by
    intro mpidr hboot
    obtain ⟨topology, hfound, hentries⟩ := discoverCpuTopology_nodes hboot
    exact ⟨topology, hfound, by rw [hentries]; rfl⟩

/-- The tree of an accepted configuration: what is built around its nodes. -/
theorem buildTree_of_validateConfig (h : validateConfig config = .ok ()) :
    ∃ primary rest, config.memoryRegions = primary :: rest ∧
      buildTree config = .ok { emptyRoot with children := nodes config primary.base } := by
  have haccepted := accepted_of_validateConfig h
  obtain ⟨primary, rest, hregions⟩ := List.exists_cons_of_ne_nil haccepted.regions
  have hbase : primaryBase config = .ok primary.base := by
    rw [primaryBase, hregions]
    rfl
  exact ⟨primary, rest, hregions, buildTree_eq haccepted hbase⟩

/-- Every accepted configuration: the tree is built without a panic, and it says what was
configured. -/
theorem guest_tree_says_config {config : GuestFdtConfig} (h : validateConfig config = .ok ()) :
    ∃ tree, buildTree config = .ok tree ∧ SaysConfig config tree := by
  obtain ⟨primary, rest, hregions, hbuilt⟩ := buildTree_of_validateConfig h
  exact ⟨_, hbuilt, saysConfig_nodes (accepted_of_validateConfig h) hregions⟩

/-- The configuration of the repository's own test. -/
def boardConfig : GuestFdtConfig where
  memoryRegions := [⟨0x40000000, 0x200000⟩]
  bootargs := none
  pl011 := some ⟨0x9000000, 0x1000, 24000000, 33⟩
  gicv2 := some ⟨0x8000000, 0x10000, 0x8010000, 0x2000⟩

/-- With a second bank of memory, and arguments for the kernel. -/
def bankedConfig : GuestFdtConfig :=
  { boardConfig with
    memoryRegions := [⟨0x40000000, 0x200000⟩, ⟨0x80000000, 0x1000000⟩]
    bootargs := some (text "console=ttyAMA0") }

theorem guest_tree_says_config_board :
    validateConfig bankedConfig = .ok () ∧
      ∃ tree, buildTree bankedConfig = .ok tree ∧ SaysConfig bankedConfig tree :=
  ⟨rfl, guest_tree_says_config rfl⟩

/-! ## The path of the console -/

section Console

variable {base : UInt64}

/-- A lookup without unit address compares names without theirs. -/
theorem child_parsed {name : List UInt8} (h : atSign ∉ name) :
    (parsed config base).child name =
      ((nodes config base).find? fun node => node.nameWithoutAddress == name).map
        (view ⟨2, 2⟩) := by
  have hcontains : name.contains atSign = false := by simpa using h
  have hsame (node) : (view ⟨2, 2⟩ node).nameWithoutAddress = node.nameWithoutAddress :=
    congrArg (List.takeWhile _) (Fdt.view_name ⟨2, 2⟩ node)
  simp only [DeviceNode.child, hcontains, Bool.false_eq_true, if_false, parsed_children,
    List.find?_map, Function.comp_def, hsame]

theorem findNode_chosen :
    (parsed config base).findNode (ascii "/chosen".toList) =
      some (view ⟨2, 2⟩ (chosen config)) := by
  show (parsed config base).findNode (slash :: text "chosen") = _
  rw [Fdt.findNode_component _ (by decide) (by decide), child_parsed (by decide)]
  show (List.find? _ (chosen config :: _)).map _ = _
  rw [List.find?_cons_of_pos (by simp [chosen_nameWithoutAddress])]
  rfl

theorem findNode_aliases : (parsed config base).findNode (ascii "/aliases".toList) = none := by
  have hnames : ∀ name ∈ nodeNames, name ≠ text "aliases" := by decide
  show (parsed config base).findNode (slash :: text "aliases") = _
  rw [Fdt.findNode_component _ (by decide) (by decide), child_parsed (by decide),
    List.find?_eq_none.mpr fun node hnode => ?_]
  · rfl
  · simpa using hnames _ (nameWithoutAddress_mem hnode)

/-- The path is a bare name, which is looked up as an alias. -/
theorem resolveStdoutPath_parsed (h : config.pl011 = some pl011) :
    Fdt.resolveStdoutPath (parsed config base) = .error .missingAliases := by
  have htext : (view ⟨2, 2⟩ (chosen config)).text (ascii "stdout-path".toList) =
      some (.ok (unitName "serial" pl011.base)) := text_chosen h
  unfold Fdt.resolveStdoutPath
  rw [findNode_chosen, findNode_aliases]
  show (okOr _ ((view ⟨2, 2⟩ (chosen config)).text (ascii "stdout-path".toList)) >>= _) = _
  rw [htext]
  rfl

/-- The console's path leads to the UART of the configuration, if it has one. -/
def StdoutResolves (config : GuestFdtConfig) : Prop :=
  ∀ pl011, config.pl011 = some pl011 → ∃ tree path node, buildTree config = .ok tree ∧
    Fdt.resolveStdoutPath (view defaultAddressSpace tree) = .ok path ∧
    (view defaultAddressSpace tree).findNode path = some node ∧
    node.name = unitName "serial" pl011.base

theorem not_stdoutResolves (h : validateConfig config = .ok ())
    (hpl011 : config.pl011 = some pl011) : ¬ StdoutResolves config := by
  intro hresolves
  obtain ⟨primary, rest, -, hbuilt⟩ := buildTree_of_validateConfig h
  obtain ⟨tree, path, node, hbuilt', hpath, -⟩ := hresolves pl011 hpl011
  obtain rfl := Except.ok.inj (hbuilt.symm.trans hbuilt')
  have herror : Fdt.resolveStdoutPath (parsed config primary.base) = _ :=
    resolveStdoutPath_parsed hpl011
  rw [parsed, hpath] at herror
  cases herror

/-- Of the accepted configurations, only those without a UART have a path that resolves. -/
theorem stdout_path_resolves_iff (h : validateConfig config = .ok ()) :
    StdoutResolves config ↔ config.pl011 = none := by
  constructor
  · intro hresolves
    by_contra hsome
    obtain ⟨pl011, hpl011⟩ := Option.ne_none_iff_exists'.mp hsome
    exact not_stdoutResolves h hpl011 hresolves
  · intro hnone pl011 hsome
    rw [hnone] at hsome
    cases hsome

end Console

theorem stdout_path_resolves_iff_plain :
    StdoutResolves { boardConfig with pl011 := none } ∧ ¬ StdoutResolves boardConfig :=
  ⟨(stdout_path_resolves_iff rfl).mpr rfl, fun h => nomatch (stdout_path_resolves_iff rfl).mp h⟩

/-- The tree of the repository's own test: its console is looked up as an alias, and there are
no aliases. -/
theorem stdout_path_unresolved_board :
    validateConfig boardConfig = .ok () ∧ ¬ StdoutResolves boardConfig ∧
      ∃ tree, buildTree boardConfig = .ok tree ∧
        Fdt.resolveStdoutPath (view defaultAddressSpace tree) = .error .missingAliases :=
  ⟨rfl, not_stdoutResolves rfl rfl, _, buildTree_eq (accepted_of_validateConfig rfl) rfl,
    resolveStdoutPath_parsed rfl⟩

end Tvisor.GuestFdt
