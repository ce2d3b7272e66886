/-
# Tvisor.Secondary.Lookup -- the entry code and `find_slot_by_affinity` pick the same slot

A secondary CPU enters without a stack. Its first instructions scan the array of slots by raw
offsets for the affinity of the CPU, check the slot they found and leave for `.Lsecondary_reject`
if anything is wrong. The code below is that piece of `__secondary_entry`, line by line, from the
read of `mpidr_el1` to the last check of the slot.

The scan tests `present`, the lookup in Rust tests the lifecycle of the mailbox. On slots at rest
the two tests agree, so both loops look for the only slot with the affinity.
-/
import Tvisor.Lib.A64
import Tvisor.Pcpu.Affinity
import Tvisor.StartupPublication

namespace Tvisor.Secondary.Lookup

open A64 Words Selection CpuTopology Pcpu
open StartupPublication (slotSize)

/-! ## The source -/

inductive Label where
  | secondaryLookup
  | secondaryNextSlot
  | secondaryReject
  deriving DecidableEq, Repr

inductive SysReg where
  | mpidrEl1
  deriving DecidableEq, Repr

abbrev Block := List (Instr SysReg Label)

abbrev Code := List (Line SysReg Label)

/-- `offset_of!`, in a `PcpuSlot`. -/
def offset : Cell → Nat
  | .hostSp => 0
  | .activeVcpu => 8
  | .logicalId => 16
  | .affinity => 24
  | .stackBottom => 32
  | .stackTop => 40
  | .present => 48
  | .mailbox .ready => 64
  | .mailbox .state => 72
  | .mailbox .entryClaimed => 80
  | .claimed => 320

/-- The masked affinity in `x14`, the first slot in `x15`, its place in `x16`, no slot in `x19`.
The array of slots is at this address. -/
def prologue (slots : Nat) : Block := [
  .mrs 9 .mpidrEl1,
  .mov 24 (.reg 9),
  .movz 10 0xffff,
  .movk 10 0x00ff 16,
  .movk 10 0x00ff 32,
  .and 14 9 10,
  .adrp 15 slots,
  .add 15 15 (.imm (slots % 4096)),
  .mov 16 (.imm 0),
  .mov 19 .xzr]

/-- Is the slot present with the affinity? -/
def examine : Block := [
  .ldr 10 15 (offset .present),
  .cmp 10 (.imm 1),
  .b .ne .secondaryNextSlot,
  .ldr 10 15 (offset .affinity),
  .cmp 10 (.reg 14),
  .b .ne .secondaryNextSlot]

/-- The first such slot is kept in `x19`, its place in `x18`. -/
def keep : Block := [
  .cbnz 19 .secondaryReject,
  .mov 19 (.reg 15),
  .mov 18 (.reg 16)]

def advance : Block := [
  .add 15 15 (.imm slotSize),
  .add 16 16 (.imm 1),
  .cmp 16 (.imm maxCpus),
  .b .lo .secondaryLookup]

/-- The place must agree with the logical ID, which is not the boot CPU's, and a generation must be
published. -/
def checkSlot : Block := [
  .cbz 19 .secondaryReject,
  .ldr 9 19 (offset .logicalId),
  .cbz 9 .secondaryReject,
  .cmp 9 (.reg 18),
  .b .ne .secondaryReject,
  .ldr 20 19 (offset (.mailbox .ready)),
  .cbz 20 .secondaryReject]

def checkId : Block := [
  .ldr 9 19 (offset .logicalId),
  .cbz 9 .secondaryReject,
  .cmp 9 (.imm maxCpus),
  .b .hs .secondaryReject]

/-- The bounds of the stack, and the slot itself as the context pointer. -/
def checkStack : Block := [
  .ldr 9 19 (offset .stackTop),
  .cbz 9 .secondaryReject,
  .tst 9 15,
  .b .ne .secondaryReject,
  .ldr 10 19 (offset .stackBottom),
  .cbz 10 .secondaryReject,
  .tst 10 4095,
  .b .ne .secondaryReject,
  .subs 11 9 10,
  .b .ls .secondaryReject,
  .cmp 11 (.imm stackSize),
  .b .ne .secondaryReject,
  .mov 12 (.reg 19),
  .cbz 12 .secondaryReject,
  .tst 12 63,
  .b .ne .secondaryReject]

/-- The lines after the loop. -/
def checkLines : Code := lines checkSlot ++ (lines checkId ++ (lines checkStack ++ []))

/-- The lines from `.Lsecondary_next_slot` on. -/
def nextLines : Code := lines advance ++ checkLines

def keepLines : Code := lines keep ++ .label .secondaryNextSlot :: nextLines

/-- The lines from `__secondary_lookup` on. -/
def lookupLines : Code := lines examine ++ keepLines

def entryCode (slots : Nat) : Code :=
  lines (prologue slots) ++ .label .secondaryLookup :: lookupLines

/-! ## The array in memory -/

/-- The two flags are bytes; the scan reads whole words. -/
def isWord : Cell → Bool
  | .claimed | .mailbox .entryClaimed => false
  | _ => true

/-- A static array of `MAX_CPUS` slots, each of them aligned to 64 bytes. -/
structure Placed (memory : Nat → Nat) (base : Nat) (slots : List Memory) : Prop where
  count : slots.length = maxCpus
  nonzero : base ≠ 0
  aligned : base % 64 = 0
  fits : base + slotSize * maxCpus ≤ wordBound
  holds : ∀ i slot, slots[i]? = some slot → ∀ c, isWord c →
    memory (base + slotSize * i + offset c) = slot c

section Scan

variable {M : Machine SysReg} {base : Nat} {slots : List Memory}

theorem after_lookup (base : Nat) : after .secondaryLookup (entryCode base) = some lookupLines :=
  rfl

theorem after_nextSlot (base : Nat) : after .secondaryNextSlot (entryCode base) = some nextLines :=
  rfl

theorem after_reject (base : Nat) : after .secondaryReject (entryCode base) = none := rfl

theorem Placed.lt (h : Placed M.memory base slots) {i : Nat} {slot : Memory}
    (hslot : slots[i]? = some slot) : i < maxCpus := by
  rw [← h.count]
  exact (List.getElem?_eq_some_iff.mp hslot).1

theorem Placed.address (h : Placed M.memory base slots) {i : Nat} (hi : i < maxCpus) :
    base + slotSize * i + slotSize ≤ wordBound := by
  have hfits := h.fits
  have hle : slotSize * (i + 1) ≤ slotSize * maxCpus := Nat.mul_le_mul_left _ hi
  rw [Nat.mul_succ] at hle
  omega

/-- A load from a slot reads the field. -/
theorem Placed.load (h : Placed M.memory base slots) {i : Nat} {slot : Memory}
    (hslot : slots[i]? = some slot) {c : Cell} (hc : isWord c) :
    M.memory ((base + slotSize * i + offset c) % wordBound) = slot c := by
  have hlt : offset c < slotSize := by
    cases c with
    | mailbox k => cases k <;> decide
    | _ => decide
  have haddress := h.address (h.lt hslot)
  rw [Nat.mod_eq_of_lt (by omega)]
  exact h.holds i slot hslot c hc

/-! ## Block by block -/

/-- The registers of the scan at the slot at place `i`. -/
structure Scanning (affinity base i : Nat) (found : Option Nat) (s : State) : Prop where
  affinity : s.regs 14 = affinity
  slot : s.regs 15 = (base + slotSize * i) % wordBound
  index : s.regs 16 = i
  held : s.regs 19 = found.elim 0 fun j => base + slotSize * j
  place : ∀ j, found = some j → s.regs 18 = j

section Blocks

variable {affinity i : Nat} {found : Option Nat} {s : State} {slot : Memory}

-- With these, `simp` runs a block.
attribute [local simp] walk_cons_eq_none walk_nil_eq_none Instr.taken Instr.exec State.holds
  State.value

/-- A block that writes none of these registers. -/
theorem Scanning.walk (h : Scanning affinity base i found s) {block : Block}
    (hblock : ∀ r ∈ ([14, 15, 16, 18, 19] : List Reg), ∀ i ∈ block, i.dest ≠ some r) :
    Scanning affinity base i found (walk M block s).2 := by
  have hregs := fun r hr => walk_regs M (hblock r hr) s
  exact ⟨(hregs 14 (by decide)).trans h.affinity, (hregs 15 (by decide)).trans h.slot,
    (hregs 16 (by decide)).trans h.index, (hregs 19 (by decide)).trans h.held,
    fun j hj => (hregs 18 (by decide)).trans (h.place j hj)⟩

theorem walk_prologue (M : Machine SysReg) (base : Nat) (s : State) :
    (walk M (prologue base) s).1 = none := rfl

theorem scanning_prologue (M : Machine SysReg) (base : Nat) (s : State) :
    Scanning (M.sys .mpidrEl1 &&& mpidrAffinityMask) base 0 none (walk M (prologue base) s).2 := by
  have hbase : base / 4096 * 4096 + base % 4096 = base := Nat.div_add_mod' base 4096
  have hmask : A64.replace (A64.replace 0xffff 0x00ff 16) 0x00ff 32 = mpidrAffinityMask := by decide
  constructor
  · show M.sys .mpidrEl1 &&& A64.replace (A64.replace 0xffff 0x00ff 16) 0x00ff 32 = _
    rw [hmask]
  · show (base / 4096 * 4096 + base % 4096) % wordBound = _
    rw [hbase, Nat.mul_zero, Nat.add_zero]
  · rfl
  · rfl
  · nofun

theorem walk_examine (hplaced : Placed M.memory base slots) (hslot : slots[i]? = some slot)
    (h : Scanning affinity base i found s) :
    (walk M examine s).1 = none ↔ HasAffinity slot affinity := by
  have haddress : s.regs 15 = base + slotSize * i := by
    have := hplaced.address (hplaced.lt hslot)
    have hpos : 0 < slotSize := by decide
    rw [h.slot, Nat.mod_eq_of_lt (by omega)]
  have hpresent := hplaced.load hslot (c := .present) rfl
  have haffinity := hplaced.load hslot (c := .affinity) rfl
  simp [examine, haddress, hpresent, haffinity, h.affinity, HasAffinity]

theorem walk_keep_first (h : Scanning affinity base i none s) : (walk M keep s).1 = none := by
  have hheld : s.regs 19 = 0 := h.held
  simp [keep, hheld]

theorem scanning_keep (hi : base + slotSize * i < wordBound) (h : Scanning affinity base i none s) :
    Scanning affinity base i (some i) (walk M keep s).2 := by
  have hheld : s.regs 19 = 0 := h.held
  have hwalk : walk M keep s = (none, (s.set 19 (s.regs 15)).set 18 (s.regs 16)) := by
    rw [keep, walk_of_none (Instr.target_eq_none.mpr (by simp [hheld]))]
    rfl
  rw [hwalk]
  constructor
  · simp [h.affinity]
  · simp [h.slot]
  · simp [h.index]
  · simp [h.slot, Nat.mod_eq_of_lt hi]
  · simp [h.index]

theorem walk_keep_second {j : Nat} (hbase : base ≠ 0) (h : Scanning affinity base i (some j) s) :
    (walk M keep s).1 = some .secondaryReject := by
  have hheld : s.regs 19 = base + slotSize * j := h.held
  apply walk_eq_some
  · simp [keep, hheld, hbase]
  · decide

/-- The place of the next slot does not wrap. -/
theorem next_mod (hi : i < maxCpus) : (i + 1) % wordBound = i + 1 := by
  have hle : maxCpus < wordBound := by decide
  exact Nat.mod_eq_of_lt (by omega)

theorem walk_advance (h : Scanning affinity base i found s) (hi : i < maxCpus) :
    (walk M advance s).1 = none ↔ maxCpus ≤ i + 1 := by
  simp [advance, h.index, next_mod hi]

theorem scanning_advance (h : Scanning affinity base i found s) (hi : i < maxCpus) :
    Scanning affinity base (i + 1) found (walk M advance s).2 := by
  have hnext : ((base + slotSize * i) % wordBound + slotSize) % wordBound =
      (base + slotSize * (i + 1)) % wordBound := by
    rw [Nat.mod_add_mod, Nat.mul_succ, Nat.add_assoc]
  -- Whether the branch back is taken or not, it leaves the registers of the two additions.
  show Scanning _ _ _ _ (A64.walk M [.b .lo Label.secondaryLookup]
    (((s.set 15 ((s.regs 15 + slotSize) % wordBound)).set 16 ((s.regs 16 + 1) % wordBound)).compare
      ((s.regs 16 + 1) % wordBound) maxCpus)).2
  rw [walk_branch rfl]
  constructor
  · simp [h.affinity]
  · simp [h.slot, hnext]
  · simp [h.index, next_mod hi]
  · simp [h.held]
  · intro j hj
    simp [h.place j hj]

theorem walk_checkSlot_none {n : Nat} (h : Scanning affinity base n none s) :
    (walk M checkSlot s).1 ≠ none := by
  have hheld : s.regs 19 = 0 := h.held
  simp [checkSlot, hheld]

theorem walk_checkSlot {n j : Nat} (hplaced : Placed M.memory base slots)
    (hslot : slots[j]? = some slot) (h : Scanning affinity base n (some j) s) :
    (walk M checkSlot s).1 = none ↔
      slot .logicalId ≠ 0 ∧ slot .logicalId = j ∧ slot (.mailbox .ready) ≠ 0 := by
  have hheld : s.regs 19 = base + slotSize * j := h.held
  have hid := hplaced.load hslot (c := .logicalId) rfl
  have hready := hplaced.load hslot (c := .mailbox .ready) rfl
  simp [checkSlot, hheld, hplaced.nonzero, hid, hready, h.place j rfl]

section Slot

variable {j id : Nat} {stack : StackLayout}

theorem walk_checkId (hplaced : Placed M.memory base slots) (hslot : slots[j]? = some slot)
    (hheld : s.regs 19 = base + slotSize * j) (hid : slot .logicalId ≠ 0)
    (hlt : slot .logicalId < maxCpus) : (walk M checkId s).1 = none := by
  have hload := hplaced.load hslot (c := .logicalId) rfl
  simp [checkId, hheld, hload, hid, hlt]

/-- The layout that a preparation accepts. -/
theorem stack_of_checked (h : ¬ badPreparation id affinity stack) :
    stack.bottom % 4096 = 0 ∧ stack.bottom ≠ 0 ∧ stack.top = stack.bottom + stackSize := by
  simp only [badPreparation, not_or, not_not] at h
  obtain ⟨-, -, hbottom, hlayout⟩ := h
  obtain ⟨haligned, -, hstack⟩ := stackLayout_eq_ok (Fallible.toOption_eq_some.mp hlayout)
  have hsize : stackSize = 65536 := rfl
  have hb := congrArg StackLayout.bottom hstack
  have ht := congrArg StackLayout.top hstack
  simp only at hb ht
  refine ⟨?_, hbottom, ?_⟩ <;> omega

/-- The stack checks pass on every slot that was prepared. -/
theorem walk_checkStack (hplaced : Placed M.memory base slots) (hslot : slots[j]? = some slot)
    (hcontext : Context slot id affinity stack) (hheld : s.regs 19 = base + slotSize * j) :
    (walk M checkStack s).1 = none := by
  have htop := hplaced.load hslot (c := .stackTop) rfl
  have hbottom := hplaced.load hslot (c := .stackBottom) rfl
  obtain ⟨haligned, hnonzero, hsum⟩ := stack_of_checked hcontext.checked
  rw [hcontext.stackTop, hsum] at htop
  rw [hcontext.stackBottom] at hbottom
  have hsize : stackSize = 65536 := rfl
  have h16 : (stack.bottom + stackSize) &&& 15 = 0 :=
    (Nat.and_two_pow_sub_one_eq_mod _ 4).trans (by omega)
  have h4096 : stack.bottom &&& 4095 = 0 :=
    (Nat.and_two_pow_sub_one_eq_mod _ 12).trans haligned
  have h64 : (base + slotSize * j) &&& 63 = 0 := by
    have hbase := hplaced.aligned
    refine (Nat.and_two_pow_sub_one_eq_mod _ 6).trans ?_
    rw [slotSize]
    omega
  have hpos : stackSize ≠ 0 := by decide
  have hsub : wrappingSub (stack.bottom + stackSize) stack.bottom = stackSize := by
    rw [wrappingSub_of_le (by omega), Nat.add_sub_cancel_left]
  simp [checkStack, hheld, htop, hbottom, h16, h4096, h64, hsub, hpos, hnonzero, hplaced.nonzero]

end Slot

/-! ## The loop -/

/-- The lines that follow a round. -/
def linesAfter (i : Nat) : Code := if i < maxCpus then lookupLines else checkLines

theorem ends_next (h : Scanning affinity base i found s) (hi : i < maxCpus) (e : Exit Label) :
    Ends M (entryCode base) nextLines s e ↔
      Ends M (entryCode base) (linesAfter (i + 1)) (walk M advance s).2 e := by
  by_cases hlast : maxCpus ≤ i + 1
  · rw [linesAfter, if_neg (not_lt.mpr hlast)]
    exact ends_through ((walk_advance h hi).mpr hlast)
  · rw [linesAfter, if_pos (not_le.mp hlast)]
    exact ends_jump (walk_eq_some (mt (walk_advance h hi).mp hlast) (by decide)) (after_lookup base)

/-- One round: the scan goes on with what it has seen, or it has met a second slot. -/
theorem ends_round (hplaced : Placed M.memory base slots)
    (hseen : Seen (MatchesAt slots affinity) i found) (h : Scanning affinity base i found s)
    (hi : i < maxCpus) :
    (∃ found' s', Seen (MatchesAt slots affinity) (i + 1) found' ∧
        Scanning affinity base (i + 1) found' s' ∧
        ∀ e, Ends M (entryCode base) lookupLines s e ↔
          Ends M (entryCode base) (linesAfter (i + 1)) s' e) ∨
      (∀ k, ¬ Sole (MatchesAt slots affinity) maxCpus k) ∧
        ∃ s', ∀ e, Ends M (entryCode base) lookupLines s e ↔ e = .left .secondaryReject s' := by
  have hlength : i < slots.length := hplaced.count ▸ hi
  have hslot : slots[i]? = some slots[i] := List.getElem?_eq_getElem hlength
  have hroom : base + slotSize * i < wordBound := by
    have := hplaced.address hi
    have hpos : 0 < slotSize := by decide
    omega
  have hexamined : Scanning affinity base i found (walk M examine s).2 := h.walk (by decide)
  by_cases hmatch : HasAffinity slots[i] affinity
  · have hhit : MatchesAt slots affinity i := (matchesAt_iff hslot).mpr hmatch
    have hkeep : ∀ e, Ends M (entryCode base) lookupLines s e ↔
        Ends M (entryCode base) keepLines (walk M examine s).2 e := fun e =>
      ends_through ((walk_examine hplaced hslot h).mpr hmatch)
    cases found with
    | none =>
      have hkept : Scanning affinity base i (some i) (walk M keep (walk M examine s).2).2 :=
        scanning_keep hroom hexamined
      refine Or.inl ⟨some i, _, hseen.first hhit, scanning_advance (M := M) hkept hi, fun e => ?_⟩
      calc Ends M (entryCode base) lookupLines s e
          ↔ Ends M (entryCode base) keepLines (walk M examine s).2 e := hkeep e
        _ ↔ Ends M (entryCode base) (.label .secondaryNextSlot :: nextLines) _ e :=
            ends_through (walk_keep_first hexamined)
        _ ↔ Ends M (entryCode base) nextLines _ e := ends_label
        _ ↔ _ := ends_next hkept hi e
    | some j =>
      exact Or.inr ⟨hseen.clash hhit hi, _, fun e => (hkeep e).trans
        (ends_leave (walk_keep_second hplaced.nonzero hexamined) (after_reject base))⟩
  · have hmiss : ¬ MatchesAt slots affinity i := mt (matchesAt_iff hslot).mp hmatch
    have hskip : (walk M examine s).1 = some .secondaryNextSlot :=
      walk_eq_some (mt (walk_examine hplaced hslot h).mp hmatch) (by decide)
    exact Or.inl ⟨found, _, hseen.skip hmiss, scanning_advance (M := M) hexamined hi, fun e =>
      (ends_jump hskip (after_nextSlot base)).trans (ends_next hexamined hi e)⟩

/-- The whole scan, with this many rounds after the one at place `i`. -/
theorem ends_scan (hplaced : Placed M.memory base slots) {n : Nat}
    (hseen : Seen (MatchesAt slots affinity) i found) (h : Scanning affinity base i found s)
    (hn : i + 1 + n = maxCpus) :
    (∃ found' s', Seen (MatchesAt slots affinity) maxCpus found' ∧
        Scanning affinity base maxCpus found' s' ∧
        ∀ e, Ends M (entryCode base) lookupLines s e ↔ Ends M (entryCode base) checkLines s' e) ∨
      (∀ k, ¬ Sole (MatchesAt slots affinity) maxCpus k) ∧
        ∃ s', ∀ e, Ends M (entryCode base) lookupLines s e ↔ e = .left .secondaryReject s' := by
  induction n generalizing i found s with
  | zero =>
    have hlines : linesAfter (i + 1) = checkLines := if_neg (by omega)
    rcases ends_round hplaced hseen h (by omega) with ⟨found', s', hseen', h', hends⟩ | hclash
    · rw [hlines] at hends
      rw [Nat.add_zero] at hn
      exact Or.inl ⟨found', s', hn ▸ hseen', hn ▸ h', hends⟩
    · exact Or.inr hclash
  | succ n ih =>
    have hlines : linesAfter (i + 1) = lookupLines := if_pos (by omega)
    rcases ends_round hplaced hseen h (by omega) with ⟨found', s', hseen', h', hends⟩ | hclash
    · rw [hlines] at hends
      rcases ih hseen' h' (by omega) with ⟨last, t, hlast, ht, hrest⟩ | ⟨hnone, t, hrest⟩
      · exact Or.inl ⟨last, t, hlast, ht, fun e => (hends e).trans (hrest e)⟩
      · exact Or.inr ⟨hnone, t, fun e => (hends e).trans (hrest e)⟩
    · exact Or.inr hclash

end Blocks

/-! ## Which slot is accepted -/

/-- A slot that may be entered: at the place of its logical ID, not the boot CPU's, published. -/
def Enterable (slots : List Memory) (i : Nat) : Prop :=
  ∃ slot, slots[i]? = some slot ∧ slot .logicalId = i ∧ i ≠ 0 ∧ slot (.mailbox .ready) ≠ 0

theorem ends_check {s : State} {affinity j n : Nat} (hplaced : Placed M.memory base slots)
    (hslots : ∀ slot ∈ slots, AtRest slot) (hmatch : MatchesAt slots affinity j)
    (h : Scanning affinity base n (some j) s) :
    (Enterable slots j ∧ ∃ s', s'.regs 19 = base + slotSize * j ∧
        ∀ e, Ends M (entryCode base) checkLines s e ↔ e = .fell s') ∨
      ¬ Enterable slots j ∧
        ∃ s', ∀ e, Ends M (entryCode base) checkLines s e ↔ e = .left .secondaryReject s' := by
  obtain ⟨slot, hslot, hpresent, -⟩ := hmatch
  by_cases henter : (walk M checkSlot s).1 = none
  · obtain ⟨hid, hplace, hready⟩ := (walk_checkSlot hplaced hslot h).mp henter
    have henterable : Enterable slots j := ⟨slot, hslot, hplace, hplace ▸ hid, hready⟩
    have hheld : (walk M checkSlot s).2.regs 19 = base + slotSize * j :=
      (walk_regs M (by decide) s).trans h.held
    cases hslots slot (List.mem_of_getElem? hslot) with
    | untouched hnew =>
      rw [hnew] at hpresent
      cases hpresent
    | prepared hprepared =>
      have hcontext := hprepared.kept
      have hlt : slot .logicalId < maxCpus := hplace ▸ hplaced.lt hslot
      have hidWalk : (walk M checkId (walk M checkSlot s).2).1 = none :=
        walk_checkId hplaced hslot hheld hid hlt
      have hheld' : (walk M checkId (walk M checkSlot s).2).2.regs 19 = base + slotSize * j :=
        (walk_regs M (by decide) _).trans hheld
      refine Or.inl ⟨henterable, (walk M checkStack (walk M checkId (walk M checkSlot s).2).2).2,
        (walk_regs M (by decide) _).trans hheld', fun e => ?_⟩
      exact (ends_through henter).trans <| (ends_through hidWalk).trans <|
        (ends_through (walk_checkStack hplaced hslot hcontext hheld')).trans ends_nil
  · refine Or.inr ⟨?_, _, fun e =>
      ends_leave (walk_eq_some henter (by decide)) (after_reject base)⟩
    rintro ⟨slot', hslot', hplace, hne, hready⟩
    obtain rfl : slot = slot' := Option.some.inj (hslot.symm.trans hslot')
    exact henter ((walk_checkSlot hplaced hslot h).mpr ⟨hplace ▸ hne, hplace, hready⟩)

/-- The entry code runs to its end with this slot. -/
def Accepts (M : Machine SysReg) (base : Nat) (s : State) (i : Nat) : Prop :=
  ∃ s', Ends M (entryCode base) (entryCode base) s (.fell s') ∧ s'.regs 19 = base + slotSize * i

/-- The entry code leaves for `.Lsecondary_reject`. -/
def Rejects (M : Machine SysReg) (base : Nat) (s : State) : Prop :=
  ∃ s', Ends M (entryCode base) (entryCode base) s (.left .secondaryReject s')

/-- The entry code as a whole: it accepts the only slot of the affinity, if that may be entered, and
rejects otherwise. -/
theorem ends_entry (hplaced : Placed M.memory base slots) (hslots : ∀ slot ∈ slots, AtRest slot)
    (s : State) :
    (∃ j, Sole (MatchesAt slots (M.sys .mpidrEl1 &&& mpidrAffinityMask)) maxCpus j ∧
        Enterable slots j ∧ ∃ s', s'.regs 19 = base + slotSize * j ∧
        ∀ e, Ends M (entryCode base) (entryCode base) s e ↔ e = .fell s') ∨
      (∀ j, Sole (MatchesAt slots (M.sys .mpidrEl1 &&& mpidrAffinityMask)) maxCpus j →
          ¬ Enterable slots j) ∧
        ∃ s', ∀ e, Ends M (entryCode base) (entryCode base) s e ↔
          e = .left .secondaryReject s' := by
  have hprologue : ∀ e, Ends M (entryCode base) (entryCode base) s e ↔
      Ends M (entryCode base) lookupLines (walk M (prologue base) s).2 e := fun e =>
    (ends_through (walk_prologue M base s)).trans ends_label
  rcases ends_scan hplaced seen_zero (scanning_prologue M base s) (n := 3) rfl with
    ⟨found, t, hseen, ht, hscan⟩ | ⟨hnone, t, hscan⟩
  · have hrun := fun e => (hprologue e).trans (hscan e)
    cases found with
    | none =>
      refine Or.inr ⟨fun j hj => absurd hj.2.1 (hseen j hj.1), _, fun e => (hrun e).trans
        (ends_leave (walk_eq_some (walk_checkSlot_none ht) (by decide)) (after_reject base))⟩
    | some j =>
      rcases ends_check hplaced hslots hseen.2.1 ht with
        ⟨henter, s', hheld, hends⟩ | ⟨henter, s', hends⟩
      · exact Or.inl ⟨j, hseen, henter, s', hheld, fun e => (hrun e).trans (hends e)⟩
      · refine Or.inr ⟨fun k hk => ?_, s', fun e => (hrun e).trans (hends e)⟩
        rwa [← hk.2.2 j hseen.1 hseen.2.1]
  · exact Or.inr ⟨fun j hj => absurd hj (hnone j), t, fun e => (hprologue e).trans (hscan e)⟩

theorem accepts_iff_sole (hplaced : Placed M.memory base slots)
    (hslots : ∀ slot ∈ slots, AtRest slot) (s : State) (i : Nat) :
    Accepts M base s i ↔
      Sole (MatchesAt slots (M.sys .mpidrEl1 &&& mpidrAffinityMask)) maxCpus i ∧
        Enterable slots i := by
  rcases ends_entry hplaced hslots s with ⟨j, hsole, henter, s', hheld, hends⟩ | ⟨hnone, s', hends⟩
  · constructor
    · rintro ⟨t, ht, htheld⟩
      cases (hends _).mp ht
      have hpos : 0 < slotSize := by decide
      obtain rfl : i = j := by
        rw [hheld] at htheld
        exact (Nat.eq_of_mul_eq_mul_left hpos (Nat.add_left_cancel htheld)).symm
      exact ⟨hsole, henter⟩
    · rintro ⟨hi, -⟩
      rw [hsole.2.2 i hi.1 hi.2.1]
      exact ⟨s', (hends _).mpr rfl, hheld⟩
  · constructor
    · rintro ⟨t, ht, -⟩
      cases (hends _).mp ht
    · rintro ⟨hi, henter⟩
      exact absurd henter (hnone i hi)

/-- What the entry code does with an MPIDR, compared with the lookup. -/
structure RoutesAlike (M : Machine SysReg) (base : Nat) (slots : List Memory) (s : State) :
    Prop where
  /-- It comes to an end: with a slot or in the holding loop. -/
  ends : (∃ i, Accepts M base s i) ∨ Rejects M base s
  /-- The slot is the one of `find_slot_by_affinity`, if it may be entered. -/
  agrees : ∀ i, Accepts M base s i ↔
    findSlotByAffinity (fun j => base + slotSize * j) slots (M.sys .mpidrEl1) = .ok (some i) ∧
      ∃ slot, slots[i]? = some slot ∧ slot .logicalId = i ∧ i ≠ 0 ∧ slot (.mailbox .ready) ≠ 0
  /-- The boot slot is never entered. -/
  boot : ¬ Accepts M base s 0
  /-- Neither of two slots that were prepared with one affinity is entered. -/
  duplicate : ∀ i j slot slot' id id' affinity layout layout', i ≠ j → slots[i]? = some slot →
    slots[j]? = some slot' → Prepared slot id affinity layout →
    Prepared slot' id' affinity layout' → ¬ Accepts M base s i
  /-- The stack checks let every prepared slot pass. -/
  stack : ∀ i slot id affinity layout, slots[i]? = some slot → Prepared slot id affinity layout →
    ∀ t : State, t.regs 19 = base + slotSize * i →
      ∃ t', Ends M (entryCode base) (lines checkStack) t (.fell t')

/-- For every array of slots at rest, every MPIDR and whatever is in the registers. -/
theorem entry_routes_alike (hplaced : Placed M.memory base slots)
    (hslots : ∀ slot ∈ slots, AtRest slot) (s : State) : RoutesAlike M base slots s where
  ends := by
    rcases ends_entry hplaced hslots s with ⟨j, -, -, s', hheld, hends⟩ | ⟨-, s', hends⟩
    · exact Or.inl ⟨j, s', (hends _).mpr rfl, hheld⟩
    · exact Or.inr ⟨s', (hends _).mpr rfl⟩
  agrees i := by
    rw [accepts_iff_sole hplaced hslots, findSlotByAffinity_sole _ hslots hplaced.count.le,
      hplaced.count]
    exact Iff.rfl
  boot := by
    rw [accepts_iff_sole hplaced hslots]
    rintro ⟨-, -, -, -, hne, -⟩
    exact hne rfl
  duplicate := by
    intro i j slot slot' id id' affinity layout layout' hne hslot hslot' hprepared hprepared'
    rw [accepts_iff_sole hplaced hslots]
    rintro ⟨⟨-, hmatch, honly⟩, -⟩
    have hmpidr := ((matchesAt_iff hslot).mp hmatch).2
    have hsame : slot' .affinity = slot .affinity :=
      hprepared'.kept.affinity.trans hprepared.kept.affinity.symm
    have hmatch' := (matchesAt_iff hslot').mpr ⟨hprepared'.kept.present, hsame.trans hmpidr⟩
    exact hne (honly j (hplaced.lt hslot') hmatch').symm
  stack i slot id affinity layout hslot hprepared t ht := by
    have hwalk : (walk M checkStack t).1 = none := walk_checkStack hplaced hslot hprepared.kept ht
    rw [← List.append_nil (lines checkStack)]
    exact ⟨_, (ends_through hwalk).mpr (ends_nil.mpr rfl)⟩

end Scan

/-- The slot of the second CPU of a board, prepared and with a published generation. -/
def boardSlot : Memory
  | .claimed | .logicalId | .present | .mailbox .ready | .mailbox .state => 1
  | .affinity => 0x100
  | .stackBottom => 0x801000
  | .stackTop => 0x811000
  | .hostSp | .activeVcpu | .mailbox .entryClaimed => 0

def boardSlots : List Memory := [PcpuSlot.new, boardSlot, PcpuSlot.new, PcpuSlot.new]

def cellAt : Nat → Cell
  | 0 => .hostSp
  | 8 => .activeVcpu
  | 16 => .logicalId
  | 24 => .affinity
  | 32 => .stackBottom
  | 40 => .stackTop
  | 48 => .present
  | 64 => .mailbox .ready
  | 72 => .mailbox .state
  | _ => .claimed

/-- The slots at `0x9000`, and the CPU with the affinity `0x100`. -/
def board : Machine SysReg where
  sys _ := 0x80000100
  memory address := boardSlots.getD ((address - 0x9000) / slotSize) PcpuSlot.new
    (cellAt ((address - 0x9000) % slotSize))

theorem board_placed : Placed board.memory 0x9000 boardSlots where
  count := rfl
  nonzero := by decide
  aligned := by decide
  fits := by decide
  holds i slot hslot c hc := by
    have hlt : offset c < slotSize ∧ cellAt (offset c) = c := by
      cases c with
      | mailbox k => cases k <;> first | exact ⟨by decide, rfl⟩ | cases hc
      | claimed => cases hc
      | _ => exact ⟨by decide, rfl⟩
    have hoff : 0x9000 + slotSize * i + offset c - 0x9000 = offset c + slotSize * i := by omega
    show boardSlots.getD ((0x9000 + slotSize * i + offset c - 0x9000) / slotSize) PcpuSlot.new
      (cellAt ((0x9000 + slotSize * i + offset c - 0x9000) % slotSize)) = slot c
    rw [hoff, Nat.add_mul_div_left _ _ (by decide), Nat.div_eq_of_lt hlt.1, Nat.zero_add,
      Nat.add_mul_mod_self_left, Nat.mod_eq_of_lt hlt.1, hlt.2, List.getD_eq_getElem?_getD, hslot]
    rfl

theorem boardSlot_prepared : Prepared boardSlot 1 0x100 ⟨0x800000, 0x801000, 0x811000⟩ where
  context := by
    refine ⟨_, rfl, ?_⟩
    simp only [settled, List.forall_mem_cons]
    exact ⟨rfl, rfl, rfl, rfl, rfl, rfl, nofun⟩
  mailbox := by
    have hrun : Interleave.Config.run (SecondaryMailbox.system Unit)
        ⟨SecondaryMailbox.initial Unit, fun _ => none⟩ [.start () .markPrepared, .next (), .next (),
          .start () (.publish 1), .next (), .next ()] = some _ := rfl
    refine ⟨Unit, inferInstance, _, Interleave.Config.run_steps hrun, fun k => ?_⟩
    cases k <;> rfl
  marked := by decide

theorem entry_routes_alike_board :
    (∀ slot ∈ boardSlots, AtRest slot) ∧ Accepts board 0x9000 ⟨fun _ => 0, false, false⟩ 1 := by
  have hslots : ∀ slot ∈ boardSlots, AtRest slot := by
    simp only [boardSlots, List.forall_mem_cons]
    exact ⟨.untouched rfl, .prepared boardSlot_prepared, .untouched rfl, .untouched rfl, nofun⟩
  refine ⟨hslots, ((entry_routes_alike board_placed hslots _).agrees 1).mpr ?_⟩
  exact ⟨rfl, boardSlot, rfl, rfl, by decide, by decide⟩

end Tvisor.Secondary.Lookup
