/-
# Tvisor.Lib.A64 -- straight lines and branches of AArch64 code

A subset of the instruction set: moves, loads, unsigned comparisons and conditional branches, over
64-bit registers. A piece of code is a list of lines, labels and instructions, as an assembler reads
it. It ends by falling through its last line or by a branch to a label that it does not define.

The machine is a step function with fuel, and `Ends` says that enough fuel leads to an exit. A
proof goes through the code block by block: `walk` runs a block without labels up to its end or to
the first branch that it takes. Three facts about a block are enough to go on: when it is left at
its end, where its branches lead, and which registers it does not write.

Memory and system registers are read only: no instruction here writes them. Of the four condition
flags the unsigned conditions read two, zero and carry.
-/
import Tvisor.Lib.Words

namespace A64

open Words

/-! ## Instructions -/

/-- The registers `x0` to `x30`. -/
abbrev Reg := Fin 31

scoped instance neZero_reg : NeZero 31 := ⟨by decide⟩

inductive Operand where
  | reg (r : Reg)
  | imm (value : Nat)
  | xzr
  deriving DecidableEq, Repr

inductive Cond where
  | eq
  | ne
  | lo
  | hs
  | ls
  deriving DecidableEq, Repr

inductive Instr (Sys Label : Type) where
  | mrs (d : Reg) (source : Sys)
  | movz (d : Reg) (value : Nat)
  | movk (d : Reg) (value shift : Nat)
  | mov (d : Reg) (source : Operand)
  | adrp (d : Reg) (address : Nat)
  | add (d n : Reg) (source : Operand)
  | and (d n m : Reg)
  | ldr (d n : Reg) (offset : Nat)
  | cmp (n : Reg) (source : Operand)
  | tst (n : Reg) (mask : Nat)
  | subs (d n m : Reg)
  | b (cond : Cond) (target : Label)
  | cbz (n : Reg) (target : Label)
  | cbnz (n : Reg) (target : Label)

inductive Line (Sys Label : Type) where
  | label (l : Label)
  | instr (i : Instr Sys Label)

/-! ## The machine -/

structure State where
  regs : Reg → Nat
  zero : Bool
  carry : Bool

/-- What the code reads and does not change. -/
structure Machine (Sys : Type) where
  sys : Sys → Nat
  memory : Nat → Nat

namespace State

def set (s : State) (d : Reg) (value : Nat) : State :=
  { s with regs := Function.update s.regs d value }

/-- The flags of `a - b`. -/
def compare (s : State) (a b : Nat) : State := { s with zero := a == b, carry := decide (b ≤ a) }

def value (s : State) : Operand → Nat
  | .reg r => s.regs r
  | .imm value => value
  | .xzr => 0

def holds (s : State) : Cond → Bool
  | .eq => s.zero
  | .ne => !s.zero
  | .lo => !s.carry
  | .hs => s.carry
  | .ls => !s.carry || s.zero

section Fields

variable (s : State) (d : Reg) (v a b : Nat)

@[simp] theorem regs_set (r : Reg) : (s.set d v).regs r = if r = d then v else s.regs r :=
  Function.update_apply s.regs d v r

@[simp] theorem zero_set : (s.set d v).zero = s.zero := rfl

@[simp] theorem carry_set : (s.set d v).carry = s.carry := rfl

@[simp] theorem regs_compare : (s.compare a b).regs = s.regs := rfl

@[simp] theorem zero_compare : (s.compare a b).zero = (a == b) := rfl

@[simp] theorem carry_compare : (s.compare a b).carry = decide (b ≤ a) := rfl

end Fields

end State

variable {Sys Label : Type} {i : Instr Sys Label}

/-- The label that the instruction may branch to. -/
def Instr.label : Instr Sys Label → Option Label
  | .b _ l | .cbz _ l | .cbnz _ l => some l
  | _ => none

/-- The branch is taken. -/
def Instr.taken (s : State) : Instr Sys Label → Bool
  | .b cond _ => s.holds cond
  | .cbz n _ => s.regs n == 0
  | .cbnz n _ => s.regs n != 0
  | _ => false

def Instr.target (s : State) (i : Instr Sys Label) : Option Label :=
  if i.taken s then i.label else none

/-- Sixteen bits are replaced, those below and above stay. -/
def replace (x value shift : Nat) : Nat :=
  x % 2 ^ shift + value * 2 ^ shift + x / 2 ^ (shift + 16) * 2 ^ (shift + 16)

/-- The registers and flags after the instruction. -/
def Instr.exec (M : Machine Sys) (s : State) : Instr Sys Label → State
  | .mrs d source => s.set d (M.sys source)
  | .movz d value => s.set d value
  | .movk d value shift => s.set d (replace (s.regs d) value shift)
  | .mov d source => s.set d (s.value source)
  | .adrp d address => s.set d (address / 4096 * 4096)
  | .add d n source => s.set d ((s.regs n + s.value source) % wordBound)
  | .and d n m => s.set d (s.regs n &&& s.regs m)
  | .ldr d n offset => s.set d (M.memory ((s.regs n + offset) % wordBound))
  | .cmp n source => s.compare (s.regs n) (s.value source)
  | .tst n mask => { s with zero := (s.regs n &&& mask) == 0, carry := false }
  | .subs d n m => (s.compare (s.regs n) (s.regs m)).set d (wrappingSub (s.regs n) (s.regs m))
  | .b _ _ | .cbz _ _ | .cbnz _ _ => s

/-- Where and in which state a piece of code is left. -/
inductive Exit (Label : Type) where
  | fell (s : State)
  | left (l : Label) (s : State)

section Runs

variable [DecidableEq Label]

/-- The lines after a label. -/
def after (l : Label) : List (Line Sys Label) → Option (List (Line Sys Label))
  | [] => none
  | .label l' :: rest => if l' = l then some rest else after l rest
  | .instr _ :: rest => after l rest

/-- A branch to a label of the code goes on after it, any other leaves the code. -/
def branch (code : List (Line Sys Label)) (l : Label) (s : State) :
    (List (Line Sys Label) × State) ⊕ Exit Label :=
  match after l code with
  | some rest => .inl (rest, s)
  | none => .inr (.left l s)

/-- One line of the code, with these lines ahead. -/
def step (M : Machine Sys) (code : List (Line Sys Label)) :
    List (Line Sys Label) → State → (List (Line Sys Label) × State) ⊕ Exit Label
  | [], s => .inr (.fell s)
  | .label _ :: rest, s => .inl (rest, s)
  | .instr i :: rest, s =>
      match i.target s with
      | none => .inl (rest, i.exec M s)
      | some l => branch code l s

def run (M : Machine Sys) (code : List (Line Sys Label)) :
    Nat → List (Line Sys Label) → State → Option (Exit Label)
  | 0, _, _ => none
  | fuel + 1, ahead, s =>
      match step M code ahead s with
      | .inl (rest, s') => run M code fuel rest s'
      | .inr e => some e

/-- The code comes to this exit, with these lines ahead. -/
def Ends (M : Machine Sys) (code ahead : List (Line Sys Label)) (s : State) (e : Exit Label) :
    Prop :=
  ∃ fuel, run M code fuel ahead s = some e

section Lines

variable {M : Machine Sys} {code ahead rest : List (Line Sys Label)} {s s' : State}
  {e e' : Exit Label} {l : Label}

theorem ends_of_inl (h : step M code ahead s = .inl (rest, s')) :
    Ends M code ahead s e ↔ Ends M code rest s' e := by
  constructor
  · rintro ⟨fuel, hrun⟩
    cases fuel with
    | zero => cases hrun
    | succ fuel =>
      rw [run, h] at hrun
      exact ⟨fuel, hrun⟩
  · rintro ⟨fuel, hrun⟩
    refine ⟨fuel + 1, ?_⟩
    rw [run, h]
    exact hrun

theorem ends_of_inr (h : step M code ahead s = .inr e') : Ends M code ahead s e ↔ e = e' := by
  constructor
  · rintro ⟨fuel, hrun⟩
    cases fuel with
    | zero => cases hrun
    | succ fuel =>
      rw [run, h] at hrun
      exact (Option.some.inj hrun).symm
  · rintro rfl
    refine ⟨1, ?_⟩
    rw [run, h]

theorem ends_nil : Ends M code [] s e ↔ e = .fell s := ends_of_inr rfl

theorem ends_label : Ends M code (.label l :: rest) s e ↔ Ends M code rest s e := ends_of_inl rfl

end Lines

end Runs

/-! ## Blocks -/

/-- A block up to its end, or up to the first branch that is taken. -/
def walk (M : Machine Sys) : List (Instr Sys Label) → State → Option Label × State
  | [], s => (none, s)
  | i :: block, s =>
      match i.target s with
      | none => walk M block (i.exec M s)
      | some l => (some l, s)

/-- A block as lines. -/
def lines (block : List (Instr Sys Label)) : List (Line Sys Label) := block.map .instr

/-- The register that the instruction writes. -/
def Instr.dest : Instr Sys Label → Option Reg
  | .mrs d _ | .movz d _ | .movk d _ _ | .mov d _ | .adrp d _ | .add d _ _ | .and d _ _ | .ldr d _ _
  | .subs d _ _ => some d
  | .cmp _ _ | .tst _ _ | .b _ _ | .cbz _ _ | .cbnz _ _ => none

section Blocks

variable {M : Machine Sys} {block : List (Instr Sys Label)} {s : State} {l : Label} {r : Reg}

theorem Instr.target_eq_none : i.target s = none ↔ i.taken s = false := by
  cases i with
  | b | cbz | cbnz => simp [Instr.target, Instr.label]
  | _ => exact iff_of_true rfl rfl

theorem walk_nil_eq_none : (walk M ([] : List (Instr Sys Label)) s).1 = none := rfl

theorem walk_of_none (h : i.target s = none) :
    walk M (i :: block) s = walk M block (i.exec M s) := by
  rw [walk, h]

theorem walk_of_some (h : i.target s = some l) :
    walk M (i :: block) s = (some l, s) := by
  rw [walk, h]

/-- A block is left at its end if none of its branches is taken. -/
theorem walk_cons_eq_none :
    (walk M (i :: block) s).1 = none ↔
      i.taken s = false ∧ (walk M block (i.exec M s)).1 = none := by
  rw [← Instr.target_eq_none]
  cases h : i.target s with
  | none => simp [walk_of_none h]
  | some l => simp [walk_of_some h]

/-- A branch changes nothing. -/
theorem walk_branch (h : i.exec M s = s) : (walk M [i] s).2 = s := by
  cases htarget : i.target s with
  | none => rw [walk_of_none htarget, h, walk]
  | some l => rw [walk_of_some htarget]

theorem Instr.exec_regs (i : Instr Sys Label) (h : i.dest ≠ some r) :
    (i.exec M s).regs r = s.regs r := by
  cases i with
  | cmp | tst | b | cbz | cbnz => rfl
  | mrs | movz | movk | mov | adrp | add | and | ldr | subs =>
    have hne : r ≠ _ := fun heq => h (congrArg some heq.symm)
    simp [Instr.exec, hne]

/-- A register that the block does not write. -/
theorem walk_regs (M : Machine Sys) (h : ∀ i ∈ block, i.dest ≠ some r) (s : State) :
    (walk M block s).2.regs r = s.regs r := by
  induction block generalizing s with
  | nil => rfl
  | cons i block ih =>
    cases htarget : i.target s with
    | some l => rw [walk_of_some htarget]
    | none =>
      rw [walk_of_none htarget, ih fun j hj => h j (List.mem_cons_of_mem i hj)]
      exact i.exec_regs (h i List.mem_cons_self)

theorem Instr.label_of_target (h : i.target s = some l) :
    i.label = some l := by
  unfold Instr.target at h
  split at h
  · exact h
  · cases h

/-- A branch that is taken is one of the block's. -/
theorem walk_label (h : (walk M block s).1 = some l) : ∃ i ∈ block, i.label = some l := by
  induction block generalizing s with
  | nil => cases h
  | cons i block ih =>
    cases htarget : i.target s with
    | some l' =>
      rw [walk_of_some htarget] at h
      cases h
      exact ⟨i, List.mem_cons_self, Instr.label_of_target htarget⟩
    | none =>
      rw [walk_of_none htarget] at h
      obtain ⟨j, hj, hlabel⟩ := ih h
      exact ⟨j, List.mem_cons_of_mem i hj, hlabel⟩

/-- If all branches of a block lead to one label, a block that is not left at its end is left for
that label. -/
theorem walk_eq_some (h : (walk M block s).1 ≠ none)
    (hlabel : ∀ i ∈ block, ∀ l', i.label = some l' → l' = l) : (walk M block s).1 = some l := by
  obtain ⟨l', hl'⟩ := Option.ne_none_iff_exists'.mp h
  obtain ⟨i, hi, hi'⟩ := walk_label hl'
  rw [hl', hlabel i hi l' hi']

section Ends

variable [DecidableEq Label] {code rest next : List (Line Sys Label)} {e : Exit Label}

theorem ends_cons_of_none (h : i.target s = none) :
    Ends M code (.instr i :: rest) s e ↔ Ends M code rest (i.exec M s) e :=
  ends_of_inl (by rw [step, h])

/-- A block that is left at its end. -/
theorem ends_through (h : (walk M block s).1 = none) :
    Ends M code (lines block ++ rest) s e ↔ Ends M code rest (walk M block s).2 e := by
  induction block generalizing s with
  | nil => exact Iff.rfl
  | cons i block ih =>
    obtain ⟨htaken, hblock⟩ := walk_cons_eq_none.mp h
    have htarget := Instr.target_eq_none.mpr htaken
    rw [walk_of_none htarget]
    exact (ends_cons_of_none htarget).trans (ih hblock)

/-- A block that is left by a branch. -/
theorem ends_branch (h : (walk M block s).1 = some l) :
    Ends M code (lines block ++ rest) s e ↔
      match branch code l (walk M block s).2 with
      | .inl (next, s') => Ends M code next s' e
      | .inr e' => e = e' := by
  induction block generalizing s with
  | nil => cases h
  | cons i block ih =>
    cases htarget : i.target s with
    | none =>
      rw [walk_of_none htarget] at h ⊢
      exact (ends_cons_of_none htarget).trans (ih h)
    | some l' =>
      rw [walk_of_some htarget] at h ⊢
      cases h
      have hstep : step M code (.instr i :: (lines block ++ rest)) s = branch code l s := by
        rw [step, htarget]
      cases hbranch : branch code l s with
      | inl ahead => exact ends_of_inl (hstep.trans hbranch)
      | inr e' => exact ends_of_inr (hstep.trans hbranch)

/-- A branch within the code. -/
theorem ends_jump (h : (walk M block s).1 = some l) (hnext : after l code = some next) :
    Ends M code (lines block ++ rest) s e ↔ Ends M code next (walk M block s).2 e := by
  rw [ends_branch h, branch, hnext]

/-- A branch out of the code. -/
theorem ends_leave (h : (walk M block s).1 = some l) (hnext : after l code = none) :
    Ends M code (lines block ++ rest) s e ↔ e = .left l (walk M block s).2 := by
  rw [ends_branch h, branch, hnext]

end Ends

end Blocks

end A64
