/-
# Tvisor.Pcpu -- the slot of a physical CPU

A slot has a context that is filled once, a claim on that filling, and the startup mailbox.
`prepare` checks its arguments, takes the claim, writes the context field by field and only then
moves the mailbox out of `Offline`; `identity` reads four fields of the context, once the mailbox
has moved. The mailbox is the one of `Tvisor.SecondaryMailbox`, embedded among the slot's cells.
-/
import Tvisor.CpuTopology
import Tvisor.El2Stage1
import Tvisor.SecondaryMailbox

namespace Tvisor.Pcpu

open Interleave Fallible Words Page CpuTopology

/-! ## Stacks -/

/-- `STACK_SIZE` -/
def stackSize : Nat := 64 * 1024

/-- One page below each stack. -/
def guardSize : Nat := 4096

/-- A guard page and the stack above it. -/
structure StackLayout where
  guardStart : Nat
  bottom : Nat
  top : Nat
  deriving DecidableEq, Repr

/-- The layout from a page-aligned base on. -/
def stackLayout (base : Nat) : Except El2Stage1.TranslationError StackLayout :=
  if base &&& (4096 - 1) ≠ 0 then .error .invalidateParameter
  else
    match checkedAdd base guardSize with
    | none => .error .addressOverflow
    | some bottom =>
        match checkedAdd bottom stackSize with
        | none => .error .addressOverflow
        | some top => .ok { guardStart := base, bottom, top }

theorem stackLayout_of_bottom {base bottom : Nat} (haligned : base % 2 ^ 12 = 0)
    (hbottom : checkedAdd base guardSize = some bottom) :
    stackLayout base =
      match checkedAdd bottom stackSize with
      | none => .error .addressOverflow
      | some top => .ok { guardStart := base, bottom, top } := by
  have hmod : base &&& (4096 - 1) = base % 2 ^ 12 := Nat.and_two_pow_sub_one_eq_mod base 12
  unfold stackLayout
  rw [hmod, if_neg (not_not.mpr haligned), hbottom]

/-- A page-aligned base with room above it gives a guard page and sixteen pages of stack. -/
theorem stackLayout_ok {base : Nat} (haligned : base % 2 ^ 12 = 0)
    (hlt : base + 69632 < wordBound) :
    stackLayout base = .ok ⟨base, base + 4096, base + 69632⟩ := by
  have hguard : guardSize = 4096 := rfl
  have hsize : stackSize = 65536 := rfl
  have hbottom : checkedAdd base guardSize = some (base + 4096) := checkedAdd_of_lt (by omega)
  have htop : checkedAdd (base + 4096) stackSize = some (base + 69632) := by
    rw [checkedAdd_of_lt (by omega)]
    exact congrArg some (by omega)
  rw [stackLayout_of_bottom haligned hbottom, htop]

theorem stackLayout_eq_ok {base : Nat} {stack : StackLayout} (h : stackLayout base = .ok stack) :
    base % 2 ^ 12 = 0 ∧ base + 69632 < wordBound ∧ stack = ⟨base, base + 4096, base + 69632⟩ := by
  have hmod : base &&& (4096 - 1) = base % 2 ^ 12 := Nat.and_two_pow_sub_one_eq_mod base 12
  have hguard : guardSize = 4096 := rfl
  have hsize : stackSize = 65536 := rfl
  unfold stackLayout at h
  rw [hmod] at h
  split at h
  · cases h
  rename_i haligned
  split at h
  · cases h
  rename_i bottom hbottom
  split at h
  · cases h
  rename_i top htop
  cases h
  obtain ⟨-, rfl⟩ := checkedAdd_eq_some.mp hbottom
  obtain ⟨hlt, rfl⟩ := checkedAdd_eq_some.mp htop
  exact ⟨not_not.mp haligned, by omega, congrArg (StackLayout.mk _ _) (by omega)⟩

/-- The guard is unmapped and the stack above it is mapped onto itself. -/
def validateStack {n : Nat} (tables : El2Stage1.TableSet n) (stack : StackLayout) :
    Except El2Stage1.TranslationError Unit := do
  (stepPages stack.guardStart stack.bottom).forM fun address => do
    if (← tables.walk address).isSome then throw .unexpected else pure ()
  (stepPages stack.bottom stack.top ++ [stack.top - 1]).forM fun address => do
    match ← tables.walk address with
    | none => throw .unexpected
    | some mapping =>
        if mapping.pa ≠ address ∨ mapping.writable = false ∨ mapping.executable = true ∨
            mapping.memoryType ≠ .normal then throw .unexpected
        else pure ()

/-! ## Slots -/

/-- The words of a slot. -/
inductive Cell where
  | claimed
  | hostSp
  | activeVcpu
  | logicalId
  | affinity
  | stackBottom
  | stackTop
  | present
  | mailbox (c : SecondaryMailbox.Cell)
  deriving DecidableEq, Repr

/-- What a prepared slot says of its CPU. -/
structure CpuIdentity where
  logicalId : Nat
  affinity : Nat
  stackBottom : Nat
  stackTop : Nat
  context : Nat
  deriving DecidableEq, Repr

/-- Programs that access the slot. -/
abbrev Ops := Prog fun _ : Cell => Nat

/-- They may fail or panic. -/
abbrev Attempt := ExceptT (Stop String) Ops

def load (c : Cell) : Ops Nat := Atomic.load c

def store (c : Cell) (v : Nat) : Ops Unit := Atomic.store c v

def swap (c : Cell) (v : Nat) : Ops Nat := Atomic.swap c v

/-- An operation of the slot's mailbox, with its errors renamed. -/
def mailbox {A : Type} (f : SecondaryMailbox.ProtocolError → String)
    (x : SecondaryMailbox.Attempt A) : Attempt A :=
  ExceptT.mk do
    match ← (x.run.embed .mailbox : Ops (Except (Stop SecondaryMailbox.ProtocolError) A)) with
    | .ok a => return .ok a
    | .error e => return .error (mapStop f e)

/-- The checks of `prepare`. -/
def badPreparation (id affinity : Nat) (stack : StackLayout) : Prop :=
  maxCpus ≤ id ∨ strayAffinity affinity ∨ stack.bottom = 0 ∨
    (stackLayout stack.guardStart).toOption ≠ some stack

instance (id affinity : Nat) (stack : StackLayout) : Decidable (badPreparation id affinity stack) :=
  inferInstanceAs (Decidable (_ ∨ _ ∨ _ ∨ _))

/-- Claims the slot, fills it and then publishes it through its mailbox. -/
def prepare (id affinity : Nat) (stack : StackLayout) : Attempt Unit := do
  if badPreparation id affinity stack then throw (.error "invalid CPU preparation")
  else if (← swap .claimed 1) ≠ 0 then throw (.error "CPU slot already prepared")
  else
    store .hostSp 0
    store .activeVcpu 0
    store .logicalId id
    store .affinity affinity
    store .stackBottom stack.bottom
    store .stackTop stack.top
    store .present 1
    mailbox (fun _ => "invalid CPU preparation lifecycle") SecondaryMailbox.markPrepared

/-- The lifecycle has left `Offline`. -/
def isPrepared : Attempt Bool := do
  return (← mailbox (fun _ => "") SecondaryMailbox.lifecycle) != .offline

/-- The slot is at this address. -/
def identity (address : Nat) : Attempt (Option CpuIdentity) := do
  if !(← isPrepared) then return none
  else
    let logicalId ← load .logicalId
    let affinity ← load .affinity
    let stackBottom ← load .stackBottom
    let stackTop ← load .stackTop
    return some { logicalId, affinity, stackBottom, stackTop, context := address }

/-- What a CPU may ask of a slot. -/
inductive Call where
  | prepare (id affinity : Nat) (stack : StackLayout)
  | identity

/-- What it is told. -/
inductive Reply where
  | prepared (r : Except (Stop String) Unit)
  | identity (r : Except (Stop String) (Option CpuIdentity))

/-- The method of each call. -/
def code (address : Nat) : Call → Ops Reply
  | .prepare id affinity stack => do return .prepared (← (prepare id affinity stack).run)
  | .identity => do return .identity (← (identity address).run)

/-- Any number of preparers and readers of the slot at this address. -/
def system (Tid : Type) (address : Nat) : System (fun _ : Cell => Nat) Tid Call Reply Unit where
  code := code address
  start _ _ _ := some ()
  finish _ _ _ _ := ()

/-- `PcpuSlot::new`. -/
def initial (Tid : Type) : Shared (fun _ : Cell => Nat) Tid Call Reply Unit := ⟨fun _ => 0, (), []⟩

end Tvisor.Pcpu
