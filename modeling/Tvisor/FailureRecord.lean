/-
# Tvisor.FailureRecord -- the first failure of a CPU

A faulting CPU records what happened without allocation and without waiting: whoever finds the state
word at 0 moves it to 1, writes the four words of evidence and moves it to 2. A snapshot is taken
only at 2; an interrupted recording has no snapshot.
-/
import Tvisor.Lib.Interleave

namespace Tvisor.FailureRecord

open Interleave

/-- The evidence of a fault. -/
structure Failure where
  kind : Nat
  syndrome : Nat
  pc : Nat
  address : Nat
  deriving DecidableEq, Repr

/-- Its words. -/
inductive Field where
  | kind
  | syndrome
  | pc
  | address
  deriving DecidableEq, Repr

/-- The words of a record. -/
inductive Cell where
  | state
  | field (x : Field)
  deriving DecidableEq, Repr

def Failure.get (failure : Failure) : Field → Nat
  | .kind => failure.kind
  | .syndrome => failure.syndrome
  | .pc => failure.pc
  | .address => failure.address

abbrev Ops := Prog fun _ : Cell => Nat

def load (c : Cell) : Ops Nat := Atomic.load c

def store (c : Cell) (v : Nat) : Ops Unit := Atomic.store c v

def compareExchange (c : Cell) (expected new : Nat) : Ops Bool :=
  Atomic.compareExchange c expected new

/-- Only the first failure is kept. -/
def record (failure : Failure) : Ops Unit := do
  if !(← compareExchange .state 0 1) then return ()
  else
    store (.field .kind) failure.kind
    store (.field .syndrome) failure.syndrome
    store (.field .pc) failure.pc
    store (.field .address) failure.address
    store .state 2

/-- The evidence, if it is complete. -/
def snapshot : Ops (Option Failure) := do
  if (← load .state) ≠ 2 then return none
  else
    let kind ← load (.field .kind)
    let syndrome ← load (.field .syndrome)
    let pc ← load (.field .pc)
    let address ← load (.field .address)
    return some { kind, syndrome, pc, address }

/-- What a CPU may ask of a record. -/
inductive Call where
  | record (failure : Failure)
  | snapshot

inductive Reply where
  | done
  | snapshot (failure : Option Failure)

/-- The method of each call. -/
def code : Call → Ops Reply
  | .record failure => do
      record failure
      return .done
  | .snapshot => do return .snapshot (← snapshot)

/-- Any number of writers and readers. -/
def system (Tid : Type) : System (fun _ : Cell => Nat) Tid Call Reply Unit where
  code := code
  start _ _ _ := some ()
  finish _ _ _ _ := ()

/-- `FailureRecord::new`. -/
def initial (Tid : Type) : Shared (fun _ : Cell => Nat) Tid Call Reply Unit := ⟨fun _ => 0, (), []⟩

end Tvisor.FailureRecord
