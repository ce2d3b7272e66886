/-
# Tvisor.Management -- the request channel between two CPUs

A `Channel` has room for one request. `submit` takes the writer flag, writes the payload and
publishes it with the next sequence number; `take` claims a published number for the receiver;
`acknowledge` writes the reply and publishes it under the same number; `try_result` reads the reply
and retires the number, which frees the channel. Each method is a program of single atomic
operations in the order of the source. The two flags are words that are 0 or 1.

A `Pending` is made by a successful `submit` only and a `Request` by a successful `take`, and
neither can be copied. The client keeps those that it holds between calls; a call that uses or
drops one takes it out, and puts it back if it is still there at the end.
-/
import Tvisor.Lib.Interleave
import Tvisor.Lib.Words

namespace Tvisor.Management

open Interleave Words

/-! ## State -/

/-- What a CPU can be asked to do. -/
inductive Operation where
  | ping
  | workerTest
  | park
  | fatalStop
  | runTest
  | tlbQuiesce
  deriving DecidableEq, Repr

namespace Operation

/-- The discriminants. -/
def toWord : Operation → Nat
  | ping => 1
  | workerTest => 2
  | park => 3
  | fatalStop => 4
  | runTest => 5
  | tlbQuiesce => 6

/-- The operation of a word, if it has one. -/
def ofWord : Nat → Option Operation
  | 1 => some ping
  | 2 => some workerTest
  | 3 => some park
  | 4 => some fatalStop
  | 5 => some runTest
  | 6 => some tlbQuiesce
  | _ => none

@[simp] theorem ofWord_toWord (op : Operation) : ofWord op.toWord = some op := by cases op <;> rfl

end Operation

/-- Why a call is refused. -/
inductive Error where
  | busy
  | exhausted
  | completed
  deriving DecidableEq, Repr

/-- What the target answers. -/
structure Reply where
  value : Nat
  failed : Bool
  deriving DecidableEq, Repr

/-- The words of a channel. -/
inductive Cell where
  | writer
  | sequence
  | retired
  | taken
  | acknowledged
  | operation
  | argument
  | result
  | failed
  deriving DecidableEq, Repr

/-- The contents of the words. -/
abbrev Memory := Cell → Nat

/-- `Channel::new`. -/
def new : Memory := fun _ => 0

/-- The handle on a submitted request. -/
structure Pending where
  sequence : Nat
  completed : Bool
  deriving DecidableEq, Repr

/-- A request in the hands of its target. -/
structure Request where
  sequence : Nat
  operation : Operation
  argument : Nat
  deriving DecidableEq, Repr

/-! ## Methods -/

/-- One operation on the words of a channel. -/
abbrev Op := Action fun _ : Cell => Nat

/-- A program over the words. -/
abbrev Ops := Prog fun _ : Cell => Nat

/-- An atomic load. -/
def load (c : Cell) : Ops Nat := Atomic.load c

/-- An atomic store. -/
def store (c : Cell) (v : Nat) : Ops Unit := Atomic.store c v

/-- An atomic exchange and whether it took place. -/
def compareExchange (c : Cell) (expected new : Nat) : Ops Bool :=
  Atomic.compareExchange c expected new

/-- What `submit` does while it has the writer flag. -/
def publish (operation : Operation) (argument : Nat) : Ops (Except Error Pending) := do
  let old ← load .sequence
  if (← load .retired) ≠ old then return .error .busy
  else
    match checkedAdd old 1 with
    | some sequence => do
        store .operation operation.toWord
        store .argument argument
        store .sequence sequence
        return .ok { sequence, completed := false }
    | none => return .error .exhausted

/-- One attempt that does not wait. -/
def submit (operation : Operation) (argument : Nat) : Ops (Except Error Pending) := do
  if !(← compareExchange .writer 0 1) then return .error .busy
  else
    let result ← publish operation argument
    store .writer 0
    return result

/-- The number of the request acknowledged last. -/
def completedCount : Ops Nat := load .acknowledged

/-- `take` comes to `unreachable!` if the word of the operation is none of an operation. -/
inductive Panic where
  | unreachable
  deriving DecidableEq, Repr

/-- The exchange of `taken` makes a second doorbell harmless. -/
def take : Ops (Except Panic (Option Request)) := do
  let sequence ← load .sequence
  let taken ← load .taken
  if sequence = taken then return .ok none
  else if !(← compareExchange .taken taken sequence) then return .ok none
  else
    match Operation.ofWord (← load .operation) with
    | none => return .error .unreachable
    | some operation =>
        let argument ← load .argument
        return .ok (some { sequence, operation, argument })

/-- `&mut self`: the value as it is after the call comes back with the result. -/
def tryResult (pending : Pending) : Ops (Pending × Except Error (Option Reply)) := do
  if pending.completed then return (pending, .error .completed)
  else if (← load .acknowledged) ≠ pending.sequence then return (pending, .ok none)
  else
    let value ← load .result
    let failed ← load .failed
    store .retired pending.sequence
    return ({ pending with completed := true }, .ok (some { value, failed := failed != 0 }))

/-- The reply, and last the number that makes it visible. -/
def acknowledge (request : Request) (reply : Reply) : Ops Unit := do
  store .result reply.value
  store .failed reply.failed.toNat
  store .acknowledged request.sequence

/-! ## The channel as a system -/

/-- The methods, and the two drops. -/
inductive Call where
  | submit (operation : Operation) (argument : Nat)
  | completedCount
  | take
  | tryResult (pending : Pending)
  | dropPending (pending : Pending)
  | acknowledge (request : Request) (reply : Reply)
  | dropRequest (request : Request)
  deriving DecidableEq, Repr

/-- What they return. -/
inductive Outcome where
  | submitted (r : Except Error Pending)
  | count (n : Nat)
  | taken (r : Except Panic (Option Request))
  | polled (pending : Pending) (r : Except Error (Option Reply))
  | done

/-- The program of each call. -/
def code : Call → Ops Outcome
  | .submit operation argument => do return .submitted (← submit operation argument)
  | .completedCount => do return .count (← completedCount)
  | .take => do return .taken (← take)
  | .tryResult pending => do
      let (pending, r) ← tryResult pending
      return .polled pending r
  | .acknowledge request reply => do
      acknowledge request reply
      return .done
  | .dropPending _ | .dropRequest _ => return .done

/-- What the clients hold between calls: the numbers of the `Pending`s that are not completed, the
requests that have been taken, and the thread that is inside `take`. -/
structure Client (Tid : Type) where
  pendings : List Nat
  requests : List Request
  taking : Option Tid

namespace Client

variable {Tid : Type}

/-- No handles, and nobody in `take`. -/
def empty : Client Tid := ⟨[], [], none⟩

/-- A completed `Pending` has no effect any more, and nothing is kept of it. -/
def withoutPending (client : Client Tid) (pending : Pending) : Option (Client Tid) :=
  if pending.completed then some client
  else if pending.sequence ∈ client.pendings then
    some { client with pendings := client.pendings.erase pending.sequence }
  else none

/-- The handle comes back from a call. -/
def withPending (client : Client Tid) (pending : Pending) : Client Tid :=
  if pending.completed then client
  else { client with pendings := pending.sequence :: client.pendings }

/-- The request is handed over, if it is held. -/
def withoutRequest (client : Client Tid) (request : Request) : Option (Client Tid) :=
  if request ∈ client.requests then
    some { client with requests := client.requests.erase request }
  else none

end Client

/-- A CPU in one of its calls. -/
abbrev Cpu (Tid : Type) := Invocation (fun _ : Cell => Nat) Tid Call

/-- Any number of threads submit, poll and drop at any time. The receiver is not reentrant: one
`take` at a time. -/
def channel (Tid : Type) : System (fun _ : Cell => Nat) Tid Call Outcome (Client Tid) where
  code := code
  start client t
    | .submit _ _ | .completedCount => some client
    | .take =>
        match client.taking with
        | none => some { client with taking := some t }
        | some _ => none
    | .tryResult pending | .dropPending pending => client.withoutPending pending
    | .acknowledge request _ | .dropRequest request => client.withoutRequest request
  finish client _
    | .submit _ _, .submitted (.ok pending) => client.withPending pending
    | .take, .taken (.ok (some request)) =>
        { client with taking := none, requests := request :: client.requests }
    | .take, _ => { client with taking := none }
    | .tryResult _, .polled pending _ => client.withPending pending
    | _, _ => client

/-- No thread has called anything yet. -/
def initial (Tid : Type) : Shared (fun _ : Cell => Nat) Tid Call Outcome (Client Tid) :=
  ⟨new, .empty, []⟩

end Tvisor.Management
