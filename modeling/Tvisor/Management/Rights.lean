/-
# Tvisor.Management.Rights -- who may do what with the channel

The channel has three exclusive rights: to write (the flag), to retire the pending request and to
answer the taken one. They go from thread to thread with the values that stand for them: a `Pending`
is the right to retire, a `Request` the right to answer. Where they are is a function of the
history. The counters tell which of them exist: a request is pending while the sequence is ahead of
the retired number, and is being handled while the taken number is ahead of the acknowledged one.
-/
import Mathlib.Data.List.Infix
import Mathlib.Data.List.Nodup
import Tvisor.Management

namespace Tvisor.Management

open Interleave

variable {Tid : Type}

abbrev Happening (Tid : Type) := Event (fun _ : Cell => Nat) Tid Call Outcome

abbrev History (Tid : Type) := List (Happening Tid)

abbrev State (Tid : Type) := Shared (fun _ : Cell => Nat) Tid Call Outcome (Client Tid)

/-! ## Rights -/

/-- Where a right is: it does not exist, a running call has made it, a client keeps it between
calls, a running call uses it, or it has been dropped. -/
inductive Right (Tid : Type) where
  | free
  | fresh (t : Tid)
  | idle
  | used (t : Tid)
  | lost

def Right.HeldBy (t : Tid) : Right Tid → Prop
  | .fresh t' | .used t' => t' = t
  | _ => False

structure Rights (Tid : Type) where
  owner : Option Tid
  pending : Right Tid
  request : Right Tid

/-- How an event moves the rights. -/
def Rights.next (g : Rights Tid) : Happening Tid → Rights Tid
  | .start i =>
      match i.call with
      | .tryResult ⟨_, false⟩ => { g with pending := .used i.tid }
      | .dropPending ⟨_, false⟩ => { g with pending := .lost }
      | .acknowledge _ _ => { g with request := .used i.tid }
      | .dropRequest _ => { g with request := .lost }
      | _ => g
  | .act i (.exchange .writer _ _ true) => { g with owner := some i.tid }
  | .act _ (.store .writer _) => { g with owner := none }
  | .act i (.store .sequence _) => { g with pending := .fresh i.tid }
  | .act _ (.store .retired _) => { g with pending := .free }
  | .act i (.exchange .taken _ _ true) => { g with request := .fresh i.tid }
  | .act _ (.store .acknowledged _) => { g with request := .free }
  | .ret _ (.submitted (.ok _)) => { g with pending := .idle }
  | .ret _ (.polled ⟨_, false⟩ _) => { g with pending := .idle }
  | .ret _ (.taken (.ok (some _))) => { g with request := .idle }
  | _ => g

def rights : History Tid → Rights Tid
  | [] => ⟨none, .free, .free⟩
  | ev :: history => (rights history).next ev

theorem Rights.next_read (g : Rights Tid) {i : Cpu Tid} {a : Op}
    (h : a.IsRead) : g.next (.act i a) = g := by
  cases a with
  | load c v => rfl
  | exchange c expected new success =>
    obtain rfl : success = false := h
    cases c <;> rfl
  | store c v => exact h.elim
  | swap c new old => exact h.elim

/-! ## Facts of the history -/

def delivery : Happening Tid → Option Request
  | .ret _ (.taken (.ok r)) => r
  | _ => none

/-- The requests that `take` has returned. -/
def deliveries (history : History Tid) : List Request := history.filterMap delivery

/-- This number was published by a `submit` of this payload. -/
def Submitted (history : History Tid) (sequence : Nat) (operation : Operation) (argument : Nat) :
    Prop :=
  ∃ i : Cpu Tid, i.call = .submit operation argument ∧ .act i (.store .sequence sequence) ∈ history

/-- The request with this number has been taken and answered with this reply. -/
def Acknowledged (history : History Tid) (sequence : Nat) (reply : Reply) : Prop :=
  ∃ (i : Cpu Tid) (request : Request), i.call = .acknowledge request reply ∧
    request.sequence = sequence ∧ request ∈ deliveries history ∧
    .act i (.store .acknowledged sequence) ∈ history

/-- A `Pending` that was not completed, or a taken `Request`, has been dropped. -/
def Dropped (history : History Tid) : Prop :=
  ∃ i : Cpu Tid, .start i ∈ history ∧
    ((∃ sequence, i.call = .dropPending ⟨sequence, false⟩) ∨
      ∃ request, i.call = .dropRequest request)

/-- The numbers stored in this cell are stored once each, and none is above the bound. -/
structure Numbered (c : Cell) (bound : Nat) (history : History Tid) : Prop where
  le : ∀ i s, .act i (.store c s) ∈ history → s ≤ bound
  once : ∀ i j s, .act i (.store c s) ∈ history → .act j (.store c s) ∈ history → i = j

/-- What a return says is true. -/
def Honest (history : History Tid) : Happening Tid → Prop
  | .ret i (.submitted (.ok pending)) => .act i (.store .sequence pending.sequence) ∈ history
  | .ret _ (.taken (.ok (some request))) =>
      Submitted history request.sequence request.operation request.argument
  | .ret _ (.taken (.error _)) => False
  | .ret i (.polled _ (.ok (some reply))) =>
      ∀ pending, i.call = .tryResult pending → Acknowledged history pending.sequence reply
  | _ => True

section Facts

variable {g h : History Tid} {ev : Happening Tid}

theorem deliveries_suffix (hs : g <:+ h) : deliveries g <:+ deliveries h := hs.filterMap _

theorem Submitted.mono {s : Nat} {operation : Operation} {argument : Nat}
    (hsub : Submitted g s operation argument) (hs : g <:+ h) :
    Submitted h s operation argument := by
  obtain ⟨i, hcall, hmem⟩ := hsub
  exact ⟨i, hcall, hs.subset hmem⟩

theorem Acknowledged.mono {s : Nat} {reply : Reply} (ha : Acknowledged g s reply) (hs : g <:+ h) :
    Acknowledged h s reply := by
  obtain ⟨i, request, hcall, hseq, hdel, hmem⟩ := ha
  exact ⟨i, request, hcall, hseq, (deliveries_suffix hs).subset hdel, hs.subset hmem⟩

theorem Dropped.mono (hd : Dropped g) (hs : g ⊆ h) : Dropped h := by
  obtain ⟨i, hmem, hcall⟩ := hd
  exact ⟨i, hs hmem, hcall⟩

theorem Honest.mono (hh : Honest g ev) (hs : g <:+ h) : Honest h ev := by
  unfold Honest at hh ⊢
  split at hh
  · exact hs.subset hh
  · exact hh.mono hs
  · exact hh
  · exact fun pending hcall => (hh pending hcall).mono hs
  · exact hh

theorem Numbered.of_ne {c : Cell} {bound : Nat} (hn : Numbered c bound h)
    (hev : ∀ i s, ev ≠ .act i (.store c s)) : Numbered c bound (ev :: h) where
  le i s hmem := hn.le i s ((List.mem_cons.mp hmem).resolve_left fun heq => hev i s heq.symm)
  once i j s hi hj :=
    hn.once i j s ((List.mem_cons.mp hi).resolve_left fun heq => hev i s heq.symm)
      ((List.mem_cons.mp hj).resolve_left fun heq => hev j s heq.symm)

/-- A number above all those before. -/
theorem Numbered.store {c : Cell} {bound s : Nat} (hn : Numbered c bound h) (hlt : bound < s)
    (i : Cpu Tid) : Numbered c s (.act i (.store c s) :: h) where
  le j s' hmem := by
    rcases List.mem_cons.mp hmem with heq | hold
    · cases heq
      exact Nat.le_refl s
    · exact (hn.le j s' hold).trans hlt.le
  once j k s' hj hk := by
    have hnew : ∀ j, .act j (.store c s) ∉ h := fun j hmem =>
      absurd (hn.le j s hmem) (not_le.mpr hlt)
    rcases List.mem_cons.mp hj with heq | hj
    · cases heq
      rcases List.mem_cons.mp hk with heq | hk
      · cases heq
        rfl
      · exact absurd hk (hnew k)
    · rcases List.mem_cons.mp hk with heq | hk
      · cases heq
        exact absurd hj (hnew j)
      · exact hn.once j k s' hj hk

end Facts

/-! ## The invariant -/

/-- The counters are at most one apart, and tell which rights exist. -/
structure Counted (m : Memory) (g : Rights Tid) : Prop where
  retired_le : m .retired ≤ m .acknowledged
  acknowledged_le : m .acknowledged ≤ m .taken
  taken_le : m .taken ≤ m .sequence
  sequence_le : m .sequence ≤ m .retired + 1
  owner : g.owner = none ↔ m .writer = 0
  pending : g.pending = .free ↔ m .sequence = m .retired
  request : g.request = .free ↔ m .acknowledged = m .taken

/-- The clients hold what is idle, and nothing else. -/
structure Tokens (client : Client Tid) (m : Memory) (g : Rights Tid) (history : History Tid) :
    Prop where
  pendings : g.pending = .idle → client.pendings = [m .sequence]
  noPendings : g.pending ≠ .idle → client.pendings = []
  requests : g.request = .idle →
    ∃ request ∈ deliveries history, client.requests = [request] ∧ request.sequence = m .taken
  noRequests : g.request ≠ .idle → client.requests = []

/-- The payload is that of the pending request, the reply that of the acknowledged one. -/
structure Contents (m : Memory) (history : History Tid) : Prop where
  payload : m .retired < m .sequence → ∃ operation : Operation, m .operation = operation.toWord ∧
    Submitted history (m .sequence) operation (m .argument)
  reply : m .retired < m .acknowledged →
    Acknowledged history (m .acknowledged) ⟨m .result, m .failed != 0⟩

/-- What the history has is in order. -/
structure Records (m : Memory) (g : Rights Tid) (history : History Tid) : Prop where
  sequences : Numbered .sequence (m .sequence) history
  acknowledgements : Numbered .acknowledged (m .acknowledged) history
  delivered : ∀ request ∈ deliveries history, request.sequence ≤ m .taken
  /-- A request that is being taken has not been delivered yet. -/
  fresh : ∀ t, g.request = .fresh t → ∀ request ∈ deliveries history, request.sequence < m .taken
  once : ((deliveries history).map Request.sequence).Nodup
  honest : ∀ ev ∈ history, Honest history ev
  dropped : Dropped history → g.pending = .lost ∨ g.request = .lost
  /-- Nothing is published after a drop. -/
  last : ∀ i s older, .act i (.store .sequence s) :: older <:+ history → ¬ Dropped older

structure Consistent (σ : State Tid) : Prop where
  counted : Counted σ.mem (rights σ.history)
  tokens : Tokens σ.env σ.mem (rights σ.history) σ.history
  contents : Contents σ.mem σ.history
  records : Records σ.mem (rights σ.history) σ.history

/-- The counters stand in this order, and at most one request is under way. -/
theorem Consistent.counters {σ : State Tid} (h : Consistent σ) :
    σ.mem .retired ≤ σ.mem .acknowledged ∧ σ.mem .acknowledged ≤ σ.mem .taken ∧
      σ.mem .taken ≤ σ.mem .sequence ∧ σ.mem .sequence ≤ σ.mem .retired + 1 :=
  ⟨h.counted.retired_le, h.counted.acknowledged_le, h.counted.taken_le, h.counted.sequence_le⟩

/-- One more event that delivers and drops nothing. -/
theorem Records.cons {m m' : Memory} {g g' : Rights Tid} {history : History Tid}
    {ev : Happening Tid} (h : Records m g history)
    (hsequences : Numbered .sequence (m' .sequence) (ev :: history))
    (hacknowledgements : Numbered .acknowledged (m' .acknowledged) (ev :: history))
    (hdeliveries : deliveries (ev :: history) = deliveries history)
    (htaken : m .taken ≤ m' .taken)
    (hfresh : ∀ t, g'.request = .fresh t → m .taken < m' .taken ∨ g.request = .fresh t)
    (hhonest : Honest (ev :: history) ev)
    (hstart : ∀ i, ev = .start i → ¬ Dropped [ev])
    (hpending : g.pending = .lost → g'.pending = .lost)
    (hrequest : g.request = .lost → g'.request = .lost)
    (hlast : ∀ i s, ev = .act i (.store .sequence s) → ¬ Dropped history) :
    Records m' g' (ev :: history) where
  sequences := hsequences
  acknowledgements := hacknowledgements
  delivered request hmem := by
    rw [hdeliveries] at hmem
    exact (h.delivered request hmem).trans htaken
  fresh t hg request hmem := by
    rw [hdeliveries] at hmem
    rcases hfresh t hg with hlt | hold
    · exact (h.delivered request hmem).trans_lt hlt
    · exact (h.fresh t hold request hmem).trans_le htaken
  once := by
    rw [hdeliveries]
    exact h.once
  honest ev' hmem := by
    rcases List.mem_cons.mp hmem with rfl | hold
    · exact hhonest
    · exact (h.honest ev' hold).mono (List.suffix_cons _ _)
  dropped hd := by
    obtain ⟨i, hmem, hcall⟩ := hd
    rcases List.mem_cons.mp hmem with heq | hold
    · exact absurd ⟨i, heq ▸ List.mem_singleton_self _, hcall⟩ (hstart i heq.symm)
    · exact (h.dropped ⟨i, hold, hcall⟩).imp hpending hrequest
  last i s older hsuffix := by
    rcases List.suffix_cons_iff.mp hsuffix with heq | hold
    · obtain ⟨hev, rfl⟩ := List.cons.inj heq
      exact hlast i s hev.symm
    · exact h.last i s older hold

end Tvisor.Management
