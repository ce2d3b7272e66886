/-
# Tvisor.HostManagement.Wait -- waiting for the answer to a request

`wait` polls the receipt of a request until the answer is there, two seconds of the physical counter
have gone by, or it has polled 100000000 times. It subtracts the readings of the counter as 64-bit
words and compares the difference with its ticks as it is. `StartupDeadline`, which serves the waits
of the startup, first cuts the difference to 56 bits.

A counter of fewer than 64 bits wraps below the word. Across that wrap the difference is at least
half a word, so the wait reports a timeout at once, however little time has gone by
(`wait_ends_at_wrap`). `wait_notEarly_iff` says for which start times it keeps its two seconds.
-/
import Tvisor.Lib.Clock
import Tvisor.Lib.Traces
import Tvisor.Management

namespace Tvisor.HostManagement.Wait

open Interleave Interleave.Prog Words Clock
open Management (Pending Reply)

/-! ## The wait -/

inductive Cell where
  | counter
  | channel (c : Management.Cell)
  deriving DecidableEq, Repr

abbrev Ops := Prog fun _ : Cell => Nat

abbrev Op := Action fun _ : Cell => Nat

/-- `CNTPCT_EL0` -/
def counter : Ops Nat := Atomic.load .counter

def tryResult (pending : Pending) : Ops (Pending × Except Management.Error (Option Reply)) :=
  (Management.tryResult pending).embed .channel

/-- The loop of `wait`. -/
def poll (start ticks : Nat) : Nat → Pending → Ops (Pending × Except String Reply)
  | 0, pending => return (pending, .error "management poll limit")
  | polls + 1, pending => do
      let now ← counter
      if ticks ≤ wrappingSub now start then
        return (pending, .error "management acknowledgement timeout")
      else
        match ← tryResult pending with
        | (pending, .error _) => return (pending, .error "management receipt already consumed")
        | (pending, .ok (some reply)) => return (pending, .ok reply)
        | (pending, .ok none) => poll start ticks polls pending

/-- Two seconds of a counter with this frequency. -/
def waitTicks (frequency : Nat) : Option Nat :=
  (checkedMul frequency 2).filter fun n => 0 < n ∧ n < 1 <<< 63

def maxPolls : Nat := 100000000

/-- `&mut Pending`: the receipt as it is after the wait comes back with the result. -/
def wait (frequency : Nat) (pending : Pending) : Ops (Pending × Except String Reply) :=
  match waitTicks frequency with
  | none => return (pending, .error "invalid management deadline")
  | some ticks => do
      let start ← counter
      poll start ticks maxPolls pending

theorem waitTicks_eq_some {frequency ticks : Nat} (h : waitTicks frequency = some ticks) :
    ticks = 2 * frequency ∧ ticks < 2 ^ 63 := by
  obtain ⟨hmul, hrange⟩ := Option.filter_eq_some_iff.mp h
  obtain ⟨-, rfl⟩ := checkedMul_eq_some.mp hmul
  simp only [decide_eq_true_eq] at hrange
  exact ⟨Nat.mul_comm _ _, hrange.2⟩

/-! ## Readings -/

/-- The readings of the counter, in their order. -/
def readings (ops : List Op) : List Nat :=
  ops.filterMap fun
    | .load .counter now => some now
    | _ => none

/-- The receipt is polled without a look at the counter. -/
theorem readings_channel (own : List (Action fun _ : Management.Cell => Nat)) (after : List Op) :
    readings (own.map (Action.embed Cell.channel) ++ after) = readings after := by
  induction own with
  | nil => rfl
  | cons op rest ih =>
    cases op <;> exact ih

section Runs

variable {w s start ticks polls frequency : Nat} {pending pending' : Pending} {ops : List Op}

theorem ran_counter {A : Type} {f : Nat → Ops A} {r : A} :
    (counter >>= f).Ran ops r ↔
      ∃ now rest, ops = .load .counter now :: rest ∧ (f now).Ran rest r := ran_load

/-- A timeout comes from the last reading. -/
theorem timeout_of_poll (hrun : (poll start ticks polls pending).Ran ops
      (pending', .error "management acknowledgement timeout")) :
    ∃ last, (readings ops).getLast? = some last ∧ ticks ≤ wrappingSub last start := by
  induction polls generalizing pending ops with
  | zero =>
    obtain ⟨-, hresult⟩ := ran_ret.mp hrun
    simp at hresult
  | succ polls ih =>
    rw [poll] at hrun
    obtain ⟨now, rest, rfl, hround⟩ := ran_counter.mp hrun
    split at hround
    · rename_i hexpired
      obtain ⟨rfl, -⟩ := ran_ret.mp hround
      exact ⟨now, rfl, hexpired⟩
    · obtain ⟨_, after, result, hpolled, hrest, rfl⟩ := Ran.of_bind hround
      obtain ⟨own, -, rfl⟩ := Ran.of_embed hpolled
      split at hrest
      · obtain ⟨-, hresult⟩ := ran_ret.mp hrest
        simp at hresult
      · obtain ⟨-, hresult⟩ := ran_ret.mp hrest
        simp at hresult
      · obtain ⟨last, hlast, hexpired⟩ := ih hrest
        refine ⟨last, ?_, hexpired⟩
        show (now :: readings _).getLast? = some last
        rw [readings_channel, List.getLast?_cons, hlast]
        rfl

/-- The wait of an accepted deadline reads the start and polls. -/
theorem ran_wait (hticks : waitTicks frequency = some ticks)
    {r : Pending × Except String Reply} :
    (wait frequency pending).Ran ops r ↔
      ∃ start rest, ops = .load .counter start :: rest ∧
        (poll start ticks maxPolls pending).Ran rest r := by
  rw [wait, hticks]
  exact ran_counter

end Runs

/-! ## Time -/

/-- The true times of the readings: the first is the start of the wait, and time does not go back.
-/
structure Timed (w s : Nat) (times : List Nat) (ops : List Op) : Prop where
  reads : readings ops = (s :: times).map (reading w)
  ordered : (s :: times).Pairwise (· ≤ ·)

/-- On a counter of `w` bits, a wait that starts at the time `s` reports a timeout only when the two
seconds have gone by at its last reading. -/
def NotEarly (w s frequency : Nat) : Prop :=
  ∀ pending pending' ops times, (wait frequency pending).Ran ops
      (pending', .error "management acknowledgement timeout") → Timed w s times ops →
    ∃ t, times.getLast? = some t ∧ s + 2 * frequency ≤ t

section Time

variable {w s ticks frequency : Nat}

theorem notEarly_of_none (h : waitTicks frequency = none) : NotEarly w s frequency := by
  intro pending pending' ops times hrun _
  rw [wait, h] at hrun
  obtain ⟨-, hresult⟩ := ran_ret.mp hrun
  simp at hresult

theorem notEarly_of_neverEarly (hticks : waitTicks frequency = some ticks)
    (h : NeverEarly w s ticks) : NotEarly w s frequency := by
  intro pending pending' ops times hrun htimed
  obtain ⟨start, rest, rfl, hpoll⟩ := (ran_wait hticks).mp hrun
  obtain ⟨last, hlast, hexpired⟩ := timeout_of_poll hpoll
  have hreads : start :: readings rest = reading w s :: times.map (reading w) := htimed.reads
  obtain ⟨rfl, hrest⟩ := List.cons.inj hreads
  rw [hrest, List.getLast?_map, Option.map_eq_some_iff] at hlast
  obtain ⟨t, ht, rfl⟩ := hlast
  have hst : s ≤ t := (List.pairwise_cons.mp htimed.ordered).1 t (List.mem_of_getLast? ht)
  refine ⟨t, ht, ?_⟩
  rw [← (waitTicks_eq_some hticks).1]
  exact h t hst hexpired

/-- A wait whose second reading is at the time `t` and has its difference over the ticks. -/
theorem ran_expired (hticks : waitTicks frequency = some ticks) (pending : Pending) {t : Nat}
    (hexpired : ticks ≤ wrappingSub (reading w t) (reading w s)) :
    (wait frequency pending).Ran
      [.load .counter (reading w s), .load .counter (reading w t)]
      (pending, .error "management acknowledgement timeout") := by
  refine (ran_wait hticks).mpr ⟨_, _, rfl, ran_counter.mpr ⟨_, _, rfl, ?_⟩⟩
  rw [if_pos hexpired]
  exact .ret _

theorem neverEarly_of_notEarly (hticks : waitTicks frequency = some ticks)
    (h : NotEarly w s frequency) : NeverEarly w s ticks := by
  intro t hst hexpired
  obtain ⟨last, hlast, hlate⟩ := h ⟨1, false⟩ _ _ [t] (ran_expired hticks _ hexpired)
    ⟨rfl, by simpa using hst⟩
  obtain rfl : t = last := by simpa using hlast
  rw [(waitTicks_eq_some hticks).1]
  exact hlate

/-- For every start and frequency: a wait cannot time out early exactly when its ticks are refused,
the counter is as wide as a word, its first reading is zero, or it does not wrap within the ticks.
-/
theorem wait_notEarly_iff (hw : w ≤ 64) :
    NotEarly w s frequency ↔ ∀ ticks, waitTicks frequency = some ticks →
      w = 64 ∨ reading w s = 0 ∨ reading w s + ticks ≤ 2 ^ w := by
  cases hticks : waitTicks frequency with
  | none => exact ⟨fun _ => nofun, fun _ => notEarly_of_none hticks⟩
  | some ticks =>
    have hiff := neverEarly_iff (s := s) hw (waitTicks_eq_some hticks).2.le
    constructor
    · rintro h _ ⟨⟩
      exact hiff.mp (neverEarly_of_notEarly hticks h)
    · intro h
      exact notEarly_of_neverEarly hticks (hiff.mpr (h ticks rfl))

end Time

/-- A counter of 56 bits at 54 MHz that was started a minute ago. -/
theorem wait_notEarly_iff_minute : NotEarly 56 3240000000 54000000 := by
  refine (wait_notEarly_iff (by decide)).mpr fun ticks hticks => ?_
  obtain ⟨rfl, -⟩ := waitTicks_eq_some hticks
  exact Or.inr (Or.inr (by decide))

/-- A counter of 56 bits at 54 MHz that wraps one tick after the wait began: the wait reports a
timeout of two seconds at that tick. -/
theorem wait_ends_at_wrap : ∃ ops,
    (wait 54000000 ⟨1, false⟩).Ran ops
      (⟨1, false⟩, .error "management acknowledgement timeout") ∧
    Timed 56 (2 ^ 56 - 1) [2 ^ 56] ops ∧
    waitTicks 54000000 = some 108000000 ∧ ¬ 2 ^ 56 - 1 + 108000000 ≤ 2 ^ 56 := by
  have hticks : waitTicks 54000000 = some 108000000 := by decide
  refine ⟨_, ran_expired (w := 56) (s := 2 ^ 56 - 1) (t := 2 ^ 56) hticks _ (by decide),
    ⟨rfl, by decide⟩, hticks, by decide⟩

end Tvisor.HostManagement.Wait
