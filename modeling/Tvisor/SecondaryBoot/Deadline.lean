/-
# Tvisor.SecondaryBoot.Deadline -- startup deadlines across a counter wrap

`StartupDeadline` turns a frequency and a number of seconds into ticks, and two readings of the
physical counter into an elapsed time. The counter may have any width from 56 to 64 bits, so the
difference of two readings is cut to 56 bits.

Three moduli meet here: the counter's own, that of the words the readings are subtracted in, and
2^56. `Clock` says that the least of them decides. The wait of `wait_until_parked` then compares
true elapsed times: it ends with a timeout at the first of them that reaches the ticks.
-/
import Tvisor.Lib.Clock
import Tvisor.SecondaryBoot.Waiting

namespace Tvisor.SecondaryBoot

open Words Clock Interleave Interleave.Prog Fallible StartupPublication

/-! ## `StartupDeadline` -/

structure StartupDeadline where
  ticks : Nat
  deriving DecidableEq, Repr

namespace StartupDeadline

def new (frequency seconds : Nat) : Option StartupDeadline := do
  if frequency = 0 ∨ 2 ^ 32 - 1 < frequency ∨ seconds = 0 then none
  else
    let ticks ← checkedMul frequency seconds
    if 1 <<< 55 ≤ ticks then none else some { ticks }

def elapsed (start now : Nat) : Nat := wrappingSub now start &&& (1 <<< 56 - 1)

def counterProgresses (start now : Nat) : Bool :=
  let elapsed := wrappingSub now start &&& (1 <<< 56 - 1)
  elapsed != 0 && elapsed < 1 <<< 55

/-- A frequency of a word of 32 bits, and a product that half of the counter can tell. -/
theorem new_eq_some {frequency seconds : Nat} {deadline : StartupDeadline} :
    new frequency seconds = some deadline ↔
      0 < frequency ∧ frequency < 2 ^ 32 ∧ 0 < seconds ∧ frequency * seconds < 2 ^ 55 ∧
        deadline.ticks = frequency * seconds := by
  have hword : (2 ^ 55 : Nat) ≤ wordBound := by decide
  unfold new
  constructor
  · intro h
    split at h
    · cases h
    rename_i hvalid
    obtain ⟨ticks, hticks, hrest⟩ := Option.bind_eq_some_iff.mp h
    obtain ⟨-, rfl⟩ := checkedMul_eq_some.mp hticks
    split at hrest
    · cases hrest
    rename_i hbound
    cases hrest
    exact ⟨by omega, by omega, by omega, Nat.lt_of_not_le hbound, rfl⟩
  · rintro ⟨hpos, hfrequency, hseconds, hbound, hticks⟩
    rw [if_neg (by omega), checkedMul_eq_some.mpr ⟨hbound.trans_le hword, rfl⟩]
    show (if 2 ^ 55 ≤ frequency * seconds then none else some _) = _
    rw [if_neg (Nat.not_le.mpr hbound), ← hticks]

/-- The elapsed time between two readings of a counter that has at least 56 bits. -/
theorem elapsed_reading {w s d : Nat} (hlow : 56 ≤ w) (hhigh : w ≤ 64) (hd : d < 2 ^ 56) :
    elapsed (reading w s) (reading w (s + d)) = d := masked_elapsed hlow hhigh hd

theorem counterProgresses_reading {w s d : Nat} (hlow : 56 ≤ w) (hhigh : w ≤ 64)
    (hd : d < 2 ^ 56) :
    counterProgresses (reading w s) (reading w (s + d)) = true ↔ 0 < d ∧ d < 2 ^ 55 := by
  have hdef : counterProgresses (reading w s) (reading w (s + d)) =
      (elapsed (reading w s) (reading w (s + d)) != 0 &&
        decide (elapsed (reading w s) (reading w (s + d)) < 2 ^ 55)) := rfl
  rw [hdef, elapsed_reading hlow hhigh hd]
  simp [Nat.pos_iff_ne_zero]

end StartupDeadline

/-- The part of `validate_platform` about the counter: its frequency gives the deadline of two
seconds, and one of 100000 readings must have progressed. -/
def validateCounter (frequency start : Nat) (counter : Nat → Nat) :
    Except String StartupDeadline :=
  match StartupDeadline.new frequency 2 with
  | none => .error "invalid startup counter frequency"
  | some deadline =>
      if (List.range 100000).any fun k => StartupDeadline.counterProgresses start (counter k) then
        .ok deadline
      else .error "physical startup counter did not progress"

/-- The counter passes when its frequency is a nonzero word of 32 bits and one of the readings is
later than the first, by less than half of the 56 bits, whatever wraps between; the deadline is
twice the frequency. -/
theorem validateCounter_eq_ok {w s frequency : Nat} {d : Nat → Nat} {deadline : StartupDeadline}
    (hlow : 56 ≤ w) (hhigh : w ≤ 64) (hd : ∀ k, d k < 2 ^ 56) :
    validateCounter frequency (reading w s) (fun k => reading w (s + d k)) = .ok deadline ↔
      0 < frequency ∧ frequency < 2 ^ 32 ∧ deadline.ticks = 2 * frequency ∧
        ∃ k < 100000, 0 < d k ∧ d k < 2 ^ 55 := by
  have hany : (List.range 100000).any (fun k =>
      StartupDeadline.counterProgresses (reading w s) (reading w (s + d k))) = true ↔
      ∃ k < 100000, 0 < d k ∧ d k < 2 ^ 55 := by
    simp only [List.any_eq_true, List.mem_range,
      StartupDeadline.counterProgresses_reading hlow hhigh (hd _)]
  have hnew : StartupDeadline.new frequency 2 = some deadline ↔
      0 < frequency ∧ frequency < 2 ^ 32 ∧ deadline.ticks = 2 * frequency := by
    rw [StartupDeadline.new_eq_some]
    omega
  rw [← hany, ← and_assoc, ← and_assoc, and_assoc (a := 0 < frequency), ← hnew, validateCounter]
  cases StartupDeadline.new frequency 2 with
  | none => simp only [reduceCtorEq, false_and]
  | some found =>
    dsimp only
    split
    · rename_i hprogress
      simp only [Except.ok.injEq, Option.some.injEq, hprogress, and_true]
    · rename_i hprogress
      simp only [reduceCtorEq, hprogress, and_false]

/-- A counter of 64 bits that wraps at the first of the later readings. -/
theorem validateCounter_eq_ok_wrapping :
    validateCounter 54000000 (reading 64 (2 ^ 64 - 1)) (fun _ => reading 64 (2 ^ 64 - 1 + 1)) =
      .ok ⟨108000000⟩ :=
  (validateCounter_eq_ok (d := fun _ => 1) (by decide) (by decide) fun _ => by decide).mpr
    ⟨by decide, by decide, rfl, 0, by decide, by decide, by decide⟩

/-! ## Waits -/

namespace Waiting

/-- The elapsed times that a wait has read. -/
def timesRead (ops : List Op) : List UInt64 :=
  ops.filterMap fun
    | .load .elapsed t => some t
    | _ => none

/-- The wait ends with a timeout at the first reading that reaches the ticks, and only there. A
fatal condition also ends it, but is reported as such. -/
structure Expires {ε : Type} (ticks : Nat) (times : List UInt64)
    (r : Except (Halt ε) (Except WaitError Unit × Bool)) : Prop where
  before : ∀ t ∈ times.dropLast, t.toNat < ticks
  timeout : r = .ok (.error .timeout, false) ↔ ∃ t ∈ times, ticks ≤ t.toNat
  accepted : ∀ saw, r ≠ .ok (.error .invalidDeadline, saw)

section Runs

variable {ε : Type} {slot generation ticks polls maxPolls : Nat} {ops : List Op}
  {r : Except (Halt ε) (Except WaitError Unit × Bool)}

/-- A wait that ends otherwise has only read times before the deadline. -/
theorem Expires.of_lt {times : List UInt64} (htimes : ∀ t ∈ times, t.toNat < ticks)
    (hr : r ≠ .ok (.error .timeout, false))
    (haccepted : ∀ saw, r ≠ .ok (.error .invalidDeadline, saw)) : Expires ticks times r := by
  refine ⟨fun t ht => htimes t (List.dropLast_subset times ht), ⟨fun h => absurd h hr, ?_⟩,
    haccepted⟩
  rintro ⟨t, ht, hlate⟩
  exact absurd (htimes t ht) (Nat.not_lt.mpr hlate)

/-- One more reading, before the others. -/
theorem Expires.cons {first : UInt64} {times : List UInt64} (h : Expires ticks times r)
    (hfirst : first.toNat < ticks) : Expires ticks (first :: times) r := by
  refine ⟨?_, ?_, h.accepted⟩
  · intro t ht
    cases times with
    | nil => cases ht
    | cons t' rest =>
      rw [List.dropLast_cons_cons, List.mem_cons] at ht
      rcases ht with rfl | ht
      · exact hfirst
      · exact h.before t ht
  · rw [h.timeout]
    simp [Nat.not_le.mpr hfirst]

theorem Expires.late {last : UInt64} (h : ticks ≤ last.toNat) :
    Expires (ε := ε) ticks [last] (.ok (.error .timeout, false)) :=
  ⟨nofun, ⟨fun _ => ⟨last, List.mem_singleton_self last, h⟩, fun _ => rfl⟩, nofun⟩

theorem expires_pollParked
    (hrun : (pollParked elapsed slot 0 ticks polls n false : Watch ε _).run.Ran ops r) :
    Expires ticks (timesRead ops) r := by
  induction polls generalizing ops n with
  | zero =>
    obtain ⟨rfl, rfl⟩ := ran_ret.mp hrun
    exact .of_lt (by simp [timesRead]) nofun nofun
  | succ polls ih =>
    cases ran_round hrun with
    | fatal => exact .of_lt (by simp [timesRead]) nofun nofun
    | late hfirst => exact .late hfirst
    | panicked hfirst | failed hfirst | parkedFatal hfirst =>
      exact .of_lt (by simpa [timesRead] using hfirst) nofun nofun
    | parkedLate hfirst hsecond => exact (Expires.late hsecond).cons hfirst
    | parked hfirst hsecond =>
      exact .of_lt (by simpa [timesRead, sighting] using ⟨hfirst, hsecond⟩) nofun nofun
    | next hfirst hrest => exact (ih hrest).cons hfirst

/-- The deadline is in the range that the wait accepts. -/
theorem expires_waitUntilParked (hpos : 0 < ticks) (hticks : ticks < 2 ^ 63)
    (hrun : (waitUntilParked elapsed slot generation 0 ticks maxPolls : Watch ε _).run.Ran ops r) :
    Expires ticks (timesRead ops) r := by
  rcases waitUntilParked_cases hrun with ⟨rfl, hops⟩ | ⟨hinvalid, -⟩ | ⟨-, tail, rfl, hpoll⟩
  · refine .of_lt ?_ nofun nofun
    rcases hops with rfl | ⟨word, rfl⟩ <;> simp [timesRead]
  · rcases hinvalid with hzero | hlarge
    · exact absurd hzero hpos.ne'
    · exact absurd hticks (Nat.not_lt.mpr hlarge)
  · show Expires ticks (timesRead tail) r
    exact expires_pollParked hpoll

end Runs

/-! ## Wrap safety -/

/-- For every counter of 56 to 64 bits and every start: `elapsed` is the true elapsed time below
2^56, and `counter_progresses` holds exactly between 0 and 2^55. The ticks of an accepted deadline
are the product, in the range of `wait_until_parked`; a wait that is given these elapsed times is
not refused, and it times out exactly at the first of them that reaches the ticks. -/
theorem startupDeadline_wrap_safe {w : Nat} (hlow : 56 ≤ w) (hhigh : w ≤ 64) (s : Nat) :
    (∀ d < 2 ^ 56, StartupDeadline.elapsed (reading w s) (reading w (s + d)) = d ∧
      (StartupDeadline.counterProgresses (reading w s) (reading w (s + d)) = true ↔
        0 < d ∧ d < 2 ^ 55)) ∧
    ∀ frequency seconds deadline, StartupDeadline.new frequency seconds = some deadline →
      deadline.ticks = frequency * seconds ∧ 0 < deadline.ticks ∧ deadline.ticks < 2 ^ 55 ∧
      ∀ (ε : Type) (slot generation maxPolls : Nat) (ops : List Op)
        (r : Except (Halt ε) (Except WaitError Unit × Bool)) (ds : List Nat),
        (waitUntilParked elapsed slot generation 0 deadline.ticks maxPolls :
          Watch ε _).run.Ran ops r →
        (∀ d ∈ ds, d < 2 ^ 56) →
        (timesRead ops).map UInt64.toNat =
          ds.map (fun d => StartupDeadline.elapsed (reading w s) (reading w (s + d))) →
        (∀ saw, r ≠ .ok (.error .invalidDeadline, saw)) ∧
          (∀ d ∈ ds.dropLast, d < deadline.ticks) ∧
          (r = .ok (.error .timeout, false) ↔ ∃ d ∈ ds, deadline.ticks ≤ d) := by
  refine ⟨fun d hd => ⟨StartupDeadline.elapsed_reading hlow hhigh hd,
    StartupDeadline.counterProgresses_reading hlow hhigh hd⟩, ?_⟩
  intro frequency seconds deadline hnew
  obtain ⟨hfrequency, -, hseconds, hbound, hticks⟩ := StartupDeadline.new_eq_some.mp hnew
  have hpos := Nat.mul_pos hfrequency hseconds
  rw [← hticks] at hbound hpos
  refine ⟨hticks, hpos, hbound, ?_⟩
  intro ε slot generation maxPolls ops r ds hrun hds hread
  -- The wait has read the true elapsed times.
  have htimes : (timesRead ops).map UInt64.toNat = ds := by
    rw [hread]
    conv_rhs => rw [← List.map_id ds]
    exact List.map_congr_left fun d hd => StartupDeadline.elapsed_reading hlow hhigh (hds d hd)
  subst htimes
  have hexpires := expires_waitUntilParked hpos (hbound.trans (by decide)) hrun
  refine ⟨hexpires.accepted, ?_, ?_⟩
  · rw [← List.map_dropLast, List.forall_mem_map]
    exact hexpires.before
  · rw [hexpires.timeout]
    simp

/-- A counter of 56 bits that wraps during a wait of two seconds at 54 MHz. -/
theorem startupDeadline_wrap_safe_wrapping :
    StartupDeadline.elapsed (reading 56 (2 ^ 56 - 1)) (reading 56 (2 ^ 56 - 1 + 108000000)) =
      108000000 ∧
    ∃ (deadline : StartupDeadline) (ops : List Op),
      StartupDeadline.new 54000000 2 = some deadline ∧
      (waitUntilParked elapsed 1 7 0 deadline.ticks 1 : Watch BootError _).run.Ran ops
        (.ok (.error .timeout, false)) ∧
      ∃ d ∈ [108000000], deadline.ticks ≤ d := by
  have hsafe := startupDeadline_wrap_safe (w := 56) le_rfl (by decide) (2 ^ 56 - 1)
  have hnew : StartupDeadline.new 54000000 2 = some ⟨108000000⟩ := by decide
  have hrun : (waitUntilParked elapsed 1 7 0 108000000 1 : Watch BootError _).run.Ran
      [.load (.shared (.slot 1 (.mailbox .ready))) (7 : Nat), .load (.shared .fatal) (0 : Nat),
        .load .elapsed (108000000 : UInt64)] (.ok (.error .timeout, false)) :=
    .load (.load (.load (.ret _)))
  have helapsed := (hsafe.1 108000000 (by decide)).1
  refine ⟨helapsed, ⟨108000000⟩, _, hnew, hrun, ?_⟩
  obtain ⟨-, -, -, hwait⟩ := hsafe.2 54000000 2 ⟨108000000⟩ hnew
  refine ((hwait BootError 1 7 1 _ _ [108000000] hrun (by simp) ?_).2.2).mp rfl
  rw [List.map_singleton, helapsed]
  rfl

end Waiting

end Tvisor.SecondaryBoot
