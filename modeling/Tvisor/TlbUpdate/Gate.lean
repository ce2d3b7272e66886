/-
# Tvisor.TlbUpdate.Gate -- who has the gate

One word keeps updates and membership changes apart. `try_membership_change` closes it with 2 for
its caller, who opens it again with `finish_membership_change`; `begin` closes it with 1, and hands
it to the phase. From then on no call has the gate, until `finish` has taken the phase to `Complete`
and opens it. A call that fails while it has the gate keeps it for ever.

What a call has is told by its own operations. At most one call has the gate, and what it has it as
stands in the word. So the assertion of `finish_membership_change` cannot fail, whatever the other
CPUs do, several coordinators at once included.
-/
import Tvisor.Lib.Discipline
import Tvisor.TlbUpdate.Reads

namespace Tvisor.TlbUpdate

open Interleave Interleave.Prog

/-! ## The gate -/

/-- As what a call has the gate. -/
inductive Holding where
  | membership
  | epoch
  deriving DecidableEq, Repr

/-- What the gate reads while it is held. -/
def Holding.toWord : Holding → Nat
  | epoch => 1
  | membership => 2

/-- What a call has after an operation of its own. `begin` hands the gate to the phase and `finish`
takes it from there. -/
def next (holding : Option Holding) : Op → Option Holding
  | .exchange .gate _ new true => some (if new = 2 then .membership else .epoch)
  | .exchange .phase _ new true =>
      if new = 1 then none else if new = 4 then some .epoch else holding
  | .store .gate _ | .swap .gate _ _ => none
  | _ => holding

/-- What a call has after these operations, newest first. -/
def held : List Op → Option Holding
  | [] => none
  | a :: past => next (held past) a

/-- The exchanges of the phase: `begin`, with the gate, then `start_replace`, `publish` and
`finish`. -/
def PhaseMove (holding : Option Holding) (expected new : Nat) : Prop :=
  (holding = some .epoch ∧ (expected = 0 ∨ expected = 4) ∧ new = 1) ∨
  ((expected = 1 ∧ new = 2 ∨ expected = 2 ∧ new = 3)) ∨
  (holding = none ∧ expected = 3 ∧ new = 4)

/-- What a call with this holding may do: close an open gate, open it as its holder, move the phase
along. -/
def InGate (holding : Option Holding) : Op → Prop
  | .exchange .gate expected new true => holding = none ∧ expected = 0 ∧ (new = 1 ∨ new = 2)
  | .store .gate v => holding = some .epoch ∧ v = 0
  | .swap .gate v _ => holding = some .membership ∧ v = 0
  | .exchange .phase expected new true => PhaseMove holding expected new
  | .store .phase v => v = Phase.failed.toWord
  | .swap .phase _ _ => False
  | _ => True

/-- An operation that changes nothing. -/
theorem inGate_of_read {a : Op} (h : a.IsRead) (w : Option Holding) :
    InGate w a ∧ next w a = w := by
  cases a with
  | load c v => exact ⟨trivial, rfl⟩
  | exchange c e n success =>
    obtain rfl : success = false := h
    cases c <;> exact ⟨trivial, rfl⟩
  | store c v => exact h.elim
  | swap c n old => exact h.elim

/-- An update is in progress. -/
def Active (phase : Nat) : Prop := 1 ≤ phase ∧ phase ≤ 3

/-- The gate, with what each call has. -/
structure Gate (m : Memory) (holding : Nat → Option Holding) : Prop where
  one : ∀ i j, holding i ≠ none → holding j ≠ none → i = j
  word : ∀ i h, holding i = some h → m .gate = h.toWord
  active : Active (m .phase) → m .gate = 1 ∧ ∀ i, holding i = none

section Steps

variable {m m' : Memory} {holding : Nat → Option Holding} {i : Nat} {w : Option Holding}
  {a : Op}

/-- No call has the gate. -/
theorem Gate.of_free (hfree : ∀ i, holding i = none) (hactive : Active (m .phase) → m .gate = 1) :
    Gate m holding := by
  refine ⟨fun i _ hi => absurd (hfree i) hi, fun i h hi => ?_, fun h => ⟨hactive h, hfree⟩⟩
  rw [hfree i] at hi
  cases hi

/-- One call has it, and no update is in progress. -/
theorem Gate.of_held {h : Holding} (hothers : ∀ j, j ≠ i → holding j = none)
    (hi : holding i = some h) (hword : m .gate = h.toWord) (hidle : ¬ Active (m .phase)) :
    Gate m holding := by
  have honly : ∀ j, holding j ≠ none → j = i := fun j hj => by_contra fun hne => hj (hothers j hne)
  refine ⟨fun j k hj hk => (honly j hj).trans (honly k hk).symm, fun j h' hj => ?_,
    fun hactive => absurd hactive hidle⟩
  obtain rfl := honly j (by rw [hj]; nofun)
  rw [hi] at hj
  cases hj
  exact hword

/-- The holder is alone with the gate. -/
theorem Gate.holder {h : Holding} (hgate : Gate m holding) (hi : holding i = some h) :
    (∀ j, j ≠ i → holding j = none) ∧ m .gate = h.toWord ∧ ¬ Active (m .phase) := by
  refine ⟨fun j hj => by_contra fun hne => hj (hgate.one j i hne (by rw [hi]; nofun)),
    hgate.word i h hi, fun hactive => ?_⟩
  have hnone := (hgate.active hactive).2 i
  rw [hi] at hnone
  cases hnone

/-- An open gate is nobody's. -/
theorem Gate.open (hgate : Gate m holding) (hopen : m .gate = 0) :
    (∀ i, holding i = none) ∧ ¬ Active (m .phase) := by
  constructor
  · intro i
    cases hi : holding i with
    | none => rfl
    | some h =>
      have hword := hgate.word i h hi
      cases h <;> simp [hopen, Holding.toWord] at hword
  · intro hactive
    have hone := (hgate.active hactive).1
    omega

/-- What the call did not change. -/
theorem Gate.quiet (hgate : Gate m holding) (hword : m' .gate = m .gate)
    (hphase : m' .phase = m .phase) (hw : w = holding i) :
    Gate m' (Function.update holding i w) := by
  rw [hw, Function.update_eq_self]
  refine ⟨hgate.one, fun j h hj => ?_, fun hactive => ?_⟩
  · rw [hword]
    exact hgate.word j h hj
  · rw [hword]
    exact hgate.active (by rwa [← hphase])

theorem update_free (h : ∀ j, j ≠ i → holding j = none) (j : Nat) :
    Function.update holding i none j = none := by
  by_cases hj : j = i
  · rw [hj, Function.update_self]
  · rw [Function.update_of_ne hj, h j hj]

theorem Gate.exchangeGate {expected new : Nat} (hgate : Gate m holding)
    (hm : m .gate = expected) (hok : InGate (holding i) (.exchange .gate expected new true)) :
    Gate ((Action.exchange Cell.gate expected new true).apply m)
      (Function.update holding i (next (holding i) (.exchange .gate expected new true))) := by
  obtain ⟨-, rfl, hnew⟩ := hok
  obtain ⟨hfree, hidle⟩ := hgate.open hm
  have hothers : ∀ (w : Option Holding) j, j ≠ i → Function.update holding i w j = none :=
    fun w j hj => (Function.update_of_ne hj _ _).trans (hfree j)
  rcases hnew with rfl | rfl
  · exact .of_held (hothers _) (Function.update_self i _ holding) rfl hidle
  · exact .of_held (hothers _) (Function.update_self i _ holding) rfl hidle

theorem Gate.exchangePhase {expected new : Nat} (hgate : Gate m holding)
    (hm : m .phase = expected) (hok : PhaseMove (holding i) expected new) :
    Gate ((Action.exchange Cell.phase expected new true).apply m)
      (Function.update holding i (next (holding i) (.exchange .phase expected new true))) := by
  have hword : (Action.exchange Cell.phase expected new true).apply m .gate = m .gate := rfl
  have hphase : (Action.exchange Cell.phase expected new true).apply m .phase = new := rfl
  rcases hok with ⟨hepoch, -, rfl⟩ | hmiddle | ⟨-, rfl, rfl⟩
  · obtain ⟨hothers, hone, -⟩ := hgate.holder hepoch
    exact .of_free (update_free hothers) fun _ => hword.trans hone
  · have hactive : Active (m .phase) := by
      rw [hm]
      rcases hmiddle with ⟨rfl, -⟩ | ⟨rfl, -⟩ <;> exact ⟨by decide, by decide⟩
    obtain ⟨hone, hfree⟩ := hgate.active hactive
    have hsame : next (holding i) (.exchange .phase expected new true) = holding i := by
      rcases hmiddle with ⟨-, rfl⟩ | ⟨-, rfl⟩ <;> rfl
    rw [hsame, Function.update_eq_self]
    exact .of_free hfree fun _ => hword.trans hone
  · obtain ⟨hone, hfree⟩ := hgate.active (by rw [hm]; exact ⟨by decide, by decide⟩)
    refine .of_held (fun j hj => (Function.update_of_ne hj _ _).trans (hfree j))
      (Function.update_self i _ holding) (hword.trans hone) ?_
    rw [hphase]
    exact fun h => absurd h.2 (by decide)

/-- Every operation that its call may do keeps the gate. -/
theorem Gate.step (hgate : Gate m holding) (henabled : a.Enabled m) (hok : InGate (holding i) a) :
    Gate (a.apply m) (Function.update holding i (next (holding i) a)) := by
  have hopened : ∀ {h}, holding i = some h →
      Gate (Function.update m .gate 0) (Function.update holding i none) := by
    intro h hi
    obtain ⟨hothers, -, hidle⟩ := hgate.holder hi
    exact .of_free (update_free hothers) fun hactive => absurd hactive hidle
  cases a with
  | load c v => exact hgate.quiet rfl rfl rfl
  | store c v =>
    cases c with
    | gate =>
      obtain ⟨hi, rfl⟩ := hok
      exact hopened hi
    | phase =>
      obtain rfl : v = Phase.failed.toWord := hok
      have hsame : next (holding i) (.store .phase Phase.failed.toWord) = holding i := rfl
      rw [hsame, Function.update_eq_self]
      refine ⟨hgate.one, hgate.word, fun hactive => ?_⟩
      exact absurd hactive.2 (by decide : ¬ Phase.failed.toWord ≤ 3)
    | _ => exact hgate.quiet rfl rfl rfl
  | exchange c expected new success =>
    cases success with
    | false => exact hgate.quiet rfl rfl (inGate_of_read (a := .exchange c _ _ false) rfl _).2
    | true =>
      have hm : m c = expected := henabled.mp rfl
      cases c with
      | gate => exact hgate.exchangeGate hm hok
      | phase => exact hgate.exchangePhase hm hok
      | _ => exact hgate.quiet rfl rfl rfl
  | swap c new old =>
    cases c with
    | gate =>
      obtain ⟨hi, rfl⟩ := hok
      exact hopened hi
    | phase => exact hok.elim
    | _ => exact hgate.quiet rfl rfl rfl

end Steps

/-- The gate is used as it should be. -/
def gateDiscipline : Discipline fun _ : Cell => Nat where
  ok past := InGate (held past)
  Inv m pasts := Gate m fun i => held (pasts i)
  step := by
    intro m pasts i a hgate henabled hok
    have hheld : (fun j => held (Function.update pasts i (a :: pasts i) j)) =
        Function.update (fun j => held (pasts j)) i (next (held (pasts i)) a) := by
      funext j
      by_cases hj : j = i
      · subst hj
        rw [Function.update_self, Function.update_self]
        rfl
      · rw [Function.update_of_ne hj, Function.update_of_ne hj]
    have hnext : Gate (a.apply m)
        (Function.update (fun j => held (pasts j)) i (next (held (pasts i)) a)) :=
      Gate.step hgate henabled hok
    rwa [← hheld] at hnext

/-- The assertion of `finish_membership_change` holds. -/
theorem swap_gate {m : Memory} {pasts : Nat → List Op} {i v old : Nat}
    (hinv : gateDiscipline.Inv m pasts) (henabled : (Action.swap Cell.gate v old).Enabled m)
    (hok : gateDiscipline.ok (pasts i) (.swap .gate v old)) : old = 2 := by
  have hword := hinv.word i .membership hok.1
  exact (henabled : old = m .gate).trans hword

/-! ## The methods -/

section Methods

variable {A B : Type} {w : Option Holding} {p : Ops A} {Q : A → Option Holding → Prop}

/-- A call with this holding may do the operation, on a cell that exists. -/
structure Lawful (w : Option Holding) (a : Op) : Prop where
  inBounds : a.loc.InBounds
  inGate : InGate w a

/-- With this holding, the program does what it may, and ends with `Q` of its result and of what it
has then. -/
def Guarded (w : Option Holding) (p : Ops A) (Q : A → Option Holding → Prop) : Prop :=
  ∀ past, held past = w →
    p.Along (fun past => Lawful (held past)) (fun a past' => Q a (held past')) past

theorem Guarded.ret {a : A} (h : Q a w) : Guarded w (.ret a) Q := by
  rintro past rfl
  exact h

theorem Guarded.bind {f : A → Ops B} {R : B → Option Holding → Prop} (h : Guarded w p Q)
    (hf : ∀ a w', Q a w' → Guarded w' (f a) R) : Guarded w (p >>= f) R :=
  fun past hpast => (h past hpast).bind fun a past' hQ => hf a _ hQ past' rfl

theorem Guarded.lift {ε : Type} {f : A → ExceptT ε Ops B}
    {R : Except ε B → Option Holding → Prop} (h : Guarded w p Q)
    (hf : ∀ a w', Q a w' → Guarded w' (f a).run R) :
    Guarded w ((liftM p : ExceptT ε Ops A) >>= f).run R := by
  rw [Prog.run_bind_lift]
  exact h.bind hf

/-- A part that only reads. -/
theorem Guarded.reads {P : A → Prop} (h : p.Forall Reads P) :
    Guarded w p fun a w' => P a ∧ w' = w := by
  intro past hpast
  refine .of_forall (P := fun past => held past = w) h (fun past a hpast ha => ?_) hpast
  have hsame := inGate_of_read ha.read (held past)
  exact ⟨⟨ha.inBounds, hsame.1⟩, hsame.2.trans hpast⟩

theorem Guarded.exchange {c : Cell} {expected new : Nat} (hc : c.InBounds)
    (h : InGate w (.exchange c expected new true)) :
    Guarded w (compareExchange c expected new) fun success w' =>
      w' = if success then next w (.exchange c expected new true) else w := by
  rintro past rfl success
  cases success with
  | false =>
    have hsame := inGate_of_read (a := .exchange c expected new false) rfl (held past)
    exact ⟨⟨hc, hsame.1⟩, hsame.2⟩
  | true => exact ⟨⟨hc, h⟩, rfl⟩

theorem Guarded.store {c : Cell} {v : Nat} (hc : c.InBounds) (h : InGate w (.store c v)) :
    Guarded w (store c v) fun _ w' => w' = next w (.store c v) := by
  rintro past rfl
  exact ⟨⟨hc, h⟩, rfl⟩

theorem fail_guarded : Guarded w fail fun _ w' => w' = w := .store trivial rfl

/-- The caller has the gate if it is told so. -/
theorem tryMembershipChange_guarded :
    Guarded none tryMembershipChange fun success w => success = true → w = some .membership := by
  refine (Guarded.reads phase_reads).bind ?_
  rintro p _ ⟨-, rfl⟩
  split
  · exact .ret nofun
  refine .bind (.exchange trivial ⟨rfl, rfl, Or.inr rfl⟩) fun success w hw => ?_
  cases success with
  | false => exact .ret nofun
  | true =>
    exact (Guarded.reads phase_reads).bind fun p w' hw' => .ret fun _ => hw'.2.trans hw

theorem begin_guarded (members : Nat) : Guarded none (begin members).run fun _ _ => True := by
  refine (Guarded.reads phase_reads).lift ?_
  rintro p _ ⟨-, rfl⟩
  split
  · exact .ret trivial
  split
  · exact .ret trivial
  refine .lift (.exchange trivial ⟨rfl, rfl, Or.inl rfl⟩) fun success w hw => ?_
  cases success with
  | false => exact .ret trivial
  | true =>
    refine (Guarded.reads phase_reads).lift fun previous w' hw' => ?_
    obtain rfl : w' = some .epoch := hw'.2.trans hw
    split
    · exact fail_guarded.lift fun _ _ _ => .ret trivial
    rename_i hprevious
    have hexpected : previous.toWord = 0 ∨ previous.toWord = 4 := by
      by_contra hne
      refine hprevious ⟨?_, ?_⟩
      · rintro rfl
        exact hne (Or.inl rfl)
      · rintro rfl
        exact hne (Or.inr rfl)
    refine (Guarded.reads (load_reads (c := .epoch) trivial)).lift ?_
    rintro epoch _ ⟨-, rfl⟩
    split
    · exact fail_guarded.lift fun _ _ _ => .ret trivial
    refine .lift (.store trivial trivial) fun _ w hw => ?_
    subst hw
    refine .lift (.store trivial trivial) fun _ w hw => ?_
    subst hw
    refine .lift (.exchange trivial (Or.inl ⟨rfl, hexpected, rfl⟩)) fun success _ _ => ?_
    cases success <;> exact .ret trivial

/-- A method that goes on after its check with what it had, for a CPU that exists. -/
theorem check_guarded {id e : Nat} {expected : Phase} {rest : Unit → Result B}
    (h : id < maxCpus → Guarded w (rest ()).run fun _ _ => True) :
    Guarded w (check id e expected >>= rest).run fun _ _ => True := by
  refine (Guarded.reads (check_reads id e expected)).bind ?_
  rintro (e | ⟨⟩) _ ⟨hid, rfl⟩
  · exact .ret trivial
  · exact h (hid rfl)

/-- The next phase, which expects the one before it. -/
theorem movePhase_guarded {expected new : Nat} {rest : Bool → Result Unit}
    (h : PhaseMove w expected new)
    (hrest : Guarded (next w (.exchange .phase expected new true)) (rest true).run fun _ _ => True)
    (hlost : Guarded w (rest false).run fun _ _ => True) :
    Guarded w ((liftM (compareExchange .phase expected new) : Result Bool) >>= rest).run
      fun _ _ => True := by
  refine .lift (.exchange trivial h) fun success w' hw => ?_
  subst hw
  cases success with
  | false => exact hlost
  | true => exact hrest

theorem startReplace_guarded (e : Nat) : Guarded w (startReplace e).run fun _ _ => True := by
  refine check_guarded fun _ => .lift (.reads (all_reads fun _ hid => hid)) ?_
  rintro quiet _ ⟨-, rfl⟩
  cases quiet with
  | false => exact .ret trivial
  | true => exact movePhase_guarded (Or.inr (Or.inl (by decide))) (.ret trivial) (.ret trivial)

theorem publish_guarded (e : Nat) : Guarded w (publish e).run fun _ _ => True :=
  check_guarded fun _ =>
    movePhase_guarded (Or.inr (Or.inl (by decide))) (.ret trivial) (.ret trivial)

/-- The gate is opened by the call that has completed the update. -/
theorem finish_guarded (e : Nat) : Guarded none (finish e).run fun _ _ => True := by
  refine check_guarded fun _ => .lift (.reads (all_reads fun _ hid => hid)) ?_
  rintro synced _ ⟨-, rfl⟩
  cases synced with
  | false => exact .ret trivial
  | true =>
    refine movePhase_guarded (Or.inr (Or.inr ⟨rfl, rfl, rfl⟩)) ?_ (.ret trivial)
    exact .bind (.store trivial ⟨rfl, rfl⟩) fun _ _ _ => .ret trivial

theorem admitRequest_guarded (id e : Nat) :
    Guarded w (admitRequest id e).run fun _ _ => True := by
  refine check_guarded fun hid => ?_
  split
  · exact .ret trivial
  refine .lift (.reads (load_reads (c := .requested id) hid)) fun previous w' _ => ?_
  split
  · exact .ret trivial
  refine .lift (.exchange hid trivial) fun success _ _ => ?_
  cases success <;> exact .ret trivial

theorem quiesce_guarded (id e : Nat) : Guarded w (quiesce id e).run fun _ _ => True := by
  refine check_guarded fun hid => .lift (.reads (unrequested_reads hid e)) fun late w' _ => ?_
  split
  · exact .ret trivial
  · exact .bind (.store hid trivial) fun _ _ _ => .ret trivial

theorem synchronized_guarded (id e : Nat) :
    Guarded w (synchronized id e).run fun _ _ => True :=
  check_guarded fun hid => .bind (.store hid trivial) fun _ _ _ => .ret trivial

/-- Every method but `finish_membership_change`, which needs what its caller has from before. -/
theorem code_guarded {call : Call} (h : call ≠ .finishMembershipChange) :
    Guarded none (code call) fun _ _ => True := by
  have hthen : ∀ {A : Type} {p : Ops A} {Q : A → Option Holding → Prop} (f : A → Reply),
      Guarded none p Q → Guarded none (do return f (← p) : Ops Reply) fun _ _ => True :=
    fun f hp => hp.bind fun _ _ _ => .ret trivial
  cases call with
  | phase => exact hthen .phase (.reads phase_reads)
  | epoch => exact hthen .word (.reads (load_reads (c := .epoch) trivial))
  | members => exact hthen .word (.reads (load_reads (c := .members) trivial))
  | tryMembershipChange => exact hthen .flag tryMembershipChange_guarded
  | finishMembershipChange => exact absurd rfl h
  | begin members => exact hthen .begun (begin_guarded members)
  | admitRequest id e => exact hthen .result (admitRequest_guarded id e)
  | pending id => exact hthen .flag (.reads (pending_reads id))
  | quiesce id e => exact hthen .result (quiesce_guarded id e)
  | allQuiet => exact hthen .flag (.reads (observed_reads .quiescing .quiet fun _ hid => hid))
  | startReplace e => exact hthen .result (startReplace_guarded e)
  | mayWrite e => exact hthen .flag (.reads (mayWrite_reads e))
  | publish e => exact hthen .result (publish_guarded e)
  | synchronized id e => exact hthen .result (synchronized_guarded id e)
  | allSynced => exact hthen .flag (.reads (observed_reads .synchronizing .synced fun _ hid => hid))
  | finish e => exact hthen .result (finish_guarded e)
  | reusable e => exact hthen .flag (.reads (reusable_reads e))
  | fail => exact fail_guarded.bind fun _ _ _ => .ret trivial

end Methods

end Tvisor.TlbUpdate
