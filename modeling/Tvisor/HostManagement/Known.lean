/-
# Tvisor.HostManagement.Known -- no method finds a word that it does not know

A handler panics where a channel holds an operation that is none, where a mailbox holds a state that
is none, and where the gate is not closed when its holder opens it. None of that happens, whatever
the other CPUs do, because everybody who writes those words keeps a discipline: the operation of a
request is written before the request is published, lifecycles are moved along their edges, and the
gate is opened by its holder (`TlbUpdate.gateDiscipline`).
-/
import Tvisor.HostManagement
import Tvisor.Lib.Discipline
import Tvisor.SecondaryMailbox.Steps
import Tvisor.TlbUpdate.Gate

namespace Tvisor

open Interleave Interleave.Prog Fallible

/-! ## Requests -/

namespace Management

/-- The operation shows that a request was published, or writes the word of one. -/
def Shows : Op → Prop
  | .load .sequence v | .load .taken v => v ≠ 0
  | .store .operation _ => True
  | _ => False

/-- The call has seen or written a request. -/
def Informed (past : List Op) : Prop := ∃ a ∈ past, Shows a

/-- An informed call may read the operation, publish a number and claim one. -/
def InOrder (past : List Op) : Op → Prop
  | .load .operation _ | .store .sequence _ | .exchange .taken _ _ _ => Informed past
  | .store .operation word => Operation.ofWord word ≠ none
  | .exchange .operation _ _ _ | .swap .operation _ _ | .exchange .sequence _ _ _
  | .swap .sequence _ _ | .store .taken _ | .swap .taken _ _ => False
  | _ => True

/-- The word of the operation is one. -/
def Valid (m : Memory) : Prop := Operation.ofWord (m .operation) ≠ none

/-- Somebody can tell that there was a request. -/
def Shown (m : Memory) (pasts : Nat → List Op) : Prop :=
  (∃ i, Informed (pasts i)) ∨ m .sequence ≠ 0 ∨ m .taken ≠ 0

section Payload

variable {m : Memory} {pasts : Nat → List Op} {i : Nat} {a : Op} {past : List Op}

/-- An operation stays one. -/
theorem InOrder.keeps (h : InOrder past a) (hm : Valid m) : Valid (a.apply m) := by
  by_cases hloc : Cell.operation = a.loc
  · cases a with
    | load c v => exact hm
    | store c v =>
      cases hloc
      exact h
    | exchange c e n success =>
      cases hloc
      exact h.elim
    | swap c n old =>
      cases hloc
      exact h.elim
  · rw [Valid, a.apply_of_ne hloc]
    exact hm

theorem InOrder.valid (h : Shown m pasts → Valid m) (henabled : a.Enabled m)
    (hok : InOrder (pasts i) a)
    (hshown : Shown (a.apply m) (Function.update pasts i (a :: pasts i))) : Valid (a.apply m) := by
  by_cases hvalid : Valid m
  · exact hok.keeps hvalid
  -- Nothing was shown so far, and only an informed call writes the two counts.
  have hnone : ¬ Informed (pasts i) := fun hi => hvalid (h (.inl ⟨i, hi⟩))
  have hsequence : m .sequence = 0 := by_contra fun hne => hvalid (h (.inr (.inl hne)))
  have htaken : m .taken = 0 := by_contra fun hne => hvalid (h (.inr (.inr hne)))
  have hcount : ∀ c, c = .sequence ∨ c = .taken → m c = 0 → a.apply m c = 0 := by
    intro c hc hzero
    by_cases hloc : c = a.loc
    · cases a with
      | load c' v => exact hzero
      | store c' v =>
        cases hloc
        rcases hc with rfl | rfl
        · exact absurd hok hnone
        · exact hok.elim
      | exchange c' e n success =>
        cases hloc
        rcases hc with rfl | rfl
        · exact hok.elim
        · exact absurd hok hnone
      | swap c' n old =>
        cases hloc
        rcases hc with rfl | rfl <;> exact hok.elim
    · rw [a.apply_of_ne hloc, hzero]
  rcases hshown with ⟨j, hj⟩ | hne | hne
  · by_cases hij : j = i
    · rw [hij, Function.update_self] at hj
      obtain ⟨b, hb, hshows⟩ := hj
      rcases List.mem_cons.mp hb with rfl | hb
      · unfold Shows at hshows
        split at hshows
        · exact absurd ((henabled : _ = m .sequence).trans hsequence) hshows
        · exact absurd ((henabled : _ = m .taken).trans htaken) hshows
        · exact hok
        · exact hshows.elim
      · exact absurd ⟨b, hb, hshows⟩ hnone
    · rw [Function.update_of_ne hij] at hj
      exact absurd (h (.inl ⟨j, hj⟩)) hvalid
  · exact absurd (hcount _ (.inl rfl) hsequence) hne
  · exact absurd (hcount _ (.inr rfl) htaken) hne

end Payload

/-- Requests are written before they are published. -/
def payloadDiscipline : Discipline fun _ : Cell => Nat where
  ok := InOrder
  Inv m pasts := Shown m pasts → Valid m
  step := InOrder.valid

section Methods

variable {past : List Op}

theorem publish_inOrder (operation : Operation) (argument : Nat) :
    (publish operation argument).Along InOrder (fun _ _ => True) past := by
  refine fun sequence => ⟨trivial, fun retired => ⟨trivial, ?_⟩⟩
  show Along _ _ (ite _ _ _) _
  split
  · trivial
  split
  · refine ⟨by rw [InOrder, Operation.ofWord_toWord]; nofun, trivial, ?_, trivial⟩
    exact ⟨.store .operation operation.toWord, by simp, trivial⟩
  · trivial

theorem submit_inOrder (operation : Operation) (argument : Nat) :
    (submit operation argument).Along InOrder (fun _ _ => True) past := by
  refine fun success => ⟨trivial, ?_⟩
  cases success with
  | false => trivial
  | true => exact (publish_inOrder operation argument).bind fun _ _ _ => ⟨trivial, trivial⟩

/-- Of all the words that `take` reads, only that of the operation can make it panic. -/
theorem take_inOrder : take.Along InOrder (fun r past' => ∀ e, r = .error e →
    ∃ word, Operation.ofWord word = none ∧ .load .operation word ∈ past') past := by
  refine fun sequence => ⟨trivial, fun taken => ⟨trivial, ?_⟩⟩
  show Along _ _ (ite _ _ _) _
  split
  · exact nofun
  rename_i hne
  -- The two counts differ, so one of them is not 0.
  have hinformed : ∀ newer, Informed (newer ++ .load .taken taken :: .load .sequence sequence ::
      past) := by
    intro newer
    by_cases htaken : taken = 0
    · refine ⟨.load .sequence sequence, by simp, ?_⟩
      rintro rfl
      exact hne htaken.symm
    · exact ⟨.load .taken taken, by simp, htaken⟩
  refine fun success => ⟨hinformed [], ?_⟩
  cases success with
  | false => exact nofun
  | true =>
    have hload : (load .operation).Along InOrder (fun word past' => .load .operation word ∈ past')
        (.exchange .taken taken sequence true :: .load .taken taken :: .load .sequence sequence ::
          past) := fun word => ⟨hinformed [_], List.mem_cons_self⟩
    refine hload.bind fun word past' hmem => ?_
    split
    · rename_i hword
      exact fun _ _ => ⟨word, hword, hmem⟩
    · exact fun argument => ⟨trivial, nofun⟩

theorem acknowledge_inOrder (request : Request) (reply : Reply) :
    (acknowledge request reply).Along InOrder (fun _ _ => True) past :=
  ⟨trivial, trivial, trivial, trivial⟩

theorem code_inOrder (call : Call) : (code call).Along InOrder (fun _ _ => True) past := by
  cases call with
  | submit operation argument => exact (submit_inOrder operation argument).bind fun _ _ _ => trivial
  | completedCount => exact fun _ => ⟨trivial, trivial⟩
  | take => exact take_inOrder.bind fun _ _ _ => trivial
  | tryResult pending =>
    refine Along.bind (Q := fun _ _ => True) ?_ fun _ _ _ => trivial
    unfold tryResult
    split
    · trivial
    refine fun acknowledged => ⟨trivial, ?_⟩
    show Along _ _ (ite _ _ _) _
    split
    · trivial
    · exact fun _ => ⟨trivial, fun _ => ⟨trivial, trivial, trivial⟩⟩
  | acknowledge request reply => exact (acknowledge_inOrder request reply).bind fun _ _ _ => trivial
  | dropPending _ => trivial
  | dropRequest _ => trivial

end Methods

end Management

/-! ## Lifecycles -/

namespace SecondaryMailbox

/-- Lifecycles go along their edges. -/
def stateDiscipline : Discipline fun _ : Cell => Nat where
  ok _ := Orderly
  Inv m _ := CpuState.ofWord (m .state) ≠ none
  step := by
    intro m pasts i a hm _ hok
    by_cases hloc : Cell.state = a.loc
    · cases a with
      | load c v => exact hm
      | store c v => exact hok.elim
      | exchange c e n success =>
        cases hloc
        obtain ⟨s, s', -, -, rfl⟩ := hok
        cases success with
        | false => exact hm
        | true =>
          rw [Action.apply_exchange_self, CpuState.ofWord_toWord]
          nofun
      | swap c n old => exact hok.elim
    · rw [a.apply_of_ne hloc]
      exact hm

/-- A lifecycle that is read is known, or the reader panics. -/
theorem lifecycle_orderly {past : List Operation} :
    lifecycle.run.Along (fun _ => Orderly) (fun r past' => r = .error .panicked →
      ∃ word, CpuState.ofWord word = none ∧ .load .state word ∈ past') past := by
  have hload : (load .state).Along (fun _ => Orderly) (fun v past' => .load .state v ∈ past')
      past := fun v => ⟨trivial, List.mem_cons_self⟩
  refine .lifted (hload.bind fun word past' hmem => ?_)
  split
  · exact nofun
  · rename_i hnone
    exact fun _ => ⟨word, hnone, hmem⟩

theorem managementPark_orderly (g : Nat) {past : List Operation} :
    (managementPark g).run.Along (fun _ => Orderly) (fun r _ => r ≠ .error .panicked) past := by
  have hcheck : (check g).run.Along (fun _ => Orderly) (fun r _ => r ≠ .error .panicked) past := by
    refine .lifted ((Along.of_forall (P := fun _ => True) (observeReady_loads g)
      (fun _ _ _ hload => ⟨orderly_of_load hload, trivial⟩) trivial).bind fun ready _ _ => ?_)
    split <;> exact nofun
  refine hcheck.run_bind (fun _ _ _ => ?_) ?_
  · refine fun success => ⟨⟨_, _, .rest, rfl, rfl⟩, ?_⟩
    cases success <;> exact nofun
  · rintro e _ he ⟨⟩
    exact he rfl

end SecondaryMailbox

/-! ## The memory of the host -/

namespace HostManagement

abbrev Op := Action Val

theorem updates_injective : Function.Injective Cell.updates := fun _ _ h => Cell.updates.inj h

theorem channel_injective (source target : Nat) : Function.Injective (Cell.channel source target) :=
  fun _ _ h => (Cell.channel.inj h).2.2

theorem mailbox_injective (id : Nat) : Function.Injective (Cell.mailbox id) :=
  fun _ _ h => (Cell.mailbox.inj h).2

/-- Everybody keeps the disciplines of the gate, of all channels and of all mailboxes. -/
noncomputable def hostDiscipline : Discipline Val :=
  (Discipline.lift updates_injective TlbUpdate.gateDiscipline).and <|
    (Discipline.all fun pair : Nat × Nat =>
      .lift (channel_injective pair.1 pair.2) Management.payloadDiscipline).and <|
    .all fun id => .lift (mailbox_injective id) SecondaryMailbox.stateDiscipline

/-- A word that no method leaves there: the word of an operation that is none, the word of a state
that is none, or a gate that is not closed when its holder opens it. -/
def Unknown : Op → Prop
  | .load (.channel _ _ .operation) word => Management.Operation.ofWord word = none
  | .load (.mailbox _ .state) word => SecondaryMailbox.CpuState.ofWord word = none
  | .swap (.updates .gate) _ old => old ≠ (2 : Nat)
  | _ => False

section Host

variable {past : List Op} {a : Op}

theorem known {m : ∀ c, Val c} {pasts : Nat → List Op} {i : Nat} (hinv : hostDiscipline.Inv m pasts)
    (henabled : a.Enabled m) (hok : hostDiscipline.ok (pasts i) a) : ¬ Unknown a := by
  obtain ⟨hgate, hchannels, hmailboxes⟩ := hinv
  intro hunknown
  unfold Unknown at hunknown
  split at hunknown
  · rename_i source target word
    have hinformed : Management.Informed (partOf (Cell.channel source target) (pasts i)) :=
      hok.2.1 (source, target) (.load .operation word)
        (Action.part_embed (channel_injective source target) (.load .operation word))
    rw [(henabled : word = m (.channel source target .operation))] at hunknown
    exact hchannels (source, target) (.inl ⟨i, hinformed⟩) hunknown
  · rename_i id word
    rw [(henabled : word = m (.mailbox id .state))] at hunknown
    exact hmailboxes id hunknown
  · rename_i new old
    have hok : TlbUpdate.gateDiscipline.ok (partOf Cell.updates (pasts i)) (.swap .gate new old) :=
      hok.1 _ (Action.part_embed updates_injective (.swap .gate new old))
    exact hunknown (TlbUpdate.swap_gate hgate henabled hok)
  · exact hunknown

/-- The cells outside the parts. -/
def Plain : Cell → Prop
  | .updates _ | .channel _ _ _ | .mailbox _ _ => False
  | _ => True

theorem ok_plain (h : Plain a.loc) : hostDiscipline.ok past a := by
  have hne : ∀ c, ¬ Plain c → a.loc ≠ c := fun c hc heq => hc (heq ▸ h)
  exact ⟨Discipline.lift_of_ne _ fun l => hne _ id,
    fun _ => Discipline.lift_of_ne _ fun l => hne _ id,
    fun _ => Discipline.lift_of_ne _ fun l => hne _ id⟩

theorem ok_updates {b : TlbUpdate.Op}
    (h : TlbUpdate.InGate (TlbUpdate.held (partOf Cell.updates past)) b) :
    hostDiscipline.ok past (b.embed Cell.updates) :=
  ⟨(Discipline.lift_embed updates_injective).mpr h, fun _ => Discipline.lift_of_apart _ nofun,
    fun _ => Discipline.lift_of_apart _ nofun⟩

theorem ok_channel {source target : Nat} {b : Management.Op}
    (h : Management.InOrder (partOf (Cell.channel source target) past) b) :
    hostDiscipline.ok past (b.embed (Cell.channel source target)) := by
  refine ⟨Discipline.lift_of_apart _ nofun, fun pair => ?_,
    fun _ => Discipline.lift_of_apart _ nofun⟩
  by_cases hsame : (source, target) = pair
  · subst hsame
    exact (Discipline.lift_embed (channel_injective source target)).mpr h
  · refine Discipline.lift_of_apart _ fun l l' heq => hsame ?_
    rw [(Cell.channel.inj heq).1, (Cell.channel.inj heq).2.1]

theorem ok_mailbox {id : Nat} {b : SecondaryMailbox.Operation} (h : SecondaryMailbox.Orderly b) :
    hostDiscipline.ok past (b.embed (Cell.mailbox id)) := by
  refine ⟨Discipline.lift_of_apart _ nofun, fun _ => Discipline.lift_of_apart _ nofun,
    fun id' => ?_⟩
  by_cases hsame : id = id'
  · subst hsame
    exact (Discipline.lift_embed (mailbox_injective id)).mpr h
  · exact Discipline.lift_of_apart _ fun l l' heq => hsame (Cell.mailbox.inj heq).1

/-- The memory at boot: channels, mailboxes and the update state are new, everything else holds
anything. -/
def booted (rest : ∀ c, Val c) : ∀ c, Val c
  | .updates c => TlbUpdate.new c
  | .channel _ _ c => Management.new c
  | .mailbox _ c => SecondaryMailbox.new c
  | c => rest c

theorem booted_disciplined (rest : ∀ c, Val c) :
    hostDiscipline.Inv (booted rest) fun _ => [] := by
  refine ⟨.of_free (fun _ => rfl) fun h => absurd h.1 (show ¬ 1 ≤ 0 by decide),
    fun _ hshown => ?_, fun _ => ?_⟩
  · rcases hshown with ⟨_, _, hb, -⟩ | hne | hne
    · cases hb
    · exact absurd rfl hne
    · exact absurd rfl hne
  · exact fun h => by cases h

end Host

end HostManagement

end Tvisor
