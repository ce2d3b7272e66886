/-
# Tvisor.HostManagement.Dispatch -- one walk through the handlers

What is known of the handlers comes from one walk through their code, with any values read. Every
operation on the way keeps the discipline of the host's memory and writes no list register. Of the
operations behind it the walk keeps a `Ledger`: the completions so far, and what the handler has of
the membership gate. A handler panics on a word that no method leaves there, and on nothing else.
-/
import Tvisor.HostManagement.Known
import Tvisor.Lib.Effects

namespace Tvisor.HostManagement

open Interleave Interleave.Prog Fallible
open Gicv2 hiding Ops
open Management (Reply Request)

/-! ## The ledger -/

/-- A write to one of the two completion registers. -/
inductive Completion where
  | endOfInterrupt (raw : UInt32)
  | deactivate (raw : UInt32)
  deriving DecidableEq, Repr

def completion : Op → Option Completion
  | .store (.gic .eoir) raw => some (.endOfInterrupt raw)
  | .store (.gic .dir) raw => some (.deactivate raw)
  | _ => none

/-- The completions of a token that EL2 deactivates itself. -/
def both (ack : InterruptAck) : List Completion := [.endOfInterrupt ack.raw, .deactivate ack.raw]

/-- The operation writes no list register. -/
def SparesLists (a : Op) : Prop := a.Spares (.gic .lr0) ∧ a.Spares (.gic .lr1)

/-- What handlers promise of an operation. -/
def Orderly (past : List Op) (a : Op) : Prop := SparesLists a ∧ hostDiscipline.ok past a

/-- What a handler has completed, oldest first, and what it has of the gate. -/
structure Ledger where
  completions : List Completion
  holding : Option TlbUpdate.Holding

/-- The ledger after these operations, newest first. -/
noncomputable def ledger (past : List Op) : Ledger :=
  ⟨(past.filterMap completion).reverse, TlbUpdate.held (partOf Cell.updates past)⟩

section Entries

variable {past : List Op} {a : Op}

theorem sparesLists_load (c : Cell) (v : Val c) : SparesLists (.load c v) :=
  ⟨Or.inl trivial, Or.inl trivial⟩

theorem sparesLists_of_loc (h : ∀ r, a.loc ≠ .gic r) : SparesLists a :=
  ⟨Or.inr (h _).symm, Or.inr (h _).symm⟩

theorem sparesLists_embed {Loc : Type} {g : Loc → Cell} (h : ∀ l r, g l ≠ .gic r)
    (b : Action fun l => Val (g l)) : SparesLists (b.embed g) := by
  refine sparesLists_of_loc fun r => ?_
  rw [Action.embed_loc]
  exact h _ r

theorem completion_of_loc (h : ∀ r, a.loc ≠ .gic r) : completion a = none := by
  unfold completion
  split
  · exact absurd rfl (h _)
  · exact absurd rfl (h _)
  · rfl

theorem ledger_cons (h : completion a = none) (hloc : ∀ c, a.loc ≠ .updates c) :
    ledger (a :: past) = ledger past := by
  simp only [ledger, partOf, List.filterMap_cons_none h,
    List.filterMap_cons_none (Action.part_eq_none.mpr hloc)]

theorem ledger_embed {Loc : Type} {g : Loc → Cell} (hgic : ∀ l r, g l ≠ .gic r)
    (hupdates : ∀ l c, g l ≠ .updates c) (b : Action fun l => Val (g l)) :
    ledger (b.embed g :: past) = ledger past := by
  apply ledger_cons
  · refine completion_of_loc fun r => ?_
    rw [Action.embed_loc]
    exact hgic _ r
  · intro c
    rw [Action.embed_loc]
    exact hupdates _ c

theorem ledger_completion {e : Completion} (h : completion a = some e) :
    (ledger (a :: past)).completions = (ledger past).completions ++ [e] := by
  simp only [ledger, List.filterMap_cons_some h, List.reverse_cons]

end Entries

/-! ## Walks -/

variable {A B : Type} {s : Ledger} {x : Handler A} {f : A → Handler B}
  {Q : Except Fault A → Ledger → Prop} {R : Except Fault B → Ledger → Prop}

/-- From this ledger the handler keeps its promises and ends with `Q`, unless it has read a word
that no method leaves there; then it panics. -/
def Walks (s : Ledger) (x : Handler A) (Q : Except Fault A → Ledger → Prop) : Prop :=
  ∀ past, ledger past = s → x.run.Along Orderly
    (fun r past' => Q r (ledger past') ∨ r = .error .panicked ∧ ∃ a ∈ past', Unknown a) past

/-- The handler returns, with nothing new in its ledger. -/
def Serves (x : Handler A) : Prop := ∀ s, Walks s x fun r s' => (∃ a, r = .ok a) ∧ s' = s

/-- The handler has returned and completed nothing. -/
def Returns (s : Ledger) (r : Except Fault A) (s' : Ledger) : Prop :=
  (∃ a, r = .ok a) ∧ s'.completions = s.completions

/-- The handler has completed these, and returned a value with `P` or halted. -/
structure Completes (P : A → Prop) (s : Ledger) (es : List Completion) (r : Except Fault A)
    (s' : Ledger) : Prop where
  value : ∀ a, r = .ok a → P a
  calm : r ≠ .error .panicked
  completions : s'.completions = s.completions ++ es

theorem Walks.pure {a : A} (h : Q (.ok a) s) : Walks s (Pure.pure a : Handler A) Q := by
  rintro past rfl
  exact Or.inl h

theorem Walks.bind (h : Walks s x Q) (hok : ∀ a s', Q (.ok a) s' → Walks s' (f a) R)
    (herror : ∀ e s', Q (.error e) s' → R (.error e) s') : Walks s (x >>= f) R := by
  intro past hpast
  refine (h past hpast).run_bind ?_ ?_
  · rintro a past' (hQ | ⟨hpanic, -⟩)
    · exact hok a _ hQ past' rfl
    · cases hpanic
  · rintro e past' (hQ | ⟨hpanic, hstrange⟩)
    · exact Or.inl (herror e _ hQ)
    · cases hpanic
      exact Or.inr ⟨rfl, hstrange⟩

theorem Walks.mono {Q' : Except Fault A → Ledger → Prop} (h : Walks s x Q)
    (himp : ∀ r s', Q r s' → Q' r s') : Walks s x Q' :=
  fun past hpast => (h past hpast).post fun r _ => Or.imp_left (himp r _)

/-- After these completions, a part that completes nothing. -/
theorem Walks.andNothing {P : A → Prop} {P' : B → Prop} {es : List Completion}
    (h : Walks s x (Completes P s es))
    (hf : ∀ a s', P a → Walks s' (f a) (Completes P' s' [])) :
    Walks s (x >>= f) (Completes P' s es) := by
  refine h.bind (fun a s' hs' => (hf a s' (hs'.value a rfl)).mono fun r s'' hr => ?_)
    fun e _ he => ?_
  · refine ⟨hr.value, hr.calm, ?_⟩
    rw [hr.completions, List.append_nil, hs'.completions]
  · refine ⟨nofun, ?_, he.completions⟩
    rintro ⟨⟩
    exact he.calm rfl

theorem Walks.done {P : A → Prop} {a : A} (h : P a) :
    Walks s (Pure.pure a : Handler A) (Completes P s []) := by
  refine .pure ⟨?_, nofun, (List.append_nil _).symm⟩
  rintro _ ⟨⟩
  exact h

theorem Serves.pure (a : A) : Serves (Pure.pure a : Handler A) := fun _ => .pure ⟨⟨a, rfl⟩, rfl⟩

theorem Serves.andThen (h : Serves x) (hf : ∀ a, Walks s (f a) R) : Walks s (x >>= f) R := by
  refine (h s).bind ?_ ?_
  · rintro a _ ⟨-, rfl⟩
    exact hf a
  · rintro e _ ⟨⟨a, ha⟩, -⟩
    cases ha

theorem Serves.bind (h : Serves x) (hf : ∀ a, Serves (f a)) : Serves (x >>= f) :=
  fun s => h.andThen fun a => hf a s

theorem Serves.completes (h : Serves x) : Walks s x (Completes (fun _ => True) s []) := by
  refine (h s).mono ?_
  rintro _ s' ⟨⟨a, rfl⟩, rfl⟩
  exact ⟨fun _ _ => trivial, nofun, (List.append_nil _).symm⟩

/-! ## Single operations -/

theorem Plain.ne_updates {c : Cell} (h : Plain c) (u : TlbUpdate.Cell) : c ≠ .updates u := by
  rintro rfl
  exact h

theorem serves_load {c : Cell} (h : Plain c) : Serves (load c) := by
  intro s past hs v
  have hledger : ledger (.load c v :: past) = ledger past := ledger_cons rfl h.ne_updates
  exact ⟨⟨sparesLists_load c v, ok_plain h⟩, Or.inl ⟨⟨v, rfl⟩, hledger.trans hs⟩⟩

/-- One operation on a word that is neither in a part nor a register of the GIC. -/
theorem orderly_plain {a : Op} (past : List Op) (h : Plain a.loc) (hgic : ∀ r, a.loc ≠ .gic r) :
    Orderly past a ∧ ledger (a :: past) = ledger past :=
  ⟨⟨sparesLists_of_loc hgic, ok_plain h⟩, ledger_cons (completion_of_loc hgic) h.ne_updates⟩

theorem serves_store {c : Cell} {v : Val c} (h : Plain c) (hgic : ∀ r, c ≠ .gic r) :
    Serves (store c v) := by
  intro s past hs
  obtain ⟨hok, hledger⟩ := orderly_plain (a := .store c v) past h hgic
  exact ⟨hok, Or.inl ⟨⟨(), rfl⟩, hledger.trans hs⟩⟩

/-- A method on the words of one channel or mailbox. -/
theorem along_part {Loc : Type} {g : Loc → Cell} {p : Prog (fun l => Val (g l)) A}
    {ok : List (Action fun l => Val (g l)) → _ → Prop}
    {T : A → List (Action fun l => Val (g l)) → Prop} {past : List Op}
    (hg : Function.Injective g) (hgic : ∀ l r, g l ≠ .gic r) (hupdates : ∀ l c, g l ≠ .updates c)
    (hok : ∀ past b, ok (partOf g past) b → hostDiscipline.ok past (b.embed g))
    (h : p.Along ok T (partOf g past)) (hs : ledger past = s) :
    (p.embed g).Along Orderly (fun a past' => T a (partOf g past') ∧ ledger past' = s) past :=
  h.embed_part hg (fun past b hb => ⟨sparesLists_embed hgic b, hok past b hb⟩)
    (fun _ b hs => (ledger_embed hgic hupdates b).trans hs) hs

theorem along_channel {source target : Nat} {p : Management.Ops A}
    {T : A → List Management.Op → Prop} {past : List Op}
    (h : p.Along Management.InOrder T (partOf (Cell.channel source target) past))
    (hs : ledger past = s) :
    (p.embed (Cell.channel source target)).Along Orderly
      (fun a past' => T a (partOf (Cell.channel source target) past') ∧ ledger past' = s) past :=
  along_part (channel_injective source target) nofun nofun (fun _ _ => ok_channel) h hs

theorem serves_acknowledge (source target : Nat) (request : Request) (reply : Reply) :
    Serves (onChannel source target (Management.acknowledge request reply)) :=
  fun _ _ hs => (along_channel (Management.acknowledge_inOrder request reply) hs).bind
    fun _ _ hend => Or.inl ⟨⟨_, rfl⟩, hend.2⟩

/-- A method of a mailbox that panics on unknown states only. -/
theorem serves_onMailbox {id : Nat} {x : SecondaryMailbox.Attempt A}
    (h : ∀ past, x.run.Along (fun _ => SecondaryMailbox.Orderly) (fun r past' =>
      r = .error .panicked → ∃ word, SecondaryMailbox.CpuState.ofWord word = none ∧
        .load .state word ∈ past') past) : Serves (onMailbox id x) := by
  intro s past hs
  refine .lifted ((along_part (mailbox_injective id) nofun nofun (fun _ _ => ok_mailbox) (h _)
    hs).bind ?_)
  rintro (⟨e | _⟩ | a) past' ⟨hpanic, hs'⟩
  · exact Or.inl ⟨⟨_, rfl⟩, hs'⟩
  · obtain ⟨word, hword, hmem⟩ := hpanic rfl
    exact Or.inr ⟨rfl, _, embed_mem_of_partOf (mailbox_injective id) hmem, hword⟩
  · exact Or.inl ⟨⟨_, rfl⟩, hs'⟩

theorem serves_lifecycle (id : Nat) : Serves (onMailbox id SecondaryMailbox.lifecycle) :=
  serves_onMailbox fun _ => SecondaryMailbox.lifecycle_orderly

theorem serves_managementPark (id : Nat) : Serves (managementPark id) :=
  (serves_load (by trivial)).bind fun generation => serves_onMailbox fun _ =>
    (SecondaryMailbox.managementPark_orderly generation).post fun _ _ hne h => absurd h hne

theorem serves_virtualView : Serves (onGic virtualView) := by
  have hload : ∀ r v (past : List Op), Orderly past (.load (.gic r) v) ∧
      ledger (.load (.gic r) v :: past) = ledger past := fun r v past =>
    ⟨⟨sparesLists_load _ _, ok_plain trivial⟩, ledger_cons rfl nofun⟩
  intro s past hs vmcr
  refine ⟨(hload _ _ _).1, fun lr0 => ⟨(hload _ _ _).1, fun lr1 => ⟨(hload _ _ _).1, ?_⟩⟩⟩
  refine Or.inl ⟨⟨_, rfl⟩, ?_⟩
  exact (hload _ _ _).2.trans ((hload _ _ _).2.trans ((hload _ _ _).2.trans hs))

/-- The two completion registers, in their order. -/
theorem complete_walks (ack : InterruptAck) :
    Walks s (complete ack) fun r s' => r = .ok () ∧ s'.completions = s.completions ++ both ack := by
  rintro past rfl
  have hgic : ∀ r (past : List Op), r ≠ .lr0 → r ≠ .lr1 →
      Orderly past (.store (.gic r) ack.raw) := fun r past h0 h1 =>
    ⟨⟨Or.inr fun h => h0 (Cell.gic.inj h).symm, Or.inr fun h => h1 (Cell.gic.inj h).symm⟩,
      ok_plain trivial⟩
  refine ⟨hgic .eoir past nofun nofun, hgic .dir _ nofun nofun, Or.inl ⟨rfl, ?_⟩⟩
  rw [ledger_completion (e := .deactivate ack.raw) rfl,
    ledger_completion (e := .endOfInterrupt ack.raw) rfl, List.append_assoc]
  rfl

/-- A token is completed, and then nothing more. -/
theorem complete_andNothing {P : B → Prop} {ack : InterruptAck} {f : Unit → Handler B}
    (hf : ∀ s', Walks s' (f ()) (Completes P s' [])) :
    Walks s (complete ack >>= f) (Completes P s (both ack)) := by
  refine Walks.andNothing (P := fun _ => True) ((complete_walks ack).mono ?_) fun _ s' _ => hf s'
  rintro _ s' ⟨rfl, hs'⟩
  exact ⟨fun _ _ => trivial, nofun, hs'⟩

/-! ## Requests -/

theorem serves_isPrepared (id : Nat) : Serves (isPrepared id) := by
  refine (serves_lifecycle id).bind fun state => ?_
  cases state <;> exact .pure _

theorem serves_findCurrent (image : Image) (pointer : Nat) (ids : List Nat) :
    Serves (findCurrent image pointer ids) := by
  induction ids with
  | nil => exact .pure _
  | cons id ids ih =>
    unfold findCurrent
    split
    · exact ih
    · refine (serves_isPrepared id).bind fun prepared => ?_
      split
      · exact .pure _
      · exact ih

theorem serves_currentId (image : Image) : Serves (currentId image) :=
  (serves_load (by trivial)).bind fun _ => serves_findCurrent image _ _

theorem serves_checkRouting : Serves checkRouting := by
  refine (serves_load (by trivial)).bind fun hcr => ?_
  split <;> exact .pure _

theorem serves_findInterface (interface : UInt8) (ids : List Nat) :
    Serves (findInterface interface ids) := by
  induction ids with
  | nil => exact .pure _
  | cons id ids ih =>
    refine (serves_load (by trivial)).bind fun ready => ?_
    split
    · exact ih
    · refine (serves_load (by trivial)).bind fun target => ?_
      split
      · exact .pure _
      · exact ih

theorem serves_findSource (ack : InterruptAck) : Serves (findSource ack) := by
  unfold findSource
  split
  · exact .pure _
  · exact serves_findInterface _ _

theorem serves_takeRequest (id : Nat) (source : Option Nat) : Serves (takeRequest id source) := by
  cases source with
  | none => exact .pure _
  | some source =>
    show Serves (if source = id then _ else _)
    split
    · exact .pure _
    intro s past hs
    refine .lifted ((along_channel Management.take_inOrder hs).bind ?_)
    rintro (e | request) past' ⟨hpanic, hs'⟩
    · obtain ⟨word, hword, hmem⟩ := hpanic e rfl
      exact Or.inr ⟨rfl, _, embed_mem_of_partOf (channel_injective source id) hmem, hword⟩
    · exact Or.inl ⟨⟨_, rfl⟩, hs'⟩

theorem serves_submitJob (image : Image) (id phase : Nat) : Serves (submitJob image id phase) := by
  unfold submitJob
  split
  · exact .pure _
  split
  · exact .pure _
  split
  · exact .pure _
  refine (serves_load (by trivial)).bind fun started => ?_
  split
  · exact .pure _
  intro s past hs admitted
  obtain ⟨hok, hledger⟩ := orderly_plain
    (a := .exchange (.job phase id) (0 : Nat) (1 : Nat) admitted) past trivial nofun
  exact ⟨hok, Or.inl ⟨⟨_, rfl⟩, hledger.trans hs⟩⟩

/-! ## The gate -/

theorem along_updates {p : TlbUpdate.Ops A} {T : A → Option TlbUpdate.Holding → Prop}
    (h : TlbUpdate.Guarded s.holding p T) :
    Walks s (onUpdates p) fun r s' =>
      ∃ a, r = .ok a ∧ T a s'.holding ∧ s'.completions = s.completions := by
  rintro past rfl
  refine ((h (partOf Cell.updates past) rfl).embed_part
    (P := fun past' => (ledger past').completions = (ledger past).completions) updates_injective
    (fun _ b hb => ⟨sparesLists_embed nofun b, ok_updates hb.inGate⟩) (fun past' b hs => ?_)
    rfl).bind fun a _ hend => Or.inl ⟨a, rfl, hend⟩
  · have hnone : completion (b.embed Cell.updates) = none := by
      refine completion_of_loc fun r => ?_
      rw [Action.embed_loc]
      exact nofun
    rw [← hs]
    simp only [ledger, List.filterMap_cons_none hnone]

/-- What the gate is closed for is done, and its holder opens it. -/
theorem Serves.andFinish {g : A → B} (hx : Serves x) (h : s.holding = some .membership) :
    Walks s (do
      let a ← x
      finishMembershipChange
      return g a) (Returns s) := by
  refine hx.andThen fun a => ?_
  rintro past rfl old
  have hok : TlbUpdate.InGate (TlbUpdate.held (partOf Cell.updates past)) (.swap .gate 0 old) :=
    ⟨h, rfl⟩
  refine ⟨⟨sparesLists_of_loc nofun, ok_updates hok⟩, ?_⟩
  by_cases hold : old = 2
  · subst hold
    exact Or.inl ⟨⟨_, rfl⟩, rfl⟩
  · have hfound : (old == 2) = false := beq_eq_false_iff_ne.mpr hold
    show Along _ _ ((if (old == 2) = true then Pure.pure () else throw Fault.panicked :
      Handler Unit) >>= fun _ => Pure.pure (g a)).run _
    rw [hfound]
    exact Or.inr ⟨rfl, _, List.mem_cons_self, hold⟩

theorem tryMembershipChange_walks {f : Bool → Handler B} (h : s.holding = none)
    (hadmitted : ∀ s', s'.holding = some .membership → Walks s' (f true) (Returns s'))
    (hrefused : Serves (f false)) :
    Walks s (onUpdates TlbUpdate.tryMembershipChange >>= f) (Returns s) := by
  refine (along_updates (h ▸ TlbUpdate.tryMembershipChange_guarded)).bind ?_ ?_
  · rintro admitted s' ⟨_, ⟨⟩, hholding, hs'⟩
    cases admitted with
    | true => exact (hadmitted s' (hholding rfl)).mono fun r s'' hr => ⟨hr.1, hr.2.trans hs'⟩
    | false =>
      refine (hrefused s').mono ?_
      rintro r _ ⟨hr, rfl⟩
      exact ⟨hr, hs'⟩
  · rintro e s' ⟨_, ⟨⟩, -⟩

theorem Serves.returns (h : Serves x) : Walks s x (Returns s) := by
  refine (h s).mono ?_
  rintro r _ ⟨hr, rfl⟩
  exact ⟨hr, rfl⟩

theorem serves_parkOnce (id : Nat) : Serves (parkOnce id) := by
  refine (serves_lifecycle id).bind fun state => ?_
  split
  · exact .pure _
  · exact serves_managementPark id

/-- With the gate open or closed by others, a request is performed or refused. -/
theorem perform_walks (image : Image) (id : Nat) (request : Request) (h : s.holding = none) :
    Walks s (perform image id request) (Returns s) := by
  unfold perform
  cases request.operation with
  | ping => exact (Serves.pure _).returns
  | workerTest =>
    show Walks s (if id ≠ 0 ∧ request.argument ≤ 4096 then _ else _) _
    split <;> exact (Serves.pure _).returns
  | runTest =>
    show Walks s (if image.allCoreStressTest = true ∧ id ≠ 0 then _ else _) _
    split
    · exact ((serves_submitJob image id _).bind fun _ => .pure _).returns
    · exact (Serves.pure _).returns
  | tlbQuiesce =>
    show Walks s (if image.tlbUpdateTest = true ∧ id ≠ 0 then _ else _) _
    split
    · refine (along_updates (TlbUpdate.admitRequest_guarded id _)).bind ?_ ?_
      · rintro admitted s' ⟨_, -, -, hs'⟩
        exact .pure ⟨⟨_, rfl⟩, hs'⟩
      · rintro e s' ⟨_, ⟨⟩, -⟩
    · exact (Serves.pure _).returns
  | park =>
    show Walks s (if id = 0 then _ else _) _
    split
    · exact (Serves.pure _).returns
    · exact tryMembershipChange_walks h (fun _ => (serves_parkOnce id).andFinish) (.pure _)
  | fatalStop =>
    exact tryMembershipChange_walks h
      (fun _ => (serves_store (by trivial) (by nofun)).andFinish) (.pure _)

theorem serves_target (id : Nat) : Serves (target id) := by
  refine (serves_load (by trivial)).bind fun ready => ?_
  split
  · exact .pure _
  · exact (serves_load (by trivial)).bind fun _ => .pure _

theorem serves_smpMasks (ids : List Nat) (masks : Nat × Nat) : Serves (smpMasks ids masks) := by
  induction ids generalizing masks with
  | nil => exact .pure _
  | cons id ids ih =>
    refine (serves_target id).bind fun target => ?_
    split
    · exact ih _
    refine (serves_load (by trivial)).bind fun stopped => ?_
    split
    · exact ih _
    refine (serves_lifecycle id).bind fun state => ?_
    split <;> exact ih _

theorem snapshot_walks (h : s.holding = none) : Walks s snapshot (Returns s) :=
  tryMembershipChange_walks h (fun _ => (serves_smpMasks _ _).andFinish) (.pure _)

/-! ## Dispatch -/

theorem serves_preserved (before : UInt32 × UInt32 × UInt32) (routing : Except String Nat) :
    Serves (preserved before routing) := by
  refine serves_virtualView.bind fun after => ?_
  split
  · exact .pure _
  cases routing with
  | error e => exact .pure _
  | ok hcr =>
    refine serves_checkRouting.bind fun routing => ?_
    cases routing <;> exact .pure _

theorem serves_answer (id source : Nat) (request : Request) (reply : Reply) (unchanged : Bool) :
    Serves (answer id source request reply unchanged) := by
  unfold answer
  split
  · exact (serves_acknowledge _ _ _ _).bind fun _ => .pure _
  · refine (serves_store (by trivial) (by nofun)).bind fun _ => ?_
    exact (serves_acknowledge _ _ _ _).bind fun _ => .pure _

/-- Whatever the request is and whatever becomes of it, `dispatch` completes its token once. -/
theorem dispatch_walks (image : Image) (ack : InterruptAck) (h : s.holding = none) :
    Walks s (dispatch image ack) (Completes (fun _ => True) s (both ack)) := by
  refine (serves_currentId image).andThen fun id => ?_
  cases id with
  | none => exact complete_andNothing fun _ => .done trivial
  | some id =>
    refine serves_virtualView.andThen fun virtualBefore => ?_
    refine serves_checkRouting.andThen fun routingBefore => ?_
    refine (serves_findSource ack).andThen fun source => ?_
    refine (serves_takeRequest id source).andThen fun request => ?_
    cases request with
    | none => exact complete_andNothing fun _ => .done trivial
    | some request =>
      refine (perform_walks image id request.2 h).bind ?_ ?_
      · rintro reply s' ⟨-, hs'⟩
        refine (complete_andNothing fun _ => ?_).mono fun r s'' hr =>
          ⟨hr.value, hr.calm, hs' ▸ hr.completions⟩
        exact ((serves_preserved _ _).bind fun unchanged => serves_answer _ _ _ _ _).completes
      · rintro e s' ⟨⟨_, ⟨⟩⟩, -⟩

theorem serves_stopRequested (image : Image) : Serves (stopRequested image) := by
  refine (serves_currentId image).bind fun id => ?_
  cases id with
  | none => exact (serves_load (by trivial)).bind fun _ => .pure _
  | some id =>
    refine (serves_load (by trivial)).bind fun stopped => ?_
    split
    · exact .pure _
    · exact (serves_load (by trivial)).bind fun _ => .pure _

theorem serves_parkOnline (id : Nat) : Serves (parkOnline id) := by
  unfold parkOnline
  split
  · exact .pure _
  refine (serves_lifecycle id).bind fun state => ?_
  split
  · exact (serves_managementPark id).bind fun _ => .pure _
  · exact .pure _

/-- A CPU that is to stop halts here. -/
theorem stopIfRequested_walks (image : Image) (s : Ledger) :
    Walks s (stopIfRequested image) (Completes (fun _ => True) s []) := by
  have hhalt : Walks s (throw .halted : Handler Unit) (Completes (fun _ => True) s []) := by
    rintro past rfl
    exact Or.inl ⟨nofun, nofun, (List.append_nil _).symm⟩
  refine (serves_stopRequested image).andThen fun requested => ?_
  split
  · refine (serves_currentId image).andThen fun id => ?_
    cases id with
    | none => exact hhalt
    | some id =>
      refine (serves_parkOnline id).andThen fun _ => ?_
      exact (serves_store (by trivial) (by nofun)).andThen fun _ => hhalt
  · exact .done trivial

/-- The management interrupt, in either handler. -/
theorem dispatch_andStop {P : B → Prop} {image : Image} {ack : InterruptAck} {f : Bool → B}
    (h : s.holding = none) (hf : ∀ handled, P (f handled)) :
    Walks s (do
      let handled ← dispatch image ack
      stopIfRequested image
      return f handled) (Completes P s (both ack)) :=
  (dispatch_walks image ack h).andNothing fun handled s' _ =>
    (stopIfRequested_walks image s').andNothing fun _ _ _ => .done (hf handled)

theorem currentAck_walks (image : Image) (ack : InterruptAck) (h : s.holding = none) :
    Walks s (currentAck image ack) (Completes (fun _ => True) s (both ack)) := by
  unfold currentAck
  split
  · exact complete_andNothing fun _ => .done trivial
  · exact dispatch_andStop h fun _ => trivial

end Tvisor.HostManagement
